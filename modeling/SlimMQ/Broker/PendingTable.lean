import SlimMQ.Library.ChainTable
import SlimMQ.Wire.Transport

/-!
# The pending table

The broker's table of QoS 2 handshakes, `pending_table.c`: a chained hash table keyed by all bytes
of the client's address and the message id. The broker adds and updates entries; it calls neither
`pending_table_remove` nor `pending_table_cleanup_expired`, so that an entry stays until the broker
ends.
-/

namespace SlimMQ

/-- `qos2_state_t`. -/
inductive Qos2State
  | received
  | waitRelease
  | released
  | completed
  deriving DecidableEq

/-- What an entry is looked up by: the address and the message id. -/
abbrev PendingKey := SockaddrIn × UInt32

abbrev pendingTableSize : ℕ := 1024

/-- The table of `pending_table.c`. -/
abbrev PendingTable := ChainTable pendingTableSize PendingKey Qos2State

/-- `hash_key`. -/
def hashKey (k : PendingKey) : Fin pendingTableSize :=
  ⟨((k.1.sAddr ^^^ k.1.sinPort.toUInt32) ^^^ k.2).toNat % pendingTableSize,
    Nat.mod_lt _ (by decide)⟩

/-- `pending_table_init`. -/
def pendingTableInit : PendingTable := fun _ => []

/-- `pending_table_update`, at the time `now`. -/
def pendingTableUpdate (t : PendingTable) (k : PendingKey) (state : Qos2State) (now : Int) :
    PendingTable :=
  ChainTable.update hashKey t k state now

/-- `pending_table_get`. -/
def pendingTableGet (t : PendingTable) (k : PendingKey) : Option Qos2State :=
  ChainTable.get hashKey t k

/-- `pending_table_remove`. -/
def pendingTableRemove (t : PendingTable) (k : PendingKey) : PendingTable :=
  ChainTable.remove hashKey t k

/-- `pending_table_cleanup_expired`, at the time `now`. -/
def pendingTableCleanupExpired (t : PendingTable) (now expirationSec : Int) : PendingTable :=
  ChainTable.cleanup t now expirationSec

@[simp] theorem pendingTableGet_init (k : PendingKey) : pendingTableGet pendingTableInit k = none :=
  rfl

theorem pendingTableGet_update (t : PendingTable) (k k' : PendingKey) (state : Qos2State)
    (now : Int) :
    pendingTableGet (pendingTableUpdate t k state now) k' =
      if k' = k then some state else pendingTableGet t k' :=
  ChainTable.get_update hashKey t k k' state now

@[simp] theorem pendingTableGet_update_self (t : PendingTable) (k : PendingKey)
    (state : Qos2State) (now : Int) :
    pendingTableGet (pendingTableUpdate t k state now) k = some state :=
  ChainTable.get_update_self

end SlimMQ
