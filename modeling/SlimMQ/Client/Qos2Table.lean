import SlimMQ.Library.ChainTable
import Mathlib.Data.Nat.Notation

/-!
# The client's QoS 2 table

The table of `qos2_table.c`, in which the listener records the broker's control messages and the
publisher looks for them: a chained hash table keyed by the message id. Nothing calls
`qos2_table_cleanup_expired`.
-/

namespace SlimMQ

/-- `qos2_client_state_t`. -/
inductive Qos2ClientState
  | none
  | waitReceived
  | waitComplete
  | completed
  deriving DecidableEq

abbrev qos2TableSize : ℕ := 256

/-- The table of `qos2_table.c`. -/
abbrev Qos2Table := ChainTable qos2TableSize UInt32 Qos2ClientState

/-- `hash_msg_id`. -/
def hashMsgId (msgId : UInt32) : Fin qos2TableSize :=
  ⟨msgId.toNat % qos2TableSize, Nat.mod_lt _ (by decide)⟩

/-- `qos2_table_init`. -/
def qos2TableInit : Qos2Table := fun _ => []

/-- `qos2_table_destroy`. -/
def qos2TableDestroy : Qos2Table := fun _ => []

/-- `qos2_table_set`, at the time `now`. -/
def qos2TableSet (t : Qos2Table) (msgId : UInt32) (state : Qos2ClientState) (now : Int) :
    Qos2Table :=
  ChainTable.update hashMsgId t msgId state now

/-- `qos2_table_get_state`. -/
def qos2TableGetState (t : Qos2Table) (msgId : UInt32) : Qos2ClientState :=
  (ChainTable.get hashMsgId t msgId).getD .none

/-- `qos2_table_remove`. -/
def qos2TableRemove (t : Qos2Table) (msgId : UInt32) : Qos2Table :=
  ChainTable.remove hashMsgId t msgId

/-- `qos2_table_cleanup_expired`, at the time `now`. -/
def qos2TableCleanupExpired (t : Qos2Table) (now expirationSec : Int) : Qos2Table :=
  ChainTable.cleanup t now expirationSec

@[simp] theorem qos2TableGetState_init (msgId : UInt32) :
    qos2TableGetState qos2TableInit msgId = .none := rfl

@[simp] theorem qos2TableGetState_destroy (msgId : UInt32) :
    qos2TableGetState qos2TableDestroy msgId = .none := rfl

theorem qos2TableGetState_set (t : Qos2Table) (msgId msgId' : UInt32) (state : Qos2ClientState)
    (now : Int) :
    qos2TableGetState (qos2TableSet t msgId state now) msgId' =
      if msgId' = msgId then state else qos2TableGetState t msgId' := by
  unfold qos2TableGetState qos2TableSet
  rw [ChainTable.get_update]
  split_ifs <;> rfl

/-- A removal needs a valid table: a second entry of the message would come to light. -/
theorem qos2TableGetState_remove {t : Qos2Table} (h : ChainTable.Valid hashMsgId t)
    (msgId msgId' : UInt32) :
    qos2TableGetState (qos2TableRemove t msgId) msgId' =
      if msgId' = msgId then .none else qos2TableGetState t msgId' := by
  unfold qos2TableGetState qos2TableRemove
  rw [ChainTable.get_remove h]
  split_ifs <;> rfl

/-- The table holds this state for a message, in some entry. -/
def Qos2Table.Holds (t : Qos2Table) (msgId : UInt32) (state : Qos2ClientState) : Prop :=
  ∃ e : ChainEntry UInt32 Qos2ClientState, ChainTable.Mem e t ∧ e.key = msgId ∧ e.state = state

variable {t : Qos2Table} {id id' : UInt32} {s s' : Qos2ClientState} {now : Int}

theorem not_holds_qos2TableInit : ¬ Qos2Table.Holds qos2TableInit id s := by
  rintro ⟨e, ⟨i, hi⟩, -⟩
  cases hi

theorem holds_of_qos2TableGetState (h : qos2TableGetState t id = s) (hs : s ≠ .none) :
    t.Holds id s := by
  unfold qos2TableGetState at h
  cases hg : ChainTable.get hashMsgId t id with
  | none =>
    rw [hg] at h
    exact absurd h.symm hs
  | some s' =>
    rw [hg] at h
    obtain rfl : s' = s := h
    exact ChainTable.exists_mem_of_get hg

theorem Qos2Table.Holds.of_set (h : (qos2TableSet t id s now).Holds id' s') :
    t.Holds id' s' ∨ id' = id ∧ s' = s := by
  obtain ⟨e, he, rfl, rfl⟩ := h
  exact (ChainTable.mem_of_mem_update he).imp_left fun he => ⟨e, he, rfl, rfl⟩

theorem Qos2Table.Holds.of_remove (h : (qos2TableRemove t id).Holds id' s') : t.Holds id' s' := by
  obtain ⟨e, he, rfl, rfl⟩ := h
  exact ⟨e, ChainTable.mem_of_mem_remove he, rfl, rfl⟩

end SlimMQ
