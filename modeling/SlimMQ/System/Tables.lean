import SlimMQ.Broker.PendingTable
import SlimMQ.Client.Qos2Table

/-!
# The two QoS 2 tables

`pending_table.c` and `qos2_table.c` are the same chained table over different keys, sizes and
states. Each behaves as a finite map: the broker's from all bytes of an address and a message id,
the client's from a message id alone, whatever keys share a bucket and whatever the clock says.

## Main definitions

* `pendingTableStep`, `qos2TableStep`: a call of one of a table's functions

## Main results

* `qos2Tables_refine_maps`: every sequence of calls on either table is one on a map
-/

namespace SlimMQ

open EventLoop

/-- A call of a function of `pending_table.c`; `pending_table_get` answers. -/
def pendingTableStep (t : PendingTable) :
    TableCall PendingKey Qos2State → Result PendingTable (Option Qos2State)
  | .update k state now => .ok (pendingTableUpdate t k state now) []
  | .get k => .ok t [pendingTableGet t k]
  | .remove k => .ok (pendingTableRemove t k) []
  | .cleanup now expirationSec => .ok (pendingTableCleanupExpired t now expirationSec) []

/-- A call of a function of `qos2_table.c`; `qos2_table_get_state` answers, with
`QOS2_CLIENT_STATE_NONE` for a message that has no entry. -/
def qos2TableStep (t : Qos2Table) :
    TableCall UInt32 Qos2ClientState → Result Qos2Table Qos2ClientState
  | .update msgId state now => .ok (qos2TableSet t msgId state now) []
  | .get msgId => .ok t [qos2TableGetState t msgId]
  | .remove msgId => .ok (qos2TableRemove t msgId) []
  | .cleanup now expirationSec => .ok (qos2TableCleanupExpired t now expirationSec) []

theorem pendingTableStep_eq : pendingTableStep = ChainTable.step hashKey id := by
  funext t c
  cases c <;> rfl

theorem qos2TableStep_eq :
    qos2TableStep = ChainTable.step hashMsgId fun state => state.getD .none := by
  funext t c
  cases c <;> rfl

/-- **Both tables are finite maps**, along every sequence of calls from the table that the init
function leaves. -/
theorem qos2Tables_refine_maps :
    (∀ calls, ChainTable.RefinesMap hashKey id pendingTableStep pendingTableInit calls) ∧
      ∀ calls, ChainTable.RefinesMap hashMsgId (fun state => state.getD .none) qos2TableStep
        qos2TableInit calls := by
  constructor
  · intro calls
    rw [pendingTableStep_eq]
    exact ChainTable.refinesMap hashKey id calls
  · intro calls
    rw [qos2TableStep_eq]
    exact ChainTable.refinesMap hashMsgId _ calls

/-- Three messages in one bucket, of which the second is removed and the first expires. -/
example : (run qos2TableStep qos2TableInit [.update 1 .waitReceived 0, .update 257 .completed 5,
    .update 513 .completed 5, .remove 257, .cleanup 9 8, .get 1, .get 257, .get 513]).outputs =
    [.none, .none, .completed] := by
  decide +kernel

end SlimMQ
