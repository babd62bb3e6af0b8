import Mathlib.Data.Nat.Notation
import Mathlib.Data.Int.Notation

/-! # Events

The messages on a worker's queue (`Event.h`): a type and, for two of the types, extra data
in a `folly::dynamic`.  Of the dynamic values, only those this program puts in an event
are modelled: `nullptr`, an `int64` and a string. -/

namespace Treadmill

/-- `EventType`. -/
inductive EventType where
  | stop
  | reset
  | sendRequest
  /-- Sets the phase of the test, which is stored as string in `extraData`. -/
  | setPhase
  /-- Sets the max outstanding requests in the worker. -/
  | setMaxOutstanding
deriving DecidableEq, Repr

/-- The values of `folly::dynamic` that events carry. -/
inductive Dynamic where
  | null
  | int (i : Int64)
  | string (s : String)
deriving DecidableEq, Repr

/-- `Event`: the extra data default to `nullptr`. -/
structure Event where
  eventType : EventType
  extraData : Dynamic := .null
deriving DecidableEq, Repr

namespace Event

/-- `Event(EventType::RESET)`. -/
def reset : Event := ⟨.reset, .null⟩

/-- `Event(EventType::SEND_REQUEST)`. -/
def sendRequest : Event := ⟨.sendRequest, .null⟩

/-- `Event(EventType::STOP)`. -/
def stop : Event := ⟨.stop, .null⟩

/-- `Event(EventType::SET_PHASE, phase_name)`. -/
def setPhase (phaseName : String) : Event := ⟨.setPhase, .string phaseName⟩

/-- `Event(EventType::SET_MAX_OUTSTANDING, max_outstanding_requests_)`: the `uint32_t`
member becomes the `int64_t` of the dynamic. -/
def setMaxOutstanding (v : UInt32) : Event := ⟨.setMaxOutstanding, .int v.toUInt64.toInt64⟩

end Event

/-- An `int32_t` survives the `uint32_t` member, the `int64_t` dynamic and the `int32_t`
parameter. -/
theorem int32_round_trip (m : Int32) : m.toUInt32.toUInt64.toInt64.toInt32 = m := by
  apply Int32.toBitVec_inj.mp
  rw [Int64.toBitVec_toInt32, UInt64.toBitVec_toInt64, UInt32.toBitVec_toUInt64,
    Int32.toBitVec_toUInt32, BitVec.signExtend_eq_setWidth_of_le _ (by decide),
    BitVec.setWidth_setWidth_of_le _ (by decide), BitVec.setWidth_eq]

end Treadmill
