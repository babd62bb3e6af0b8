import Treadmill.Calls
import Treadmill.Lib.Threads
import Treadmill.Loop

/-! # The system

The threads of a load test over the shared memory: the scheduler's loop, any number of
client threads, and the sender thread of each worker, which handles one message or one
completion at a time and calls `Scheduler::stop` when the workload ends the run. -/

namespace Treadmill

/-- The control of a thread: the loop's own, the call a client is in, or the steps a sender
still has to make for `terminate_early_fn_`. -/
abbrev Control : Tid → Type
  | .loop => Loop
  | .client _ => Frame
  | .worker _ => List Act

/-- The control of the sender thread of worker `i`. -/
def senderStep (i : ℕ) (todo : List Act) (o : Op) : Option (List Act) :=
  match todo, o with
  | [], .work j (.message _ _) terminates =>
      if j = i then some (if terminates then Scheduler.stop else []) else none
  | [], .work j (.completion _) _ => if j = i then some [] else none
  | .storeStopping :: todo, .storeStopping => some todo
  | _, _ => none

-- Derived after the functions that match on operations: a case split on those would otherwise
-- decide statements about every `UInt32`.
deriving instance DecidableEq for Op

variable {ω ρ : Type} (S : Setup) (W : Workload ω ρ)

/-- The threads of the program. -/
def program : Threads Tid Control (Memory ω) Op where
  access := Memory.access S W
  thread
    | .loop => Loop.step S
    | .client _ => Frame.step S
    | .worker i => senderStep i

/-- A history of the system: who did what, oldest first. -/
abbrev History := List (Tid × Op)

/-- A state of the system. -/
abbrev System (ω : Type) := Threads.State Control (Memory ω)

/-- The interleavings of the program. -/
abbrev system : Lts (System ω) (Tid × Op) := (program S W).lts

/-- The system when the runner has made the scheduler and started the workers: every worker
has the workload `workload`, and the clock reads `clock`. -/
def start (workload : ω) (clock : ℤ) : System ω where
  mem :=
    { scheduler := .new S
      fb303 := .new
      workers := fun _ =>
        .start S.numberOfWorkers S.numberOfConnections S.maxOutstandingRequestsPerWorker
          workload clock
      clock := clock
      aborted := false }
  loc
    | .loop => .new S
    | .client _ => .idle
    | .worker _ => []

/-! ### A small instance -/

/-- What `folly::tryTo<uint32_t>` does with a string without blanks. -/
def decimal (s : String) : Option UInt32 :=
  let digits := s.toList
  let k : ℕ := digits.foldl (fun k c => 10 * k + (c.toNat - 48)) 0
  if digits ≠ [] ∧ digits.all Char.isDigit ∧ k < 2 ^ 32 then some k.toUInt32 else none

/-- The flags at their defaults, and `n` workers. -/
def defaults (n : ℕ) : Setup := { numberOfWorkers := n, tryTo := decimal }

/-- The workload that always has the same request. -/
def constantWorkload : Workload Unit Unit := ⟨id, fun _ _ => (some (), ())⟩

/-- The loop of one worker up to its first check of `state_`. -/
def opening : History :=
  [(.loop, .putMessage 0 .reset), (.loop, .loadRps 1024), (.loop, .draw 976562 0)]

/-- One round of that loop, which puts a request on a queue that had `n - 1` messages. -/
def round (n : ℕ) : History :=
  [(.loop, .loadState .running), (.loop, .nowNs 1), (.loop, .nowNs 1), (.loop, .nowNs 1),
    (.loop, .nowNs 1), (.loop, .draw 976562 0), (.loop, .putMessage 0 .sendRequest),
    (.loop, .size 0 n), (.loop, .loadRps 1024)]

end Treadmill
