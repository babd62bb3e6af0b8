import Mathlib.Data.List.AList
import Mathlib.Logic.Function.Basic
import Treadmill.Lib.SharedMutex
import Treadmill.Worker

/-! # The shared memory

The members of `Scheduler`, `TreadmillFB303` and the workers that more than one thread
reaches, and the atomic operations on them.  An operation (`Op`) carries the value it
reads, so a history of operations determines the memory; `Memory.access` is `none` when
the memory does not hold the value that the operation claims to read, when a lock is not
free, or when the process has aborted on a failed `CHECK`.

Threads (`Tid`) are the scheduler's loop, the clients (any thread that calls a function of
`Call`: a service thread with an RPC, or the runner) and the senders of the workers. -/

namespace Treadmill

/-- The flags that the modelled functions read, and the parse function
`folly::tryTo<uint32_t>` (`none` for an error). -/
structure Setup where
  waitForRunnerReady : Bool := false
  requireConfigurationOnResume : Bool := false
  enableWatchdogTimer : Bool := false
  numberOfWorkers : ℕ := 1
  numberOfConnections : ℕ := 4
  requestPerSecond : Int32 := 1024
  maxOutstandingRequests : Int32 := 1000
  tryTo : String → Option UInt32

/-- `max_outstanding_requests_per_worker` of `TreadmillRunner`. -/
def Setup.maxOutstandingRequestsPerWorker (S : Setup) : Int32 :=
  Int32.ofInt (S.maxOutstandingRequests.toInt.tdiv S.numberOfWorkers)

/-- The threads of the process. -/
inductive Tid where
  | loop
  | client (k : ℕ)
  | worker (i : ℕ)
deriving DecidableEq, Repr

/-! ### The operations -/

/-- The remote procedure calls of `TreadmillService`; a `resume2` without a request is
`none`. -/
inductive Rpc where
  | pause
  | resume
  | resume2 (req : Option String)
  | setRps (rps : Int32)
  | setMaxOutstanding (maxOutstanding : Int32)
  | getRate
  | getConfiguration (key : String)
  | setConfiguration (key value : String)
  | clearConfiguration
deriving DecidableEq, Repr

/-- What a client thread may call: the public functions of `Scheduler`, the RPCs, and the
runner's loop that stops the workers. -/
inductive Call where
  | pause
  | resume
  | isRunning
  | setPhase (phaseName : String)
  | getMaxOutstandingRequests
  | setMaxOutstandingRequests (maxOutstanding : Int32)
  | stop
  | join
  | getRps
  | setRps (rps : Int32)
  | rpc (r : Rpc)
  | stopWorkers
deriving DecidableEq, Repr

/-- What a call returns: a `bool` or the fields of a `RateResponse`, or a string. -/
structure Response where
  flag : Option Bool := none
  rps : Option Int32 := none
  maxOutstanding : Option Int32 := none
  value : Option String := none
deriving DecidableEq, Repr

/-- `Scheduler::RunState`. -/
inductive RunState where
  | running
  | paused
  | stopping
deriving DecidableEq, Repr

/-- One atomic operation of a thread, with what it reads or draws. -/
inductive Op where
  | begin (c : Call)
  | ret (r : Response)
  /-- a read of `state_` -/
  | loadState (v : RunState)
  /-- `compare_exchange_strong` from `RUNNING` to `PAUSED`, and whether it took effect -/
  | casPaused (took : Bool)
  /-- `compare_exchange_strong` from `PAUSED` to `RUNNING`, and whether it took effect -/
  | casRunning (took : Bool)
  /-- `state_.store(STOPPING)` -/
  | storeStopping
  /-- `CHECK_EQ(state_, PAUSED)`, and whether it held -/
  | checkPaused (ok : Bool)
  /-- `CHECK(state_ == STOPPING)`, and whether it held -/
  | checkStopping (ok : Bool)
  | loadRps (v : UInt32)
  | storeRps (v : UInt32)
  | loadMaxOutstandingRequests (v : UInt32)
  | storeMaxOutstandingRequests (v : UInt32)
  /-- `queues_[i].putMessage(e)` -/
  | putMessage (i : ℕ) (e : Event)
  /-- `queues_[i].size()` -/
  | size (i n : ℕ)
  /-- `promise_.setValue` -/
  | setValue
  /-- a reading of `nowNs()` -/
  | nowNs (t : ℤ)
  /-- `randomExponentialInterval(mean)`, where `x` is the `-log` that was drawn -/
  | draw (mean : ℤ) (x : ℚ)
  /-- `watchdogUpdate()` at this reading of `fb_time_seconds()` -/
  | watchdogUpdate (now : ℤ)
  /-- `watchdogDurationSec_ = 0` -/
  | disarmWatchdog
  | lockShared
  | unlockShared
  | lock
  | unlock
  /-- `configuration_->empty()` -/
  | configurationEmpty (b : Bool)
  | getConfiguration (key value : String)
  | insertOrAssign (key value : String)
  /-- the assignment to `watchdogDurationSec_` in `setConfiguration` -/
  | armWatchdog (key value : String)
  | clearConfiguration
  /-- the handler of an input on worker `i`, and whether it called `terminate_early_fn_` -/
  | work (i : ℕ) (inp : Worker.Input) (terminates : Bool)
deriving Repr

/-! ### The members of `Scheduler` -/

/-- The shared members of `Scheduler`; `queues` are the messages not yet consumed. -/
structure Scheduler where
  state : RunState
  rps : UInt32
  maxOutstandingRequests : UInt32
  queues : ℕ → List Event
  promiseFulfilled : Bool

namespace Scheduler

/-- `Scheduler::Scheduler` as the runner calls it. -/
def new (S : Setup) : Scheduler where
  state := if S.waitForRunnerReady then .paused else .running
  rps := S.requestPerSecond.toUInt32
  maxOutstandingRequests := S.maxOutstandingRequests.toUInt32
  queues := fun _ => []
  promiseFulfilled := false

/-- `putMessage` on queue `i`, which must exist. -/
def putMessage (S : Setup) (s : Scheduler) (i : ℕ) (e : Event) : Option Scheduler :=
  if i < S.numberOfWorkers then
    some { s with queues := Function.update s.queues i (s.queues i ++ [e]) }
  else none

/-- The consumer of queue `i` takes the message `e` from its front. -/
def takeMessage (s : Scheduler) (i : ℕ) (e : Event) : Option Scheduler :=
  if (s.queues i).head? = some e then
    some { s with queues := Function.update s.queues i (s.queues i).tail }
  else none

/-- The effect of an operation on the members of `Scheduler`. -/
def access (S : Setup) (s : Scheduler) : Op → Option Scheduler
  | .loadState v => if s.state = v then some s else none
  | .casPaused took =>
      if took = decide (s.state = .running) then
        some (if took then { s with state := .paused } else s)
      else none
  | .casRunning took =>
      if took = decide (s.state = .paused) then
        some (if took then { s with state := .running } else s)
      else none
  | .storeStopping => some { s with state := .stopping }
  | .checkPaused ok => if ok = decide (s.state = .paused) then some s else none
  | .checkStopping ok => if ok = decide (s.state = .stopping) then some s else none
  | .loadRps v => if s.rps = v then some s else none
  | .storeRps v => some { s with rps := v }
  | .loadMaxOutstandingRequests v => if s.maxOutstandingRequests = v then some s else none
  | .storeMaxOutstandingRequests v => some { s with maxOutstandingRequests := v }
  | .putMessage i e => s.putMessage S i e
  | .size i n => if (s.queues i).length = n then some s else none
  | .setValue => some { s with promiseFulfilled := true }
  | .work i (.message e _) _ => s.takeMessage i e
  | _ => some s

end Scheduler

/-! ### The members of `TreadmillFB303` -/

/-- The members of `TreadmillFB303` that its remote calls read or write. -/
structure TreadmillFB303 where
  mutex : SharedMutex Tid
  configuration : AList fun _ : String => String
  watchdogDurationSec : UInt32
  lastHeartbeat : ℤ

namespace TreadmillFB303

/-- `TreadmillFB303::TreadmillFB303`. -/
def new : TreadmillFB303 := ⟨.free, ∅, 0, 0⟩

/-- `TreadmillFB303::watchdogUpdate`. -/
def watchdogUpdate (S : Setup) (f : TreadmillFB303) (now : ℤ) : TreadmillFB303 :=
  if S.enableWatchdogTimer ∧ 0 < f.watchdogDurationSec then { f with lastHeartbeat := now }
  else f

/-- `TreadmillFB303::watchdogTimeoutCheck`: the result at this reading of the clock. -/
def watchdogTimeoutCheck (S : Setup) (f : TreadmillFB303) (now : ℤ) : Bool :=
  if S.enableWatchdogTimer ∧ 0 < f.watchdogDurationSec then
    decide (f.lastHeartbeat < now - f.watchdogDurationSec.toNat)
  else false

/-- The assignment to `watchdogDurationSec_` in `TreadmillFB303::setConfiguration`; a value
that does not parse disables the watchdog. -/
def armWatchdog (S : Setup) (f : TreadmillFB303) (key value : String) : TreadmillFB303 :=
  if S.enableWatchdogTimer ∧ key = "watchdog_sec" then
    { f with watchdogDurationSec := (S.tryTo value).getD 0 }
  else f

/-- The effect of an operation of thread `i` on the members of `TreadmillFB303`. -/
def access (S : Setup) (i : Tid) (f : TreadmillFB303) : Op → Option TreadmillFB303
  | .watchdogUpdate now => some (f.watchdogUpdate S now)
  | .disarmWatchdog => some { f with watchdogDurationSec := 0 }
  | .lockShared => (f.mutex.lockShared i).map fun l => { f with mutex := l }
  | .unlockShared => (f.mutex.unlockShared i).map fun l => { f with mutex := l }
  | .lock => (f.mutex.lock i).map fun l => { f with mutex := l }
  | .unlock => (f.mutex.unlock i).map fun l => { f with mutex := l }
  | .configurationEmpty b =>
      if b = f.configuration.entries.isEmpty then some f else none
  | .getConfiguration key value =>
      if value = (f.configuration.lookup key).getD "" then some f else none
  | .insertOrAssign key value =>
      some { f with configuration := f.configuration.insert key value }
  | .armWatchdog key value => some (f.armWatchdog S key value)
  | .clearConfiguration => some { f with configuration := ∅ }
  | _ => some f

end TreadmillFB303

/-- The operations that take or release `mutex_`. -/
def Op.isLock : Op → Bool
  | .lockShared | .unlockShared | .lock | .unlock => true
  | _ => false

/-- What an operation does to the configuration. -/
def Op.configuration (c : AList fun _ : String => String) : Op → AList fun _ : String => String
  | .insertOrAssign key value => c.insert key value
  | .clearConfiguration => ∅
  | _ => c

/-- What an operation does to `watchdogDurationSec_`. -/
def Op.duration (S : Setup) (d : UInt32) : Op → UInt32
  | .disarmWatchdog => 0
  | .armWatchdog key value =>
      if S.enableWatchdogTimer ∧ key = "watchdog_sec" then (S.tryTo value).getD 0 else d
  | _ => d

namespace TreadmillFB303

/-- What an operation of thread `i` does to each member. -/
structure Accessed (S : Setup) (i : Tid) (o : Op) (f f' : TreadmillFB303) : Prop where
  mutex : SharedMutex.Other f.mutex f'.mutex i
  mutex_eq : o.isLock = false → f'.mutex = f.mutex
  configuration : f'.configuration = o.configuration f.configuration
  watchdogDurationSec : f'.watchdogDurationSec = o.duration S f.watchdogDurationSec
  lastHeartbeat : f'.lastHeartbeat = f.lastHeartbeat ∨
    ∃ now, o = .watchdogUpdate now ∧ f'.lastHeartbeat = now

theorem access_spec {S : Setup} {i : Tid} {f f' : TreadmillFB303} {o : Op}
    (h : f.access S i o = some f') : Accessed S i o f f' := by
  cases o with
  | watchdogUpdate now =>
      cases h
      unfold watchdogUpdate
      split_ifs
      · exact ⟨Or.inl rfl, fun _ => rfl, rfl, rfl, Or.inr ⟨now, rfl, rfl⟩⟩
      · exact ⟨Or.inl rfl, fun _ => rfl, rfl, rfl, Or.inl rfl⟩
  | armWatchdog key value =>
      cases h
      unfold armWatchdog
      split_ifs with harm
      · exact ⟨Or.inl rfl, fun _ => rfl, rfl, (if_pos harm).symm, Or.inl rfl⟩
      · exact ⟨Or.inl rfl, fun _ => rfl, rfl, (if_neg harm).symm, Or.inl rfl⟩
  | lockShared =>
      obtain ⟨l, hl, rfl⟩ := Option.map_eq_some_iff.mp h
      exact ⟨Or.inr (Or.inl hl), by simp [Op.isLock], rfl, rfl, Or.inl rfl⟩
  | unlockShared =>
      obtain ⟨l, hl, rfl⟩ := Option.map_eq_some_iff.mp h
      exact ⟨Or.inr (Or.inr (Or.inl hl)), by simp [Op.isLock], rfl, rfl, Or.inl rfl⟩
  | lock =>
      obtain ⟨l, hl, rfl⟩ := Option.map_eq_some_iff.mp h
      exact ⟨Or.inr (Or.inr (Or.inr (Or.inl hl))), by simp [Op.isLock], rfl, rfl, Or.inl rfl⟩
  | unlock =>
      obtain ⟨l, hl, rfl⟩ := Option.map_eq_some_iff.mp h
      exact ⟨Or.inr (Or.inr (Or.inr (Or.inr hl))), by simp [Op.isLock], rfl, rfl, Or.inl rfl⟩
  | configurationEmpty b =>
      obtain ⟨-, he⟩ := Option.ite_none_right_eq_some.mp h
      cases he
      exact ⟨Or.inl rfl, fun _ => rfl, rfl, rfl, Or.inl rfl⟩
  | getConfiguration key value =>
      obtain ⟨-, he⟩ := Option.ite_none_right_eq_some.mp h
      cases he
      exact ⟨Or.inl rfl, fun _ => rfl, rfl, rfl, Or.inl rfl⟩
  | _ =>
      cases h
      exact ⟨Or.inl rfl, fun _ => rfl, rfl, rfl, Or.inl rfl⟩

end TreadmillFB303

/-! ### The whole memory -/

/-- Everything the threads share; `clock` is the last reading of `nowNs()`. -/
structure Memory (ω : Type) where
  scheduler : Scheduler
  fb303 : TreadmillFB303
  workers : ℕ → Worker ω
  clock : ℤ
  aborted : Bool

namespace Memory

variable {ω ρ : Type}

/-- A worker handles its input; the operation says whether it called
`terminate_early_fn_`. -/
def work (W : Workload ω ρ) (workers : ℕ → Worker ω) (i : ℕ) (inp : Worker.Input)
    (terminates : Bool) : Option (ℕ → Worker ω) :=
  ((workers i).step W inp).bind fun (w, es) =>
    if terminates = es.any (fun | .terminateEarly => true | _ => false) then
      some (Function.update workers i w)
    else none

/-- The effect of an operation on the workers. -/
def accessWorkers (W : Workload ω ρ) (workers : ℕ → Worker ω) :
    Op → Option (ℕ → Worker ω)
  | .work i inp terminates => work W workers i inp terminates
  | _ => some workers

/-- The clock does not go back and does not read zero. -/
def accessClock (clock : ℤ) : Op → Option ℤ
  | .nowNs t => if clock ≤ t ∧ t ≠ 0 then some t else none
  | _ => some clock

/-- A failed `CHECK` ends the process. -/
def fails : Op → Bool
  | .checkPaused ok => !ok
  | .checkStopping ok => !ok
  | _ => false

/-- The memory after an operation of thread `i`. -/
def access (S : Setup) (W : Workload ω ρ) (i : Tid) (m : Memory ω) (o : Op) :
    Option (Memory ω) :=
  if m.aborted then none
  else
    (m.scheduler.access S o).bind fun scheduler =>
      (m.fb303.access S i o).bind fun fb303 =>
        (accessWorkers W m.workers o).bind fun workers =>
          (accessClock m.clock o).map fun clock =>
            ⟨scheduler, fb303, workers, clock, fails o⟩

section access
variable {S : Setup} {W : Workload ω ρ} {i : Tid} {m m' : Memory ω} {o : Op}

/-- An operation acts on each part of the memory on its own. -/
theorem access_iff : m.access S W i o = some m' ↔
    m.aborted = false ∧ m.scheduler.access S o = some m'.scheduler ∧
      m.fb303.access S i o = some m'.fb303 ∧ accessWorkers W m.workers o = some m'.workers ∧
      accessClock m.clock o = some m'.clock ∧ m'.aborted = fails o := by
  unfold access
  cases ha : m.aborted with
  | true => simp
  | false =>
      simp only [Bool.false_eq_true, ↓reduceIte, Option.bind_eq_some_iff,
        Option.map_eq_some_iff, true_and]
      constructor
      · rintro ⟨s, hs, f, hf, w, hw, c, hc, rfl⟩
        exact ⟨hs, hf, hw, hc, rfl⟩
      · rintro ⟨hs, hf, hw, hc, hx⟩
        refine ⟨_, hs, _, hf, _, hw, _, hc, ?_⟩
        cases m'
        simp only at hx
        rw [hx]

end access

end Memory

end Treadmill
