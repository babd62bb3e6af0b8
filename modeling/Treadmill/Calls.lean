import Treadmill.Memory

/-! # The calls of client threads

The functions a client thread calls, as lists of the atomic steps (`Act`) they make:
the public functions of `Scheduler` (`Scheduler.cpp`), the handlers of `TreadmillFB303`
(`TreadmillFB303.cpp`) and the runner's loop over `Worker::stop`.  A step that decides
what comes next (`messageMax`, `gate`) is replaced by the steps it leads to when it is
made.

A `Frame` is a thread between `begin` and `ret` of one call: the steps still to do and
the response so far. -/

namespace Treadmill

/-- A step that a call still has to make. -/
inductive Act where
  | casPaused
  | casRunning
  /-- `state_ == RUNNING`, the result of the call -/
  | readRunning
  | storeStopping
  | checkPaused
  | checkStopping
  | readRps
  | storeRps (rps : Int32)
  | readMaxOutstandingRequests
  | storeMaxOutstandingRequests (maxOutstanding : Int32)
  /-- read `max_outstanding_requests_` and put it on every queue -/
  | messageMax
  | putMessage (i : ℕ) (e : Event)
  | watchdogUpdate
  | disarmWatchdog
  | lockShared
  | unlockShared
  | lock
  | unlock
  /-- refuse to resume without a configuration -/
  | gate
  | getConfiguration (key : String)
  | insertOrAssign (key value : String)
  | armWatchdog (key value : String)
  | clearConfiguration
  | stopWorker (i : ℕ)
deriving Repr

/-! ### `Scheduler` -/

namespace Scheduler

/-- `Scheduler::messageAllWorkers`. -/
def messageAllWorkers (S : Setup) (event : Event) : List Act :=
  (List.range S.numberOfWorkers).map fun i => .putMessage i event

/-- `Scheduler::pause`. -/
def pause : List Act := [.casPaused]

/-- `Scheduler::resume`. -/
def resume : List Act := [.casRunning, .readRunning]

/-- `Scheduler::isRunning`. -/
def isRunning : List Act := [.readRunning]

/-- `Scheduler::setPhase`. -/
def setPhase (S : Setup) (phaseName : String) : List Act :=
  (if S.waitForRunnerReady then [.checkPaused] else []) ++
    messageAllWorkers S (Event.setPhase phaseName)

theorem forall_messageAllWorkers {P : Act → Prop} {S : Setup} {event : Event}
    (hput : ∀ i, P (.putMessage i event)) : ∀ a ∈ messageAllWorkers S event, P a := by
  intro a ha
  obtain ⟨i, -, rfl⟩ := List.mem_map.mp ha
  exact hput i

theorem forall_setPhase {P : Act → Prop} {S : Setup} {phaseName : String}
    (hcheck : P .checkPaused) (hput : ∀ i, P (.putMessage i (Event.setPhase phaseName))) :
    ∀ a ∈ setPhase S phaseName, P a := by
  intro a ha
  rcases List.mem_append.mp ha with ha | ha
  · split_ifs at ha
    · obtain rfl := List.mem_singleton.mp ha
      exact hcheck
    · cases ha
  · exact forall_messageAllWorkers hput a ha

/-- `Scheduler::getMaxOutstandingRequests`. -/
def getMaxOutstandingRequests : List Act := [.readMaxOutstandingRequests]

/-- `Scheduler::setMaxOutstandingRequests`. -/
def setMaxOutstandingRequests (maxOutstanding : Int32) : List Act :=
  [.storeMaxOutstandingRequests maxOutstanding, .messageMax]

/-- `Scheduler::stop`. -/
def stop : List Act := [.storeStopping]

/-- `Scheduler::join`, up to the wait for the thread. -/
def join : List Act := [.checkStopping]

/-- `Scheduler::getRps`. -/
def getRps : List Act := [.readRps]

/-- `Scheduler::setRps`. -/
def setRps (rps : Int32) : List Act := [.storeRps rps]

end Scheduler

/-! ### `TreadmillFB303` -/

namespace TreadmillFB303

/-- `TreadmillFB303::pause`. -/
def pause : List Act := Scheduler.pause ++ [.disarmWatchdog]

/-- `TreadmillFB303::resume`. -/
def resume (S : Setup) : List Act :=
  [.watchdogUpdate, .lockShared] ++
    (if S.requireConfigurationOnResume then [.gate] else Scheduler.resume) ++ [.unlockShared]

/-- `TreadmillFB303::future_resume2`. -/
def futureResume2 (S : Setup) (req : Option String) : List Act :=
  [.watchdogUpdate] ++ Scheduler.setPhase S (req.getD "UNKNOWN_PHASE") ++ Scheduler.resume

/-- `TreadmillFB303::setRps`. -/
def setRps (rps : Int32) : List Act := .watchdogUpdate :: Scheduler.setRps rps

/-- `TreadmillFB303::setMaxOutstanding`. -/
def setMaxOutstanding (maxOutstanding : Int32) : List Act :=
  .watchdogUpdate :: Scheduler.setMaxOutstandingRequests maxOutstanding

/-- `TreadmillFB303::future_getRate`. -/
def futureGetRate : List Act :=
  Scheduler.isRunning ++ Scheduler.getRps ++ Scheduler.getMaxOutstandingRequests

/-- `TreadmillFB303::future_getConfiguration`. -/
def futureGetConfiguration (key : String) : List Act :=
  [.watchdogUpdate, .lockShared, .getConfiguration key, .unlockShared]

/-- `TreadmillFB303::setConfiguration`. -/
def setConfiguration (key value : String) : List Act :=
  [.watchdogUpdate, .lock, .insertOrAssign key value, .armWatchdog key value, .unlock]

/-- `TreadmillFB303::clearConfiguration`. -/
def clearConfiguration : List Act := [.watchdogUpdate, .lock, .clearConfiguration, .unlock]

end TreadmillFB303

/-- The handler of an RPC. -/
def Rpc.body (S : Setup) : Rpc → List Act
  | .pause => TreadmillFB303.pause
  | .resume => TreadmillFB303.resume S
  | .resume2 req => TreadmillFB303.futureResume2 S req
  | .setRps rps => TreadmillFB303.setRps rps
  | .setMaxOutstanding maxOutstanding => TreadmillFB303.setMaxOutstanding maxOutstanding
  | .getRate => TreadmillFB303.futureGetRate
  | .getConfiguration key => TreadmillFB303.futureGetConfiguration key
  | .setConfiguration key value => TreadmillFB303.setConfiguration key value
  | .clearConfiguration => TreadmillFB303.clearConfiguration

/-- The steps of a call. -/
def Call.body (S : Setup) : Call → List Act
  | .pause => Scheduler.pause
  | .resume => Scheduler.resume
  | .isRunning => Scheduler.isRunning
  | .setPhase phaseName => Scheduler.setPhase S phaseName
  | .getMaxOutstandingRequests => Scheduler.getMaxOutstandingRequests
  | .setMaxOutstandingRequests maxOutstanding =>
      Scheduler.setMaxOutstandingRequests maxOutstanding
  | .stop => Scheduler.stop
  | .join => Scheduler.join
  | .getRps => Scheduler.getRps
  | .setRps rps => Scheduler.setRps rps
  | .rpc r => r.body S
  | .stopWorkers => (List.range S.numberOfWorkers).map .stopWorker

/-! ### Making the steps -/

/-- What becomes of a step and the response when it is made by the operation `o`: the steps
that take its place. -/
def Act.perform (S : Setup) (r : Response) : Act → Op → Option (List Act × Response)
  | .casPaused, .casPaused _ => some ([], r)
  | .casRunning, .casRunning _ => some ([], r)
  | .readRunning, .loadState v => some ([], { r with flag := some (decide (v = .running)) })
  | .storeStopping, .storeStopping => some ([], r)
  | .checkPaused, .checkPaused _ => some ([], r)
  | .checkStopping, .checkStopping _ => some ([], r)
  | .readRps, .loadRps v => some ([], { r with rps := some v.toInt32 })
  | .storeRps rps, .storeRps v => if v = rps.toUInt32 then some ([], r) else none
  | .readMaxOutstandingRequests, .loadMaxOutstandingRequests v =>
      some ([], { r with maxOutstanding := some v.toInt32 })
  | .storeMaxOutstandingRequests maxOutstanding, .storeMaxOutstandingRequests v =>
      if v = maxOutstanding.toUInt32 then some ([], r) else none
  | .messageMax, .loadMaxOutstandingRequests v =>
      some (Scheduler.messageAllWorkers S (Event.setMaxOutstanding v), r)
  | .putMessage i e, .putMessage j e' => if j = i ∧ e' = e then some ([], r) else none
  | .watchdogUpdate, .watchdogUpdate _ => some ([], r)
  | .disarmWatchdog, .disarmWatchdog => some ([], { r with flag := some true })
  | .lockShared, .lockShared => some ([], r)
  | .unlockShared, .unlockShared => some ([], r)
  | .lock, .lock => some ([], r)
  | .unlock, .unlock => some ([], r)
  | .gate, .configurationEmpty b =>
      if b then some ([], { r with flag := some false }) else some (Scheduler.resume, r)
  | .getConfiguration key, .getConfiguration key' value =>
      if key' = key then some ([], { r with value := some value }) else none
  | .insertOrAssign key value, .insertOrAssign key' value' =>
      if key' = key ∧ value' = value then some ([], r) else none
  | .armWatchdog key value, .armWatchdog key' value' =>
      if key' = key ∧ value' = value then some ([], r) else none
  | .clearConfiguration, .clearConfiguration => some ([], r)
  | .stopWorker i, .work j .stop terminates =>
      if j = i ∧ terminates = false then some ([], r) else none
  | _, _ => none

/-- Where a client thread is: in no call, or in a call with these steps left. -/
structure Frame where
  call : Option Call
  todo : List Act
  response : Response
deriving Repr

namespace Frame

/-- A thread that is in no call. -/
def idle : Frame := ⟨none, [], {}⟩

/-- The control of a client thread. -/
def step (S : Setup) (f : Frame) (o : Op) : Option Frame :=
  match f.call, f.todo, o with
  | none, _, .begin c => some ⟨some c, c.body S, {}⟩
  | some _, [], .ret r => if r = f.response then some idle else none
  | some c, a :: todo, o =>
      (a.perform S f.response o).map fun (acts, r) => ⟨some c, acts ++ todo, r⟩
  | _, _, _ => none

/-- What a step of a client thread can do: it begins a call, returns from one, or makes the
next step of the call it is in. -/
theorem step_cases {S : Setup} {f f' : Frame} {o : Op} (h : f.step S o = some f') :
    (∃ c, o = .begin c ∧ f.call = none ∧ f' = ⟨some c, c.body S, {}⟩) ∨
    (∃ c, o = .ret f.response ∧ f.call = some c ∧ f.todo = [] ∧ f' = idle) ∨
    (∃ c a todo acts r, f.call = some c ∧ f.todo = a :: todo ∧
      a.perform S f.response o = some (acts, r) ∧ f' = ⟨some c, acts ++ todo, r⟩) := by
  obtain ⟨call, todo, r⟩ := f
  unfold step at h
  split at h
  · rename_i c hcall
    cases h
    exact Or.inl ⟨c, rfl, hcall, rfl⟩
  · rename_i c r' hcall htodo
    split_ifs at h with hr
    cases h
    subst hr
    exact Or.inr (Or.inl ⟨c, rfl, hcall, htodo, rfl⟩)
  · rename_i c a todo' hcall htodo
    obtain ⟨⟨acts, r'⟩, hp, rfl⟩ := Option.map_eq_some_iff.mp h
    exact Or.inr (Or.inr ⟨c, a, todo', acts, r', hcall, htodo, hp, rfl⟩)
  · cases h

end Frame

end Treadmill
