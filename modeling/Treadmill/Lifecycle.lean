import Treadmill.Drain

/-! # The life of a test

`TreadmillRunner::run` (`Treadmill.h`) from its first thread to its last: it serves the RPCs,
starts the workers and the loop, waits for the loop or for `--runtime`, stops and joins the
loop, polls the workers, prints the statistics, stops the workers and joins them.

`process` is the system with the runner in it.  The runner is client `0`, the RPCs come from the
other clients, and a thread moves only after the runner has started it; so a run of the process
is a run of the system (`Process.system_run`), and what holds there holds here.  `Orderly` says
what the runner can rely on at each place (`run_is_orderly`). -/

namespace Treadmill

/-! ### The runner -/

/-- The flags that only `TreadmillRunner::run` and `Worker::run` read. -/
structure Flags where
  counterName : String := ""
  counterThreshold : Int32 := -1
  waitForTargetReady : Bool := false
  serverPort : Int32 := -1
  workerShutdownDelay : Int32 := 1

/-- The check at the head of `Worker::run` fails. -/
def Flags.refused (F : Flags) : Bool :=
  F.counterName ≠ "" && (!F.waitForTargetReady || F.counterThreshold < 0)

/-- Where the runner is. -/
inductive MainPc where
  /-- `TreadmillFB303::make_fb303`, if there is a `--server_port` -/
  | serve
  /-- in `workers[i]->run()`, before its check of the flags -/
  | checkFlags (i : ℕ)
  /-- in `workers[i]->run()`, before `isReady()` of connection `c` -/
  | isReady (i c : ℕ)
  /-- in `workers[i]->run()`, before it starts the sender thread -/
  | startWorker (i : ℕ)
  /-- `scheduler->run()` -/
  | startLoop
  /-- `folly::collectAny(futs).wait()` -/
  | wait
  /-- `scheduler->stop()` -/
  | stop
  /-- `scheduler->join()` -/
  | join
  /-- the poll of the workers, up to the print -/
  | poll (r : Runner)
  /-- the loop over `workers[i]->stop()` -/
  | stopWorkers
  /-- `workers[i]->join()` -/
  | joinWorkers (i : ℕ)
  | complete
  /-- `LOG(FATAL)` -/
  | fatal
deriving DecidableEq, Repr

/-- The call that the runner makes where it is. -/
def MainPc.call : MainPc → Option Call
  | .stop => some .stop
  | .join => some .join
  | .stopWorkers => some .stopWorkers
  | _ => none

/-- The threads of the process: the runner has started the loop if `looping`, and the senders of
the first `started` workers.  It has called `stop()` of the first `stopped` workers, and the
senders of some of them have `exited`. -/
structure Spawned where
  looping : Bool
  started : ℕ
  stopped : ℕ
  exited : ℕ → Bool

/-- The runner and the threads that it has started. -/
structure Main where
  pc : MainPc
  threads : Spawned

/-- A step of the runner that is none of a call of the scheduler's or the workers' functions. -/
inductive MainOp where
  | serve
  | checkFlags (i : ℕ)
  /-- the answer of `isReady()` of connection `c`, and the sleep if it is `false` -/
  | isReady (i c : ℕ) (b : Bool)
  | startWorker (i : ℕ)
  | startLoop
  /-- the wait ends, with the promise of the loop or with `--runtime` -/
  | wake (fulfilled : Bool)
  | poll (o : RunnerOp)
  | joinWorker (i : ℕ)

/-- A step that a thread of the server can make: it serves remote calls. -/
def Op.isRemote : Op → Bool
  | .begin (.rpc _) => true
  | .begin _ => false
  | _ => true

namespace Main

variable {ω : Type} (S : Setup) (F : Flags)

/-- The runner when it has made the scheduler and the workers. -/
def new : Main := ⟨.serve, false, 0, 0, fun _ => false⟩

/-- Go on starting workers at worker `i`. -/
def startFrom (m : Main) (i : ℕ) : Main :=
  { m with pc := if i < S.numberOfWorkers then .checkFlags i else .startLoop }

/-- Go on with `workers[i]->run()` at connection `c`. -/
def readyFrom (m : Main) (i c : ℕ) : Main :=
  { m with pc := if c < S.numberOfConnections then .isReady i c else .startWorker i }

/-- Go on joining workers at worker `i`. -/
def joinFrom (m : Main) (i : ℕ) : Main :=
  { m with pc := if i < S.numberOfWorkers then .joinWorkers i else .complete }

/-- The runner's own steps. -/
def step (m : Main) (s : System ω) (o : MainOp) : Option Main :=
  match m.pc, o with
  | .serve, .serve => some (m.startFrom S 0)
  | .checkFlags i, .checkFlags j =>
      if j = i then
        some (if F.refused then { m with pc := .fatal }
          else if F.waitForTargetReady then m.readyFrom S i 0
          else { m with pc := .startWorker i })
      else none
  | .isReady i c, .isReady j d b =>
      if j = i ∧ d = c then some (if b then m.readyFrom S i (c + 1) else m) else none
  | .startWorker i, .startWorker j =>
      if j = i then some ({ m with threads.started := i + 1 }.startFrom S (i + 1)) else none
  | .startLoop, .startLoop => some { m with pc := .wait, threads.looping := true }
  | .wait, .wake fulfilled =>
      if fulfilled → s.mem.scheduler.promiseFulfilled then some { m with pc := .stop } else none
  | .poll r, .poll o =>
      if o.reads s.mem.workers then
        (r.step S o).map fun r =>
          { m with pc := if r.pc = .printed then .stopWorkers else .poll r }
      else none
  | .joinWorkers i, .joinWorker j =>
      if j = i ∧ m.threads.exited i then some (m.joinFrom S (i + 1)) else none
  | _, _ => none

/-- The runner's steps in a call, as client `0`.  `join` returns when the loop's thread has
ended. -/
def callStep (m : Main) (s : System ω) : Op → Option Main
  | .begin c => if m.pc.call = some c then some m else none
  | .ret _ =>
      match m.pc with
      | .stop => some { m with pc := .join }
      | .join =>
          if (s.loc .loop).pc = .done then
            some { m with pc := .poll (.start S F.workerShutdownDelay) }
          else none
      | .stopWorkers => some (m.joinFrom S 0)
      | _ => none
  | .work i .stop _ => some { m with threads.stopped := i + 1 }
  | _ => some m

/-- The threads move when the runner has started them, the sender of a worker until it has
left its event loop. -/
def threadStep (m : Main) (s : System ω) : Tid → Op → Option Main
  | .loop, _ => if m.threads.looping then some m else none
  | .worker i, _ => if i < m.threads.started ∧ m.threads.exited i = false then some m else none
  | .client 0, o => m.callStep S F s o
  | .client (_ + 1), o =>
      if 0 < F.serverPort ∧ m.pc ≠ .serve ∧ o.isRemote then some m else none

end Main

/-- A state of the process. -/
structure Process (ω : Type) where
  sys : System ω
  main : Main

/-- A step of the process; a sender leaves `loopForever` some time after `terminateLoopSoon`,
between two handlers. -/
inductive ProcessOp where
  | thread (t : Tid) (o : Op)
  | main (o : MainOp)
  | exit (i : ℕ)

/-- The system with the runner in it. -/
def process {ω ρ : Type} (S : Setup) (W : Workload ω ρ) (F : Flags) :
    Lts (Process ω) ProcessOp where
  step p a :=
    if p.sys.mem.aborted ∨ p.main.pc = .fatal then none
    else
      match a with
      | .thread t o =>
          (p.main.threadStep S F p.sys t o).bind fun m =>
            ((system S W).step p.sys (t, o)).map fun s => ⟨s, m⟩
      | .main o => (p.main.step S F p.sys o).map fun m => ⟨p.sys, m⟩
      | .exit i =>
          if i < p.main.threads.stopped ∧ p.main.threads.exited i = false ∧
              p.sys.loc (.worker i) = [] then
            some ⟨p.sys, { p.main with
              threads.exited := Function.update p.main.threads.exited i true }⟩
          else none

/-- The process when the runner has made the scheduler and the workers. -/
def Process.start {ω : Type} (S : Setup) (workload : ω) (clock : ℤ) : Process ω :=
  ⟨Treadmill.start S workload clock, .new⟩

/-- What the process does to the system. -/
def ProcessOp.system : ProcessOp → History
  | .thread t o => [(t, o)]
  | .main _ | .exit _ => []

section process
variable {ω ρ : Type} {S : Setup} {W : Workload ω ρ} {F : Flags} {workload : ω} {clock : ℤ}
  {p p' : Process ω} {k : List ProcessOp}

namespace Process

theorem step_thread {t : Tid} {o : Op} : (process S W F).step p (.thread t o) = some p' ↔
    (p.sys.mem.aborted = false ∧ p.main.pc ≠ .fatal) ∧
      p.main.threadStep S F p.sys t o = some p'.main ∧
      (system S W).step p.sys (t, o) = some p'.sys := by
  simp only [process, Option.ite_none_left_eq_some, not_or, Bool.not_eq_true,
    Option.bind_eq_some_iff, Option.map_eq_some_iff]
  refine and_congr_right fun _ => ?_
  constructor
  · rintro ⟨m, hm, s, hs, rfl⟩
    exact ⟨hm, hs⟩
  · rintro ⟨hm, hs⟩
    exact ⟨_, hm, _, hs, rfl⟩

theorem step_main {o : MainOp} : (process S W F).step p (.main o) = some p' ↔
    (p.sys.mem.aborted = false ∧ p.main.pc ≠ .fatal) ∧
      p.main.step S F p.sys o = some p'.main ∧ p'.sys = p.sys := by
  simp only [process, Option.ite_none_left_eq_some, not_or, Bool.not_eq_true,
    Option.map_eq_some_iff]
  refine and_congr_right fun _ => ?_
  constructor
  · rintro ⟨m, hm, rfl⟩
    exact ⟨hm, rfl⟩
  · rintro ⟨hm, hs⟩
    refine ⟨_, hm, ?_⟩
    rw [← hs]

theorem step_exit {i : ℕ} : (process S W F).step p (.exit i) = some p' ↔
    (p.sys.mem.aborted = false ∧ p.main.pc ≠ .fatal) ∧
      (i < p.main.threads.stopped ∧ p.main.threads.exited i = false ∧
        p.sys.loc (.worker i) = []) ∧
      p' = ⟨p.sys,
        { p.main with threads.exited := Function.update p.main.threads.exited i true }⟩ := by
  simp only [process, Option.ite_none_left_eq_some, Option.ite_none_right_eq_some, not_or,
    Bool.not_eq_true, Option.some.injEq]
  exact and_congr_right fun _ => and_congr_right fun _ => eq_comm

/-- A run of the process is a run of the system. -/
theorem system_run (hr : (process S W F).run p k = some p') :
    (system S W).run p.sys (k.flatMap ProcessOp.system) = some p'.sys := by
  refine Lts.run_flatMap (m := process S W F) (system S W) Process.sys _ ?_ hr
  rintro p (⟨t, o⟩ | o | i) p' hs
  · exact (Lts.run_singleton _ _ _).trans (step_thread.mp hs).2.2
  · rw [(step_main.mp hs).2.2]
    rfl
  · rw [(step_exit.mp hs).2.2]
    rfl

end Process

/-! ### The steps of the runner -/

namespace Main

/-- What the runner does outside its calls, case by case. -/
inductive Transition (S : Setup) (F : Flags) {ω : Type} (s : System ω) (m : Main) :
    MainOp → Main → Prop
  | serve (hpc : m.pc = .serve) : Transition S F s m .serve (m.startFrom S 0)
  | refused {i : ℕ} (hpc : m.pc = .checkFlags i) (hrefused : F.refused = true) :
      Transition S F s m (.checkFlags i) { m with pc := .fatal }
  | waiting {i : ℕ} (hpc : m.pc = .checkFlags i) (hrefused : F.refused = false)
      (hwait : F.waitForTargetReady = true) :
      Transition S F s m (.checkFlags i) (m.readyFrom S i 0)
  | accepted {i : ℕ} (hpc : m.pc = .checkFlags i) (hrefused : F.refused = false)
      (hwait : F.waitForTargetReady = false) :
      Transition S F s m (.checkFlags i) { m with pc := .startWorker i }
  | ready {i c : ℕ} (hpc : m.pc = .isReady i c) :
      Transition S F s m (.isReady i c true) (m.readyFrom S i (c + 1))
  | notReady {i c : ℕ} (hpc : m.pc = .isReady i c) : Transition S F s m (.isReady i c false) m
  | startWorker {i : ℕ} (hpc : m.pc = .startWorker i) :
      Transition S F s m (.startWorker i)
        ({ m with threads.started := i + 1 }.startFrom S (i + 1))
  | startLoop (hpc : m.pc = .startLoop) :
      Transition S F s m .startLoop { m with pc := .wait, threads.looping := true }
  | wake (hpc : m.pc = .wait) {fulfilled : Bool}
      (hfulfilled : fulfilled → s.mem.scheduler.promiseFulfilled) :
      Transition S F s m (.wake fulfilled) { m with pc := .stop }
  | printed {r r' : Runner} {o : RunnerOp} (hpc : m.pc = .poll r)
      (hreads : o.reads s.mem.workers = true) (hr : r.step S o = some r')
      (hprinted : r'.pc = .printed) : Transition S F s m (.poll o) { m with pc := .stopWorkers }
  | poll {r r' : Runner} {o : RunnerOp} (hpc : m.pc = .poll r)
      (hreads : o.reads s.mem.workers = true) (hr : r.step S o = some r')
      (hprinted : r'.pc ≠ .printed) : Transition S F s m (.poll o) { m with pc := .poll r' }
  | joinWorker {i : ℕ} (hpc : m.pc = .joinWorkers i) (hexited : m.threads.exited i = true) :
      Transition S F s m (.joinWorker i) (m.joinFrom S (i + 1))

variable {S : Setup} {F : Flags} {ω : Type} {s : System ω} {m m' : Main}

/-- **The transitions are the runner's own steps.** -/
theorem step_iff {o : MainOp} : m.step S F s o = some m' ↔ Transition S F s m o m' := by
  constructor
  · intro h
    unfold step at h
    split at h <;> first | cases h; done | rename_i hpc
    · cases h
      exact .serve hpc
    · obtain ⟨rfl, h⟩ := Option.ite_none_right_eq_some.mp h
      cases h
      split_ifs with hrefused hwait
      · exact .refused hpc hrefused
      · exact .waiting hpc (Bool.eq_false_of_not_eq_true hrefused) hwait
      · exact .accepted hpc (Bool.eq_false_of_not_eq_true hrefused)
          (Bool.eq_false_of_not_eq_true hwait)
    · rename_i b
      obtain ⟨⟨rfl, rfl⟩, h⟩ := Option.ite_none_right_eq_some.mp h
      cases h
      cases b with
      | true => exact .ready hpc
      | false => exact .notReady hpc
    · obtain ⟨rfl, h⟩ := Option.ite_none_right_eq_some.mp h
      cases h
      exact .startWorker hpc
    · cases h
      exact .startLoop hpc
    · obtain ⟨hfulfilled, h⟩ := Option.ite_none_right_eq_some.mp h
      cases h
      exact .wake hpc hfulfilled
    · obtain ⟨hreads, h⟩ := Option.ite_none_right_eq_some.mp h
      obtain ⟨r', hr, rfl⟩ := Option.map_eq_some_iff.mp h
      split_ifs with hprinted
      · exact .printed hpc hreads hr hprinted
      · exact .poll hpc hreads hr hprinted
    · obtain ⟨⟨rfl, hexited⟩, h⟩ := Option.ite_none_right_eq_some.mp h
      cases h
      exact .joinWorker hpc hexited
  · intro h
    cases h with
    | wake hpc hfulfilled =>
        simp only [step, hpc]
        exact if_pos hfulfilled
    | _ hpc => simp [step, *]

/-- What a step of one of its calls does to the runner. -/
inductive Called (S : Setup) (F : Flags) {ω : Type} (s : System ω) (m : Main) : Main → Prop
  | stay : Called S F s m m
  | stop (hpc : m.pc = .stop) : Called S F s m { m with pc := .join }
  | join (hpc : m.pc = .join) (hdone : (s.loc .loop).pc = .done) :
      Called S F s m { m with pc := .poll (.start S F.workerShutdownDelay) }
  | stopWorkers (hpc : m.pc = .stopWorkers) : Called S F s m (m.joinFrom S 0)
  | stopWorker (i : ℕ) : Called S F s m { m with threads.stopped := i + 1 }

theorem called_of_callStep {o : Op} (h : m.callStep S F s o = some m') : Called S F s m m' := by
  unfold callStep at h
  split at h
  · obtain ⟨-, h⟩ := Option.ite_none_right_eq_some.mp h
    cases h
    exact .stay
  · split at h <;> first | cases h; done | rename_i hpc
    · cases h
      exact .stop hpc
    · obtain ⟨hdone, h⟩ := Option.ite_none_right_eq_some.mp h
      cases h
      exact .join hpc hdone
    · cases h
      exact .stopWorkers hpc
  · cases h
    exact .stopWorker _
  · cases h
    exact .stay

end Main

/-! ### What the runner can rely on -/

/-- The runner has started the first `i` senders. -/
structure Spawned.Starting (t : Spawned) (i : ℕ) : Prop where
  looping : t.looping = false
  started : t.started = i
  stopped : t.stopped = 0
  exited : ∀ j, t.exited j = false

/-- All threads have been started, and only senders of stopped workers have ended. -/
structure Spawned.Running (S : Setup) (t : Spawned) : Prop where
  looping : t.looping = true
  started : t.started = S.numberOfWorkers
  stopped : t.stopped ≤ S.numberOfWorkers
  exited : ∀ j, t.exited j = true → j < t.stopped

/-- Which threads run where the runner is. -/
def Main.Placed (S : Setup) (F : Flags) (m : Main) : Prop :=
  match m.pc with
  | .serve => m.threads.Starting 0
  | .checkFlags i | .isReady i _ | .startWorker i =>
      i < S.numberOfWorkers ∧ m.threads.Starting i
  | .startLoop => m.threads.Starting S.numberOfWorkers
  | .fatal => F.refused = true ∧ ∃ i < S.numberOfWorkers, m.threads.Starting i
  | .wait | .stop | .join | .poll _ => m.threads.Running S ∧ m.threads.stopped = 0
  | .stopWorkers => m.threads.Running S
  | .joinWorkers i =>
      i < S.numberOfWorkers ∧ m.threads.Running S ∧ m.threads.stopped = S.numberOfWorkers ∧
        ∀ j < i, m.threads.exited j = true
  | .complete =>
      m.threads.Running S ∧ m.threads.stopped = S.numberOfWorkers ∧
        ∀ j < S.numberOfWorkers, m.threads.exited j = true

theorem Main.placed_startFrom {m : Main} {i : ℕ} (hi : i ≤ S.numberOfWorkers)
    (hm : m.threads.Starting i) : (m.startFrom S i).Placed S F := by
  unfold startFrom
  split_ifs with hlt
  · exact ⟨hlt, hm⟩
  · obtain rfl : i = S.numberOfWorkers := by omega
    exact hm

theorem Main.placed_readyFrom {m : Main} {i : ℕ} (hi : i < S.numberOfWorkers)
    (hm : m.threads.Starting i) (c : ℕ) : (m.readyFrom S i c).Placed S F := by
  unfold readyFrom
  split_ifs <;> exact ⟨hi, hm⟩

theorem Main.placed_joinFrom {m : Main} {i : ℕ} (hm : m.threads.Running S)
    (hstopped : m.threads.stopped = S.numberOfWorkers)
    (hjoined : ∀ j < i, m.threads.exited j = true) : (m.joinFrom S i).Placed S F := by
  unfold joinFrom
  split_ifs with hlt
  · exact ⟨hlt, hm, hstopped, hjoined⟩
  · exact ⟨hm, hstopped, fun j hj => hjoined j (by omega)⟩

theorem Main.Placed.step {m m' : Main} {s : System ω} {o : MainOp} (hm : m.Placed S F)
    (h : m.step S F s o = some m') : m'.Placed S F := by
  obtain ⟨pc, t⟩ := m
  cases step_iff.mp h with
  | serve hpc =>
      cases hpc
      exact placed_startFrom (Nat.zero_le _) hm
  | refused hpc hrefused =>
      cases hpc
      obtain ⟨hi, hm⟩ := hm
      exact ⟨hrefused, _, hi, hm⟩
  | waiting hpc | ready hpc =>
      cases hpc
      obtain ⟨hi, hm⟩ := hm
      exact placed_readyFrom hi hm _
  | accepted hpc | notReady hpc | wake hpc | poll hpc =>
      cases hpc
      exact hm
  | startWorker hpc =>
      cases hpc
      obtain ⟨hi, hm⟩ := hm
      exact placed_startFrom hi ⟨hm.looping, rfl, hm.stopped, hm.exited⟩
  | startLoop hpc =>
      cases hpc
      have hnone : ∀ j, t.exited j = true → j < t.stopped := by
        intro j hj
        rw [hm.exited j] at hj
        cases hj
      exact ⟨⟨rfl, hm.started, hm.stopped ▸ Nat.zero_le _, hnone⟩, hm.stopped⟩
  | printed hpc =>
      cases hpc
      exact hm.1
  | joinWorker hpc hexit =>
      cases hpc
      obtain ⟨-, hm, hstopped, hjoined⟩ := hm
      refine placed_joinFrom hm hstopped fun j hj => ?_
      rcases Nat.lt_succ_iff_lt_or_eq.mp hj with hj | rfl
      · exact hjoined j hj
      · exact hexit

/-- How far the runner is in a call, when `state_` is `v` and it has stopped `n` workers. -/
inductive MainPc.Calling (S : Setup) (n : ℕ) (v : RunState) : MainPc → Frame → Prop
  | idle {pc : MainPc} (hpc : pc = .stopWorkers → n = 0) : Calling S n v pc .idle
  | stop (r : Response) : Calling S n v .stop ⟨some .stop, [.storeStopping], r⟩
  | stopped (hv : v = .stopping) (r : Response) : Calling S n v .stop ⟨some .stop, [], r⟩
  | join (r : Response) : Calling S n v .join ⟨some .join, [.checkStopping], r⟩
  | joining (r : Response) : Calling S n v .join ⟨some .join, [], r⟩
  | stopWorkers (r : Response) :
      Calling S n v .stopWorkers
        ⟨some .stopWorkers, ((List.range S.numberOfWorkers).map .stopWorker).drop n, r⟩

/-- The runner has printed the statistics. -/
def MainPc.printed : MainPc → Bool
  | .stopWorkers | .joinWorkers _ | .complete => true
  | _ => false

/-- The runner has joined the loop. -/
def MainPc.joined : MainPc → Bool
  | .poll _ => true
  | pc => pc.printed

/-- `StatisticsManager::get()->print()`. -/
def MainOp.isPrint : MainOp → Bool
  | .poll .print => true
  | _ => false

/-- What the end of a call of the runner says of the loop. -/
def Main.Ended (m : Main) (s : System ω) : Prop :=
  match m.pc with
  | .join => s.mem.scheduler.state = .stopping
  | .poll _ | .stopWorkers | .joinWorkers _ | .complete =>
      s.mem.scheduler.state = .stopping ∧ (s.loc .loop).pc = .done
  | _ => True

/-- What the runner can rely on. -/
structure Orderly (S : Setup) (F : Flags) (p : Process ω) : Prop where
  placed : p.main.Placed S F
  calling : p.main.pc.Calling S p.main.threads.stopped p.sys.mem.scheduler.state
    (p.sys.loc (.client 0))
  ended : p.main.Ended p.sys
  running : ∀ i < p.main.threads.stopped, (p.sys.mem.workers i).running = false
  polling : ∀ r, p.main.pc = .poll r → r.pc ≠ .printed ∧
    if 0 < F.workerShutdownDelay then
      ∃ k, Polling S F.workerShutdownDelay.toInt.toNat k p.sys.mem.workers r
    else r = ⟨.print, 0, 0⟩

theorem Frame.step_nil {c : Call} {r : Response} {f : Frame} {o : Op}
    (h : Frame.step S ⟨some c, [], r⟩ o = some f) : o = .ret r ∧ f = .idle := by
  rcases step_cases h with ⟨c', -, hc, -⟩ | ⟨c', ho, -, -, hf⟩ | ⟨c', a, todo, acts, r', -, ha, -⟩
  · cases hc
  · exact ⟨ho, hf⟩
  · cases ha

theorem Frame.step_next {c : Call} {a : Act} {todo : List Act} {r : Response} {f : Frame} {o : Op}
    (h : Frame.step S ⟨some c, a :: todo, r⟩ o = some f) :
    ∃ acts r', a.perform S r o = some (acts, r') ∧ f = ⟨some c, acts ++ todo, r'⟩ := by
  rcases step_cases h with ⟨c', -, hc, -⟩ | ⟨c', -, -, ht, -⟩ |
    ⟨c', a', todo', acts, r', hc, ha, hp, hf⟩
  · cases hc
  · cases ht
  · cases hc
    cases ha
    exact ⟨acts, r', hp, hf⟩

theorem Act.perform_stopWorker {i : ℕ} {r r' : Response} {o : Op} {acts : List Act}
    (h : (Act.stopWorker i).perform S r o = some (acts, r')) :
    o = .work i .stop false ∧ acts = [] ∧ r' = r := by
  cases o with
  | work j inp terminates =>
      cases inp with
      | stop =>
          obtain ⟨⟨rfl, rfl⟩, he⟩ := Option.ite_none_right_eq_some.mp h
          cases he
          exact ⟨rfl, rfl, rfl⟩
      | _ => cases h
  | _ => cases h

theorem MainPc.Calling.eq_idle {pc : MainPc} {n : ℕ} {v : RunState} {f : Frame}
    (hc : pc.Calling S n v f) (hpc : pc.call = none) : f = .idle := by
  cases hc with
  | idle => rfl
  | _ => cases hpc

theorem MainPc.Calling.step {m m' : Main} {s s' : System ω} {o : Op}
    (hc : m.pc.Calling S m.threads.stopped s.mem.scheduler.state (s.loc (.client 0)))
    (hm : m.Placed S F) (he : m.Ended s) (h : m.callStep S F s o = some m')
    (hs : (system S W).step s (.client 0, o) = some s') :
    m'.Placed S F ∧
      m'.pc.Calling S m'.threads.stopped s'.mem.scheduler.state (s'.loc (.client 0)) ∧
      m'.Ended s' ∧
      (∀ i < m'.threads.stopped, i < m.threads.stopped ∨ (s'.mem.workers i).running = false) ∧
      ∀ r, m'.pc = .poll r → m.pc = .poll r ∨ r = .start S F.workerShutdownDelay := by
  have hl : (s.loc (.client 0)).step S o = some (s'.loc (.client 0)) := Threads.step_loc hs
  have hloop : s'.loc .loop = s.loc .loop := Threads.step_frame hs nofun
  have hv := step_runState hs
  obtain ⟨pc, t⟩ := m
  dsimp only at hc
  generalize s.loc (.client 0) = f at hc hl
  cases hc with
  | idle hpc =>
      rcases Frame.step_cases hl with ⟨c, rfl, -, hf⟩ | ⟨c, -, hcall, -⟩ |
        ⟨c, a, todo, acts, r, hcall, -⟩
      · obtain ⟨hcall, rfl⟩ := Option.ite_none_right_eq_some.mp h |>.imp_right Option.some.inj
        obtain hv := Option.some.inj hv
        rw [hf, ← hv]
        refine ⟨hm, ?_, ?_, fun i hi => Or.inl hi, fun r hr => Or.inl hr⟩
        · cases pc <;> simp only [MainPc.call, reduceCtorEq] at hcall <;> cases hcall
          · exact .stop {}
          · exact .join {}
          · have hzero : t.stopped = 0 := hpc rfl
            have hcalling := Calling.stopWorkers (S := S) (n := t.stopped)
              (v := s.mem.scheduler.state) {}
            rwa [hzero, List.drop_zero, ← hzero] at hcalling
        · unfold Main.Ended at he ⊢
          rw [hloop, ← hv]
          exact he
      · cases hcall
      · cases hcall
  | stop r =>
      obtain ⟨acts, r', hp, hf⟩ := Frame.step_next hl
      cases o <;> simp only [Act.perform, reduceCtorEq] at hp
      cases hp
      cases h
      obtain hv := Option.some.inj hv
      rw [hf, ← hv]
      exact ⟨hm, .stopped rfl r, trivial, fun i hi => Or.inl hi, by simp⟩
  | stopped hstop r =>
      obtain ⟨rfl, hf⟩ := Frame.step_nil hl
      cases h
      obtain hv := Option.some.inj hv
      rw [hf, ← hv]
      exact ⟨hm, .idle (by simp), hv.symm.trans hstop, fun i hi => Or.inl hi, by simp⟩
  | join r =>
      obtain ⟨acts, r', hp, hf⟩ := Frame.step_next hl
      cases o <;> simp only [Act.perform, reduceCtorEq] at hp
      cases hp
      cases h
      obtain ⟨-, hv⟩ := Option.ite_none_right_eq_some.mp hv
      obtain hv := Option.some.inj hv
      rw [hf, ← hv]
      exact ⟨hm, .joining r, hv.symm.trans he, fun i hi => Or.inl hi, by simp⟩
  | joining r =>
      obtain ⟨rfl, hf⟩ := Frame.step_nil hl
      obtain ⟨hdone, h⟩ := Option.ite_none_right_eq_some.mp h
      cases h
      obtain hv := Option.some.inj hv
      rw [hf, ← hv]
      refine ⟨hm, .idle (by simp), ⟨hv.symm.trans he, hloop ▸ hdone⟩, fun i hi => Or.inl hi,
        fun r' hr' => ?_⟩
      cases hr'
      exact Or.inr rfl
  | stopWorkers r =>
      have hended : s'.mem.scheduler.state = .stopping ∧ (s'.loc .loop).pc = .done :=
        ⟨RunState.step_stopping (he.1 ▸ hv), hloop ▸ he.2⟩
      cases htodo : ((List.range S.numberOfWorkers).map Act.stopWorker).drop t.stopped with
      | nil =>
          rw [htodo] at hl
          obtain ⟨rfl, hf⟩ := Frame.step_nil hl
          cases h
          rw [hf]
          have hlen : S.numberOfWorkers ≤ t.stopped := by
            simpa using List.drop_eq_nil_iff.mp htodo
          have hall : t.stopped = S.numberOfWorkers := Nat.le_antisymm hm.stopped hlen
          refine ⟨Main.placed_joinFrom hm hall (by simp), .idle ?_, ?_, fun i hi => Or.inl hi, ?_⟩
          · unfold Main.joinFrom
            split_ifs <;> simp
          · unfold Main.joinFrom
            split_ifs <;> exact hended
          · unfold Main.joinFrom
            split_ifs <;> simp
      | cons a todo =>
          rw [htodo] at hl
          obtain ⟨acts, r', hp, hf⟩ := Frame.step_next hl
          have hlt : t.stopped < S.numberOfWorkers := by
            by_contra hge
            rw [List.drop_eq_nil_of_le (by simpa using hge)] at htodo
            cases htodo
          rw [List.drop_eq_getElem_cons (by simpa using hlt)] at htodo
          obtain ⟨ha, hrest⟩ := List.cons.inj htodo
          simp only [List.getElem_map, List.getElem_range] at ha
          subst ha
          obtain ⟨rfl, rfl, rfl⟩ := Act.perform_stopWorker hp
          cases h
          rw [hf, List.nil_append, ← hrest]
          refine ⟨⟨hm.looping, hm.started, hlt,
              fun j hj => (hm.exited j hj).trans (Nat.lt_succ_self _)⟩,
            .stopWorkers _, hended, fun i hi => ?_, by simp⟩
          rcases Nat.lt_succ_iff_lt_or_eq.mp hi with hi | rfl
          · exact Or.inl hi
          · obtain ⟨es, hstep, -⟩ := step_work hs
            have hw := congrArg Prod.fst (Option.some.inj hstep)
            exact Or.inr (congrArg Worker.running hw).symm

theorem MainPc.Calling.state {pc : MainPc} {n : ℕ} {v v' : RunState} {f : Frame}
    (hc : pc.Calling S n v f) (hv : v = .stopping → v' = .stopping) : pc.Calling S n v' f := by
  cases hc with
  | idle hpc => exact .idle hpc
  | stop r => exact .stop r
  | stopped hstop r => exact .stopped (hv hstop) r
  | join r => exact .join r
  | joining r => exact .joining r
  | stopWorkers r => exact .stopWorkers r

theorem Loop.step_done {l l' : Loop} {o : Op} (hd : l.pc = .done) (h : l.step S o = some l') :
    False := by
  cases step_iff.mp h <;> simp_all

/-- The end of the loop is final. -/
theorem Main.Ended.step {m : Main} {s s' : System ω} {t : Tid} {o : Op} (he : m.Ended s)
    (hs : (system S W).step s (t, o) = some s') : m.Ended s' := by
  have hstop : s.mem.scheduler.state = .stopping → s'.mem.scheduler.state = .stopping :=
    fun hv => RunState.step_stopping (hv ▸ step_runState hs)
  have hdone : (s.loc .loop).pc = .done → (s'.loc .loop).pc = .done := by
    intro hd
    by_cases ht : t = .loop
    · subst ht
      exact (Loop.step_done hd (Threads.step_loc hs)).elim
    · rw [Threads.step_frame hs (Ne.symm ht)]
      exact hd
  unfold Main.Ended at he ⊢
  split at he
  · exact hstop he
  · exact ⟨hstop he.1, hdone he.2⟩
  · exact ⟨hstop he.1, hdone he.2⟩
  · exact ⟨hstop he.1, hdone he.2⟩
  · exact ⟨hstop he.1, hdone he.2⟩
  · trivial

/-- A thread that is not the runner changes nothing that the runner relies on. -/
theorem Orderly.foreign {t : Tid} {o : Op} (hp : Orderly S F p)
    (hw : ∀ i, (p.sys.mem.workers i).Wf) (ht : t ≠ .client 0) (hmain : p'.main = p.main)
    (hs : (system S W).step p.sys (t, o) = some p'.sys) : Orderly S F p' where
  placed := hmain ▸ hp.placed
  calling := by
    rw [hmain, Threads.step_frame hs (Ne.symm ht)]
    exact hp.calling.state fun hv => RunState.step_stopping (hv ▸ step_runState hs)
  ended := hmain ▸ hp.ended.step hs
  running i hi := by
    rw [hmain] at hi
    rw [← Lts.run_singleton] at hs
    exact (run_stopped hs (hp.running i hi)).1
  polling r hr := by
    rw [hmain] at hr
    obtain ⟨hprinted, hpoll⟩ := hp.polling r hr
    refine ⟨hprinted, ?_⟩
    split_ifs at hpoll ⊢
    · obtain ⟨k, hk⟩ := hpoll
      exact ⟨_, hk.system hw hs⟩
    · exact hpoll

/-- What the runner's own steps leave alone, and how it goes on in the poll and after it. -/
structure Main.Keeps (S : Setup) (s : System ω) (m m' : Main) (o : MainOp) : Prop where
  call : m.pc.call = none
  looping : m.threads.looping = true → m'.threads.looping = true
  stopped : m'.threads.stopped = m.threads.stopped
  ended : m.Ended s → m'.Ended s
  printed : m'.pc.printed = (m.pc.printed || o.isPrint)
  stopWorkers : m'.pc = .stopWorkers → ∃ r, m.pc = .poll r
  poll : ∀ r', m'.pc = .poll r' → ∃ r o', m.pc = .poll r ∧ o'.reads s.mem.workers = true ∧
    r.step S o' = some r' ∧ r'.pc ≠ .printed

theorem Runner.step_printed {r r' : Runner} {o : RunnerOp} (h : r.step S o = some r') :
    (MainOp.poll o).isPrint = decide (r'.pc = .printed) := by
  unfold Runner.step at h
  split at h
  · obtain ⟨-, h⟩ := Option.ite_none_right_eq_some.mp h
    cases h
    unfold Runner.pollFrom
    split_ifs <;> rfl
  · obtain ⟨-, h⟩ := Option.ite_none_right_eq_some.mp h
    cases h
    unfold Runner.pollFrom
    split_ifs <;> rfl
  · cases h
    unfold Runner.pollFrom
    split_ifs <;> rfl
  · cases h
    rfl
  · cases h

theorem Main.step_keeps {m m' : Main} {s : System ω} {o : MainOp}
    (h : m.step S F s o = some m') : Keeps S s m m' o := by
  obtain ⟨pc, t⟩ := m
  cases step_iff.mp h with
  | printed hpc hreads hr hprinted =>
      cases hpc
      have hprint := Runner.step_printed hr
      rw [hprinted] at hprint
      exact ⟨rfl, id, rfl, id, hprint.symm, fun _ => ⟨_, rfl⟩, nofun⟩
  | poll hpc hreads hr hprinted =>
      cases hpc
      have hprint := Runner.step_printed hr
      rw [decide_eq_false hprinted] at hprint
      refine ⟨rfl, id, rfl, id, hprint.symm, nofun, fun r'' hr'' => ?_⟩
      cases hr''
      exact ⟨_, _, rfl, hreads, hr, hprinted⟩
  | joinWorker hpc =>
      cases hpc
      unfold joinFrom
      split_ifs <;> exact ⟨rfl, id, rfl, id, rfl, nofun, nofun⟩
  | startLoop hpc =>
      cases hpc
      exact ⟨rfl, fun _ => rfl, rfl, fun _ => trivial, rfl, nofun, nofun⟩
  | serve hpc | startWorker hpc =>
      cases hpc
      unfold startFrom
      split_ifs <;> exact ⟨rfl, id, rfl, fun _ => trivial, rfl, nofun, nofun⟩
  | waiting hpc | ready hpc =>
      cases hpc
      unfold readyFrom
      split_ifs <;> exact ⟨rfl, id, rfl, fun _ => trivial, rfl, nofun, nofun⟩
  | refused hpc | accepted hpc | notReady hpc | wake hpc =>
      cases hpc
      exact ⟨rfl, id, rfl, fun _ => trivial, rfl, nofun, nofun⟩

theorem Runner.start_unprinted (workerShutdownDelay : Int32) :
    (Runner.start S workerShutdownDelay).pc ≠ .printed := by
  unfold start pollFrom
  split_ifs <;> exact nofun

theorem Orderly.main {o : MainOp} (hp : Orderly S F p) (hw : ∀ i, (p.sys.mem.workers i).Wf)
    (hmain : p.main.step S F p.sys o = some p'.main) (hsys : p'.sys = p.sys) :
    Orderly S F p' := by
  obtain ⟨hcall, -, hstopped, hended, -, hpoll, hnext⟩ := Main.step_keeps hmain
  have hcalling := hp.calling
  refine ⟨hp.placed.step hmain, ?_, ?_, ?_, ?_⟩
  · -- outside its calls the runner is in none
    rw [hsys]
    rw [hp.calling.eq_idle hcall]
    refine .idle fun hpc => ?_
    obtain ⟨r, hr⟩ := hpoll hpc
    have hplaced := hp.placed
    simp only [Main.Placed, hr] at hplaced
    rw [hstopped]
    exact hplaced.2
  · rw [hsys]
    exact hended hp.ended
  · rw [hsys, hstopped]
    exact hp.running
  · intro r' hr'
    obtain ⟨r, o', hr, hreads, hs, hprinted⟩ := hnext r' hr'
    obtain ⟨-, hpoll⟩ := hp.polling r hr
    rw [hsys]
    refine ⟨hprinted, ?_⟩
    split_ifs at hpoll ⊢
    · obtain ⟨k, hk⟩ := hpoll
      exact ⟨_, hk.runner hw hreads hs⟩
    · subst hpoll
      cases o' <;> simp only [Runner.step, reduceCtorEq] at hs
      cases hs
      exact absurd rfl hprinted

theorem Orderly.exit {i : ℕ} (hp : Orderly S F p) (hi : i < p.main.threads.stopped) :
    Orderly S F ⟨p.sys, { p.main with
      threads.exited := Function.update p.main.threads.exited i true }⟩ := by
  obtain ⟨s, ⟨pc, t⟩⟩ := p
  obtain ⟨hplaced, hcalling, hended, hrunning, hpolling⟩ := hp
  have hexited : ∀ j, t.exited j = true → Function.update t.exited i true j = true := by
    intro j hj
    by_cases hji : j = i
    · rw [hji, Function.update_self]
    · rw [Function.update_of_ne hji]
      exact hj
  have hrun :
      t.Running S → Spawned.Running S { t with exited := Function.update t.exited i true } :=
    fun ht => ⟨ht.looping, ht.started, ht.stopped, fun j hj => by
      by_cases hji : j = i
      · rw [hji]
        exact hi
      · simp only [Function.update_of_ne hji] at hj
        exact ht.exited j hj⟩
  refine ⟨?_, hcalling, hended, hrunning, hpolling⟩
  · have hnone : t.stopped = 0 → False := fun hzero => by
      dsimp only at hi
      omega
    cases pc with
    | serve | startLoop => exact (hnone hplaced.stopped).elim
    | checkFlags | isReady | startWorker => exact (hnone hplaced.2.stopped).elim
    | fatal =>
        obtain ⟨-, j, -, hstarting⟩ := hplaced
        exact (hnone hstarting.stopped).elim
    | wait | stop | join | poll => exact (hnone hplaced.2).elim
    | stopWorkers => exact hrun hplaced
    | joinWorkers j =>
        obtain ⟨hj, hplaced, hstopped, hjoined⟩ := hplaced
        exact ⟨hj, hrun hplaced, hstopped, fun k hk => hexited k (hjoined k hk)⟩
    | complete => exact ⟨hrun hplaced.1, hplaced.2.1, fun k hk => hexited k (hplaced.2.2 k hk)⟩

/-- Where a run of the process has got to. -/
def Process.Reaches (S : Setup) (W : Workload ω ρ) (F : Flags) (workload : ω) (clock : ℤ)
    (k : List ProcessOp) (p : Process ω) : Prop :=
  (process S W F).run (.start S workload clock) k = some p

theorem Process.Reaches.system (hr : Process.Reaches S W F workload clock k p) :
    Treadmill.Reaches S W workload clock (k.flatMap ProcessOp.system) p.sys :=
  system_run hr

theorem Orderly.step {a : ProcessOp} {h : History} (hr : Reaches S W workload clock h p.sys)
    (hp : Orderly S F p) (hs : (process S W F).step p a = some p') : Orderly S F p' := by
  cases a with
  | thread t o =>
      obtain ⟨-, hmain, hstep⟩ := Process.step_thread.mp hs
      cases t with
      | loop =>
          obtain ⟨-, hmain⟩ := Option.ite_none_right_eq_some.mp hmain
          exact hp.foreign (t := .loop) hr.wf nofun (Option.some.inj hmain).symm hstep
      | worker i =>
          obtain ⟨-, hmain⟩ := Option.ite_none_right_eq_some.mp hmain
          exact hp.foreign (t := .worker i) hr.wf nofun (Option.some.inj hmain).symm hstep
      | client j =>
          cases j with
          | succ j =>
              obtain ⟨-, hmain⟩ := Option.ite_none_right_eq_some.mp hmain
              exact hp.foreign (t := .client (j + 1)) hr.wf nofun (Option.some.inj hmain).symm hstep
          | zero =>
              obtain ⟨hplaced, hcalling, hended, hrunning, hpoll⟩ :=
                hp.calling.step hp.placed hp.ended hmain hstep
              refine ⟨hplaced, hcalling, hended, fun i hi => ?_, fun r' hr' => ?_⟩
              · rcases hrunning i hi with hi | hi
                · rw [← Lts.run_singleton] at hstep
                  exact (run_stopped hstep (hp.running i hi)).1
                · exact hi
              · have hr'' : Reaches S W workload clock (h ++ [(.client 0, o)]) p'.sys :=
                  (Lts.run_snoc_iff _).mpr ⟨_, hr, hstep⟩
                rcases hpoll r' hr' with hr' | rfl
                · obtain ⟨hprinted, hpoll⟩ := hp.polling r' hr'
                  refine ⟨hprinted, ?_⟩
                  split_ifs at hpoll ⊢
                  · obtain ⟨k, hk⟩ := hpoll
                    exact ⟨_, hk.system hr.wf hstep⟩
                  · exact hpoll
                · refine ⟨Runner.start_unprinted _, ?_⟩
                  split_ifs with hd
                  · exact ⟨[], polling_run hr'' hd rfl⟩
                  · exact if_neg hd
  | main o =>
      obtain ⟨-, hmain, hsys⟩ := Process.step_main.mp hs
      exact hp.main hr.wf hmain hsys
  | exit i =>
      obtain ⟨-, ⟨hi, -, -⟩, rfl⟩ := Process.step_exit.mp hs
      exact hp.exit hi

theorem Main.step_isPrint {m m' : Main} {s : System ω} {o : MainOp}
    (h : m.step S F s o = some m') (ho : o.isPrint = true) : m.pc.printed = false := by
  cases step_iff.mp h with
  | printed hpc | poll hpc =>
      rw [hpc]
      rfl
  | _ => cases ho

theorem Main.callStep_keeps {m m' : Main} {s : System ω} {o : Op}
    (h : m.callStep S F s o = some m') :
    (m.threads.looping = true → m'.threads.looping = true) ∧ m'.pc.printed = m.pc.printed := by
  cases called_of_callStep h with
  | stay | stopWorker => exact ⟨id, rfl⟩
  | stop hpc | join hpc =>
      rw [hpc]
      exact ⟨id, rfl⟩
  | stopWorkers hpc =>
      rw [hpc]
      unfold joinFrom
      split_ifs <;> exact ⟨id, rfl⟩

/-- A print of the statistics. -/
def ProcessOp.isPrint : ProcessOp → Bool
  | .main o => o.isPrint
  | .thread _ _ | .exit _ => false

/-- A step of the process keeps the loop running, and only the print prints. -/
theorem Process.step_keeps {a : ProcessOp} (hs : (process S W F).step p a = some p') :
    (p.main.threads.looping = true → p'.main.threads.looping = true) ∧
      p'.main.pc.printed = (p.main.pc.printed || a.isPrint) := by
  cases a with
  | thread t o =>
      obtain ⟨-, hmain, -⟩ := step_thread.mp hs
      rw [ProcessOp.isPrint, Bool.or_false]
      cases t with
      | client j =>
          cases j with
          | zero => exact Main.callStep_keeps hmain
          | succ j =>
              obtain ⟨-, hmain⟩ := Option.ite_none_right_eq_some.mp hmain
              rw [← Option.some.inj hmain]
              exact ⟨id, rfl⟩
      | _ =>
          obtain ⟨-, hmain⟩ := Option.ite_none_right_eq_some.mp hmain
          rw [← Option.some.inj hmain]
          exact ⟨id, rfl⟩
  | main o =>
      obtain ⟨-, hmain, -⟩ := step_main.mp hs
      exact ⟨(Main.step_keeps hmain).looping, (Main.step_keeps hmain).printed⟩
  | exit i =>
      obtain ⟨-, -, rfl⟩ := step_exit.mp hs
      exact ⟨id, (Bool.or_false _).symm⟩

theorem Process.Reaches.orderly (hr : Process.Reaches S W F workload clock k p) :
    Orderly S F p := by
  refine Lts.history_induction (m := process S W F) (P := fun _ p => Orderly S F p) ?_ ?_ hr
  · exact ⟨⟨rfl, rfl, rfl, fun _ => rfl⟩, .idle nofun, trivial, nofun, nofun⟩
  · intro k p a p' hr hp hs
    exact hp.step (Process.Reaches.system hr) hs

/-- The loop's thread runs when it is at work, and the statistics are printed once. -/
theorem Process.Reaches.history (hr : Process.Reaches S W F workload clock k p) :
    (∀ o, .thread .loop o ∈ k → p.main.threads.looping = true) ∧
      k.countP ProcessOp.isPrint = if p.main.pc.printed then 1 else 0 := by
  refine Lts.history_induction (m := process S W F) (P := fun k p =>
    (∀ o, .thread .loop o ∈ k → p.main.threads.looping = true) ∧
      k.countP ProcessOp.isPrint = if p.main.pc.printed then 1 else 0) ⟨nofun, rfl⟩ ?_ hr
  rintro k p a p' hr ⟨hloop, hcount⟩ hs
  obtain ⟨hkeeps, hprinted⟩ := step_keeps hs
  constructor
  · intro o ho
    rcases List.mem_append.mp ho with ho | ho
    · exact hkeeps (hloop o ho)
    · obtain rfl := List.mem_singleton.mp ho
      obtain ⟨-, hmain, -⟩ := step_thread.mp hs
      exact hkeeps (Option.ite_none_right_eq_some.mp hmain).1
  · rw [List.countP_append, List.countP_singleton, hcount, hprinted]
    cases ha : a.isPrint with
    | false => simp
    | true =>
        -- only the poll prints, and it comes before
        have hbefore : p.main.pc.printed = false := by
          cases a with
          | main o =>
              obtain ⟨-, hmain, -⟩ := step_main.mp hs
              exact Main.step_isPrint hmain ha
          | _ => cases ha
        simp [hbefore]

/-- The operations that the runner makes in its calls. -/
def Op.isRunner : Op → Bool
  | .begin _ | .ret _ | .storeStopping | .checkStopping _ | .work _ .stop _ => true
  | _ => false

theorem MainPc.Calling.op {pc : MainPc} {n : ℕ} {v : RunState} {f f' : Frame} {o : Op}
    (hc : pc.Calling S n v f) (h : f.step S o = some f') :
    o.isRunner = true ∧ ∀ ok, o = .checkStopping ok → pc = .join := by
  cases hc with
  | idle =>
      rcases Frame.step_cases h with ⟨c, rfl, -⟩ | ⟨c, -, hcall, -⟩ |
        ⟨c, a, todo, acts, r, hcall, -⟩
      · exact ⟨rfl, by simp⟩
      · cases hcall
      · cases hcall
  | stop r =>
      obtain ⟨acts, r', hp, -⟩ := Frame.step_next h
      cases o <;> simp only [Act.perform, reduceCtorEq] at hp
      exact ⟨rfl, by simp⟩
  | stopped hstop r =>
      obtain ⟨rfl, -⟩ := Frame.step_nil h
      exact ⟨rfl, by simp⟩
  | join r =>
      obtain ⟨acts, r', hp, -⟩ := Frame.step_next h
      cases o <;> simp only [Act.perform, reduceCtorEq] at hp
      exact ⟨rfl, fun _ _ => rfl⟩
  | joining r =>
      obtain ⟨rfl, -⟩ := Frame.step_nil h
      exact ⟨rfl, by simp⟩
  | stopWorkers r =>
      cases htodo : ((List.range S.numberOfWorkers).map Act.stopWorker).drop n with
      | nil =>
          rw [htodo] at h
          obtain ⟨rfl, -⟩ := Frame.step_nil h
          exact ⟨rfl, by simp⟩
      | cons a todo =>
          rw [htodo] at h
          obtain ⟨acts, r', hp, -⟩ := Frame.step_next h
          have ha : a ∈ ((List.range S.numberOfWorkers).map Act.stopWorker).drop n :=
            htodo ▸ List.mem_cons_self
          obtain ⟨i, -, rfl⟩ := List.mem_map.mp (List.mem_of_mem_drop ha)
          obtain ⟨rfl, -, -⟩ := Act.perform_stopWorker hp
          exact ⟨rfl, by simp⟩

/-- The `CHECK` in `Scheduler::join` holds. -/
theorem Orderly.check {ok : Bool} (hp : Orderly S F p)
    (hs : (process S W F).step p (.thread (.client 0) (.checkStopping ok)) = some p') :
    ok = true := by
  obtain ⟨-, -, hs⟩ := Process.step_thread.mp hs
  have hjoin : p.main.pc = .join := (hp.calling.op (Threads.step_loc hs)).2 ok rfl
  have hended := hp.ended
  simp only [Main.Ended, hjoin] at hended
  rw [RunState.step_checkStopping (step_runState hs), hended, decide_eq_true rfl]

theorem Main.Placed.started {m : Main} (hm : m.Placed S F) (hl : m.threads.looping = true) :
    m.threads.Running S := by
  obtain ⟨pc, t⟩ := m
  have hnot : ∀ {i}, ¬ t.Starting i := fun hs => by
    rw [hs.looping] at hl
    cases hl
  cases pc with
  | serve | startLoop => exact (hnot hm).elim
  | checkFlags | isReady | startWorker => exact (hnot hm.2).elim
  | fatal =>
      obtain ⟨-, i, -, hs⟩ := hm
      exact (hnot hs).elim
  | wait | stop | join | poll => exact hm.1
  | stopWorkers => exact hm
  | joinWorkers => exact hm.2.1
  | complete => exact hm.1

/-- When the runner is through, only the server's threads can move. -/
theorem Orderly.over {a : ProcessOp} (hp : Orderly S F p) (hpc : p.main.pc = .complete)
    (hs : (process S W F).step p a = some p') : ∃ j o, a = .thread (.client (j + 1)) o := by
  obtain ⟨hplaced, hcalling, hended, -, -⟩ := hp
  simp only [Main.Placed, hpc] at hplaced
  simp only [Main.Ended, hpc] at hended
  obtain ⟨hrunning, hstopped, hexited⟩ := hplaced
  cases a with
  | thread t o =>
      obtain ⟨-, hmain, hstep⟩ := Process.step_thread.mp hs
      cases t with
      | loop => exact (Loop.step_done hended.2 (Threads.step_loc hstep)).elim
      | worker i =>
          obtain ⟨⟨hi, hnot⟩, -⟩ := Option.ite_none_right_eq_some.mp hmain
          rw [hexited i (hrunning.started ▸ hi)] at hnot
          cases hnot
      | client j =>
          cases j with
          | succ j => exact ⟨j, o, rfl⟩
          | zero =>
              have hl : (p.sys.loc (.client 0)).step S o = some (p'.sys.loc (.client 0)) :=
                Threads.step_loc hstep
              rw [hpc] at hcalling
              generalize p.sys.loc (.client 0) = f at hcalling hl
              cases hcalling
              rcases Frame.step_cases hl with ⟨c, rfl, -⟩ | ⟨c, -, hcall, -⟩ |
                ⟨c, a, todo, acts, r, hcall, -⟩
              · obtain ⟨hcall, -⟩ := Option.ite_none_right_eq_some.mp hmain
                rw [hpc] at hcall
                cases hcall
              · cases hcall
              · cases hcall
  | main o =>
      obtain ⟨-, hmain, -⟩ := Process.step_main.mp hs
      simp only [Main.step, hpc] at hmain
      cases hmain
  | exit i =>
      obtain ⟨-, ⟨hi, hnot, -⟩, -⟩ := Process.step_exit.mp hs
      rw [hexited i (hstopped ▸ hi)] at hnot
      cases hnot

/-- **A test is run in order.**  The process is a run of the system in which the loop moves only
when all senders have been started; the `CHECK` in `join` holds; once the loop is joined its
promise is fulfilled, `state_` is `STOPPING` and every queue has got its one `STOP`, and only then
are the statistics printed, once; if the last poll counted no worker, all are idle at the print;
and when the runner is through no worker runs and only the server's threads can move. -/
theorem run_is_orderly (hr : Process.Reaches S W F workload clock k p) :
    Reaches S W workload clock (k.flatMap ProcessOp.system) p.sys ∧
    (∀ o, .thread .loop o ∈ k → p.main.threads.started = S.numberOfWorkers) ∧
    .thread (.client 0) (.checkStopping false) ∉ k ∧
    (p.main.pc.joined = true →
      p.sys.mem.scheduler.promiseFulfilled = true ∧ p.sys.mem.scheduler.state = .stopping ∧
        ∀ i < S.numberOfWorkers, (puts i (k.flatMap ProcessOp.system)).count .stop = 1) ∧
    (k.countP ProcessOp.isPrint = if p.main.pc.printed then 1 else 0) ∧
    (∀ r, p.main.pc = .poll r → r.pc = .print → r.remaining = 0 → 0 < F.workerShutdownDelay →
      ∀ i < S.numberOfWorkers, (p.sys.mem.workers i).Idle) ∧
    (p.main.pc = .complete →
      (∀ i < S.numberOfWorkers, (p.sys.mem.workers i).running = false) ∧
        ∀ a p', (process S W F).step p a = some p' → ∃ j o, a = .thread (.client (j + 1)) o) := by
  have hp := hr.orderly
  obtain ⟨hloop, hcount⟩ := hr.history
  refine ⟨hr.system, fun o ho => (hp.placed.started (hloop o ho)).started, ?_, ?_, hcount, ?_, ?_⟩
  · intro hmem
    obtain ⟨k₁, k₂, rfl⟩ := List.append_of_mem hmem
    obtain ⟨q, q', hq, hs, -⟩ := Lts.run_split _ hr
    cases Orderly.check (Process.Reaches.orderly hq) hs
  · intro hjoined
    obtain ⟨hstop, hdone⟩ : p.sys.mem.scheduler.state = .stopping ∧
        (p.sys.loc .loop).pc = .done := by
      have hended := hp.ended
      unfold Main.Ended at hended
      cases hpc : p.main.pc <;> rw [hpc] at hjoined hended <;> first | exact hended | cases hjoined
    exact ⟨hr.system.promise hdone, hstop, fun i hi => (hr.system.stops hdone hi).1⟩
  · intro r hpc hprint hzero hd i hi
    obtain ⟨-, hpoll⟩ := hp.polling r hpc
    rw [if_pos hd] at hpoll
    obtain ⟨k, hk⟩ := hpoll
    refine hk.idle hzero i ?_
    rw [hprint]
    exact hi
  · intro hpc
    refine ⟨fun i hi => hp.running i ?_, fun a p' => hp.over hpc⟩
    have hplaced := hp.placed
    simp only [Main.Placed, hpc] at hplaced
    rw [hplaced.2.1]
    exact hi

/-- The life of a test with one worker, which `--runtime` ends before the first request. -/
def wholeTest : List ProcessOp :=
  [.main .serve, .main (.checkFlags 0), .main (.startWorker 0), .main .startLoop] ++
    opening.map (fun a => .thread a.1 a.2) ++
    [.main (.wake false), .thread (.client 0) (.begin .stop), .thread (.client 0) .storeStopping,
      .thread (.client 0) (.ret {}), .thread .loop (.loadState .stopping),
      .thread .loop (.loadState .stopping), .thread .loop (.loadState .stopping),
      .thread .loop (.putMessage 0 .stop), .thread .loop .setValue,
      .thread (.client 0) (.begin .join), .thread (.client 0) (.checkStopping true),
      .thread (.client 0) (.ret {}), .thread (.worker 0) (.work 0 (.message .reset {}) false),
      .thread (.worker 0) (.work 0 (.message .stop {}) false), .main (.poll (.running 0 false)),
      .main (.poll (.outstandingRequests 0 0)), .main (.poll .print),
      .thread (.client 0) (.begin .stopWorkers), .thread (.client 0) (.work 0 .stop false),
      .thread (.client 0) (.ret {}), .exit 0, .main (.joinWorker 0)]

theorem run_is_orderly_wholeTest :
    ∃ p, Process.Reaches (defaults 1) constantWorkload {} () 1 wholeTest p ∧
      p.main.pc = .complete ∧ (p.sys.mem.workers 0).running = false ∧
      wholeTest.countP ProcessOp.isPrint = 1 := by
  have hrun : ((process (defaults 1) constantWorkload {}).run (.start (defaults 1) () 1)
      wholeTest).any (fun p => decide (p.main.pc = .complete)) = true := by
    decide +kernel
  obtain ⟨p, hr, hpc⟩ := (Option.any_eq_true _ _).mp hrun
  have hpc := of_decide_eq_true hpc
  obtain ⟨-, -, -, -, hcount, -, hover⟩ := run_is_orderly hr
  rw [hpc] at hcount
  exact ⟨p, hr, hpc, (hover hpc).1 0 Nat.one_pos, hcount⟩

end process

end Treadmill
