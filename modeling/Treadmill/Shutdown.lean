import Treadmill.Delivery

/-! # The shutdown of the runner

The part of `TreadmillRunner::run` between the join of the scheduler and
`StatisticsManager::print`: at most `worker_shutdown_delay` times the runner asks every worker
in turn whether it has more work, and sleeps a second if one has.

The runner (`Runner`) goes its own way beside the system, which may take any step between two
of its reads; `hasMoreWork` is two reads, of `running_` and then of `outstanding_requests_`.
Before `print` only a worker's own thread clears its `running_`, at the end of a handler, so a
handler is one step here too.

Everything rests on one fact about a worker: once idle it is idle for ever, whatever it is
given (`Worker.Idle.step`), so workers that were idle when they were asked are idle together
at the end of the poll. -/

namespace Treadmill

/-! ### Idle workers -/

namespace Worker

variable {ω ρ : Type} {W : Workload ω ρ} {w w' : Worker ω} {es : List (Effect ρ)}

/-- Not running, and waiting for no reply. -/
structure Idle (w : Worker ω) : Prop where
  running : w.running = false
  outstandingRequests : w.outstandingRequests = 0

theorem Idle.maySend (hi : w.Idle) : w.maySend = false := by
  rw [Worker.maySend, hi.running, Bool.and_false]

theorem Idle.keeps (hi : w.Idle) (hw : w'.Wf) (hk : Keeps w w' es) : w'.Idle where
  running := hk.running.trans hi.running
  outstandingRequests := by
    have h1 := hk.outstandingRequests
    have h2 := hw.outstandingRequests
    rw [hi.outstandingRequests] at h1
    omega

/-- **Idle once, idle for ever.**  No handler wakes an idle worker, and none sends. -/
theorem Idle.step {inp : Input} (hi : w.Idle) (hw : w.Wf) (h : w.step W inp = some (w', es)) :
    w'.Idle ∧ w'.sent = w.sent ∧ ∀ e ∈ es, e.isSend = false := by
  have hw' := step_wf hw h
  have hmay := hi.maySend
  rcases step_cases h with ⟨env, workload, request, w₁, es₁, es₂, hm, -⟩ | ⟨workload, hm, -⟩ |
    ⟨t, he⟩ | ⟨c, hc⟩ | hc
  · rw [hmay] at hm
    cases hm
  · rw [hmay] at hm
    cases hm
  · have hk := estimate_keeps he
    exact ⟨hi.keeps hw' hk, hk.sent, fun e he => (hk.quiet e he).2.1⟩
  · have hk := complete_keeps hc
    exact ⟨hi.keeps hw' hk, hk.sent, fun e he => (hk.quiet e he).2.1⟩
  · have hrun : w'.running = false := by
      by_contra hrun
      have := hc.running (by simpa using hrun)
      rw [hi.running] at this
      cases this
    refine ⟨⟨hrun, hc.outstandingRequests.trans hi.outstandingRequests⟩, hc.sent, ?_⟩
    intro e he
    rcases hc.effects with rfl | rfl | rfl
    · cases he
    · obtain rfl := List.mem_singleton.mp he
      rfl
    · obtain rfl := List.mem_singleton.mp he
      rfl

theorem Idle.run {ins : List Input} (hi : w.Idle) (hw : w.Wf)
    (hr : (lts W).run (w, []) ins = some (w', es)) :
    w'.Idle ∧ w'.sent = w.sent ∧ ∀ e ∈ es, e.isSend = false := by
  have hinv := Lts.invariant (m := lts W) (P := fun s : Worker ω × List (Effect ρ) =>
    s.1.Wf ∧ s.1.Idle ∧ s.1.sent = w.sent ∧ ∀ e ∈ s.2, e.isSend = false) ?_
    ⟨hw, hi, rfl, by simp⟩ hr
  · exact hinv.2
  · rintro ⟨u, l⟩ inp ⟨u', l'⟩ ⟨hu, hui, hsent, hl⟩ hs
    obtain ⟨⟨u'', es''⟩, hstep, he⟩ := Option.map_eq_some_iff.mp hs
    cases he
    obtain ⟨hi', hsent', hes⟩ := hui.step hu hstep
    refine ⟨step_wf hu hstep, hi', hsent'.trans hsent, fun e he => ?_⟩
    rcases List.mem_append.mp he with he | he
    · exact hl e he
    · exact hes e he

end Worker

/-! ### The workers of the system -/

section workers
variable {ω ρ : Type} {S : Setup} {W : Workload ω ρ} {workload : ω} {clock : ℤ}
  {h : History} {s s' : System ω} {t : Tid} {o : Op}

theorem step_wf (hw : ∀ i, (s.mem.workers i).Wf) (hs : (system S W).step s (t, o) = some s') :
    ∀ i, (s'.mem.workers i).Wf := by
  intro i
  rcases step_worker hs i with ⟨inp, es, -, hstep⟩ | ⟨-, he⟩
  · exact Worker.step_wf (hw i) hstep
  · rw [he]
    exact hw i

theorem Reaches.wf (hr : Reaches S W workload clock h s) : ∀ i, (s.mem.workers i).Wf :=
  Lts.invariant (P := fun s : System ω => ∀ i, (s.mem.workers i).Wf)
    (fun _ _ _ hw hs => step_wf hw hs) (fun _ => Worker.start_wf _ _ _ _ _) hr

theorem step_idle {i : ℕ} (hw : (s.mem.workers i).Wf) (hi : (s.mem.workers i).Idle)
    (hs : (system S W).step s (t, o) = some s') : (s'.mem.workers i).Idle := by
  rcases step_worker hs i with ⟨inp, es, -, hstep⟩ | ⟨-, he⟩
  · exact (hi.step hw hstep).1
  · rw [he]
    exact hi

end workers

/-! ### The runner -/

/-- Where the runner is in its shutdown. -/
inductive RunnerPc where
  /-- in the poll, before the read of `running_` of worker `i` -/
  | readRunning (i : ℕ)
  /-- in the poll, before the read of `outstanding_requests_` of worker `i` -/
  | readOutstanding (i : ℕ)
  /-- `sleep(1)` and `--secondsToWait` -/
  | sleep
  /-- before `StatisticsManager::get()->print()` -/
  | print
  | printed
deriving DecidableEq, Repr

/-- The runner and its locals `remaining` and `secondsToWait`. -/
structure Runner where
  pc : RunnerPc
  remaining : ℕ
  secondsToWait : UInt64
deriving DecidableEq, Repr

/-- A step of the runner, with what it reads of a worker. -/
inductive RunnerOp where
  | running (i : ℕ) (b : Bool)
  | outstandingRequests (i : ℕ) (n : ℤ)
  | sleep
  | print
deriving DecidableEq, Repr

namespace Runner

/-- Go on polling at worker `i`; after the last one, sleep if a worker has more work. -/
def pollFrom (S : Setup) (r : Runner) (i : ℕ) : Runner :=
  { r with
    pc :=
      if i < S.numberOfWorkers then .readRunning i
      else if 0 < r.remaining then .sleep else .print }

/-- The runner after the scheduler is joined; the `int32` flag becomes a `size_t`. -/
def start (S : Setup) (workerShutdownDelay : Int32) : Runner :=
  if 0 < workerShutdownDelay then
    pollFrom S ⟨.readRunning 0, 0, workerShutdownDelay.toInt64.toUInt64⟩ 0
  else ⟨.print, 0, 0⟩

/-- The control of the runner. -/
def step (S : Setup) (r : Runner) (o : RunnerOp) : Option Runner :=
  match r.pc, o with
  | .readRunning i, .running j b =>
      if j = i then
        some (if b then pollFrom S { r with remaining := r.remaining + 1 } (i + 1)
          else { r with pc := .readOutstanding i })
      else none
  | .readOutstanding i, .outstandingRequests j n =>
      if j = i then
        some (pollFrom S (if 0 < n then { r with remaining := r.remaining + 1 } else r) (i + 1))
      else none
  | .sleep, .sleep =>
      let secondsToWait := r.secondsToWait - 1
      some (if 0 < secondsToWait then pollFrom S ⟨.readRunning 0, 0, secondsToWait⟩ 0
        else ⟨.print, r.remaining, secondsToWait⟩)
  | .print, .print => some { r with pc := .printed }
  | _, _ => none

end Runner

/-- What the runner reads is what the workers hold. -/
def RunnerOp.reads {ω : Type} (workers : ℕ → Worker ω) : RunnerOp → Bool
  | .running i b => b = (workers i).running
  | .outstandingRequests i n => n = (workers i).outstandingRequests
  | .sleep | .print => true

/-- A step of the system, or one of the runner. -/
abbrev ShutdownOp := (Tid × Op) ⊕ RunnerOp

/-- The system with the runner beside it. -/
def shutdown {ω ρ : Type} (S : Setup) (W : Workload ω ρ) : Lts (System ω × Runner) ShutdownOp where
  step s
    | .inl a => ((system S W).step s.1 a).map fun s' => (s', s.2)
    | .inr o =>
        if o.reads s.1.mem.workers then (s.2.step S o).map fun r => (s.1, r) else none

def ShutdownOp.isSleep : ShutdownOp → Bool
  | .inr .sleep => true
  | .inl _ | .inr (.running _ _) | .inr (.outstandingRequests _ _) | .inr .print => false

/-- How often the runner slept. -/
def sleeps (h : List ShutdownOp) : ℕ := h.countP ShutdownOp.isSleep

namespace RunnerPc

/-- The workers of which the current poll has asked: all before this one. -/
def polled (n : ℕ) : RunnerPc → ℕ
  | .readRunning i | .readOutstanding i => i
  | .sleep | .print | .printed => n

/-- The loop is not over. -/
def isPolling : RunnerPc → Bool
  | .readRunning _ | .readOutstanding _ | .sleep => true
  | .print | .printed => false

end RunnerPc

/-! ### The poll -/

section poll
variable {ω ρ : Type} {S : Setup} {W : Workload ω ρ} {workload : ω} {clock : ℤ}
  {h : History} {s s' : System ω} {r r' : Runner} {d : ℕ} {k : List ShutdownOp}

/-- What the runner knows of the workers, when its delay is `d` seconds. -/
structure Polling (S : Setup) (d : ℕ) (k : List ShutdownOp) (workers : ℕ → Worker ω)
    (r : Runner) : Prop where
  seconds : sleeps k + r.secondsToWait.toNat = d
  isPolling : r.pc.isPolling = true → 0 < r.secondsToWait
  stopped : ∀ i, r.pc = .readOutstanding i → (workers i).running = false
  idle : r.remaining = 0 → ∀ j < r.pc.polled S.numberOfWorkers, (workers j).Idle

theorem polling_pollFrom {workers : ℕ → Worker ω} {i : ℕ}
    (hseconds : sleeps k + r.secondsToWait.toNat = d) (hpos : 0 < r.secondsToWait)
    (hidle : r.remaining = 0 → ∀ j < i, (workers j).Idle) :
    Polling S d k workers (r.pollFrom S i) where
  seconds := hseconds
  isPolling _ := hpos
  stopped j hj := by
    simp only [Runner.pollFrom] at hj
    split_ifs at hj
  idle hr j hj := by
    simp only [Runner.pollFrom, RunnerPc.polled] at hr hj
    apply hidle hr
    split_ifs at hj <;> simp only at hj <;> omega

theorem sleeps_snoc (k : List ShutdownOp) (a : ShutdownOp) :
    sleeps (k ++ [a]) = sleeps k + if a.isSleep then 1 else 0 := by
  rw [sleeps, List.countP_append, List.countP_singleton]
  rfl

theorem Polling.system {a : Tid × Op} (hp : Polling S d k s.mem.workers r)
    (hw : ∀ i, (s.mem.workers i).Wf) (hs : (system S W).step s a = some s') :
    Polling S d (k ++ [.inl a]) s'.mem.workers r where
  seconds := by
    rw [sleeps_snoc]
    exact hp.seconds
  isPolling := hp.isPolling
  stopped i hi := by
    rw [← Lts.run_singleton] at hs
    exact (run_stopped hs (hp.stopped i hi)).1
  idle hr j hj := step_idle (hw j) (hp.idle hr j hj) hs

section runner
variable {workers : ℕ → Worker ω} {i remaining : ℕ} {secondsToWait : UInt64}

theorem Polling.running {b : Bool} (hp : Polling S d k workers ⟨.readRunning i, remaining,
      secondsToWait⟩) (hb : b = (workers i).running) :
    Polling S d (k ++ [.inr (.running i b)]) workers
      (if b then Runner.pollFrom S ⟨.readRunning i, remaining + 1, secondsToWait⟩ (i + 1)
        else ⟨.readOutstanding i, remaining, secondsToWait⟩) := by
  have hseconds : sleeps (k ++ [.inr (.running i b)]) + secondsToWait.toNat = d := by
    rw [sleeps_snoc]
    exact hp.seconds
  split_ifs with hrun
  · exact polling_pollFrom hseconds (hp.isPolling rfl) (by simp)
  · refine ⟨hseconds, fun _ => hp.isPolling rfl, ?_, hp.idle⟩
    intro i' hi'
    cases hi'
    rw [← hb]
    simpa using hrun

theorem Polling.outstandingRequests {n : ℤ} (hp : Polling S d k workers ⟨.readOutstanding i,
      remaining, secondsToWait⟩) (hw : (workers i).Wf) (hn : n = (workers i).outstandingRequests) :
    Polling S d (k ++ [.inr (.outstandingRequests i n)]) workers
      (Runner.pollFrom S ⟨.readOutstanding i, if 0 < n then remaining + 1 else remaining,
        secondsToWait⟩ (i + 1)) := by
  have hseconds : sleeps (k ++ [.inr (.outstandingRequests i n)]) + secondsToWait.toNat = d := by
    rw [sleeps_snoc]
    exact hp.seconds
  refine polling_pollFrom hseconds (hp.isPolling rfl) ?_
  intro hr j hj
  by_cases hpos : 0 < n
  · rw [if_pos hpos] at hr
    cases hr
  · rw [if_neg hpos] at hr
    have hji : j < i ∨ j = i := by omega
    rcases hji with hji | rfl
    · exact hp.idle hr j hji
    · -- `running_` was false when it was read, and has been since
      have hlen := hw.outstandingRequests
      exact ⟨hp.stopped j rfl, by omega⟩

theorem Polling.sleep (hp : Polling S d k workers ⟨.sleep, remaining, secondsToWait⟩) :
    Polling S d (k ++ [.inr .sleep]) workers
      (if 0 < secondsToWait - 1 then Runner.pollFrom S ⟨.readRunning 0, 0, secondsToWait - 1⟩ 0
        else ⟨.print, remaining, secondsToWait - 1⟩) := by
  have hpos : 0 < secondsToWait.toNat := UInt64.lt_iff_toNat_lt.mp (hp.isPolling rfl)
  have hsub : (secondsToWait - 1).toNat = secondsToWait.toNat - 1 := by
    rw [UInt64.toNat_sub_of_le]
    · rfl
    · exact UInt64.le_iff_toNat_le.mpr hpos
  have hseconds : sleeps (k ++ [.inr .sleep]) + (secondsToWait - 1).toNat = d := by
    have := hp.seconds
    simp only at this
    rw [sleeps_snoc, hsub]
    simp only [ShutdownOp.isSleep, ↓reduceIte]
    omega
  split_ifs with hmore
  · exact polling_pollFrom hseconds hmore (by simp)
  · refine ⟨hseconds, ?_, ?_, hp.idle⟩
    · intro h
      cases h
    · intro i hi
      cases hi

end runner

theorem Polling.runner {o : RunnerOp} {workers : ℕ → Worker ω} (hp : Polling S d k workers r)
    (hw : ∀ i, (workers i).Wf) (hreads : o.reads workers = true)
    (hs : r.step S o = some r') : Polling S d (k ++ [.inr o]) workers r' := by
  obtain ⟨pc, remaining, secondsToWait⟩ := r
  cases pc with
  | readRunning i =>
      cases o with
      | running j b =>
          simp only [Runner.step, Option.ite_none_right_eq_some] at hs
          obtain ⟨rfl, hs⟩ := hs
          cases hs
          exact hp.running (by simpa [RunnerOp.reads] using hreads)
      | _ => cases hs
  | readOutstanding i =>
      cases o with
      | outstandingRequests j n =>
          simp only [Runner.step, Option.ite_none_right_eq_some] at hs
          obtain ⟨rfl, hs⟩ := hs
          cases hs
          have hp' := hp.outstandingRequests (hw j) (by simpa [RunnerOp.reads] using hreads)
          split_ifs at hp' ⊢ <;> exact hp'
      | _ => cases hs
  | sleep =>
      cases o with
      | sleep =>
          cases hs
          exact hp.sleep
      | _ => cases hs
  | print =>
      cases o with
      | print =>
          cases hs
          refine ⟨?_, ?_, ?_, hp.idle⟩
          · rw [sleeps_snoc]
            exact hp.seconds
          · intro h
            cases h
          · intro i hi
            cases hi
      | _ => cases hs
  | printed => cases hs

/-! ### Runs -/

/-- The steps of the system in a shutdown. -/
def ShutdownOp.system : ShutdownOp → History
  | .inl a => [a]
  | .inr _ => []

/-- The system does not notice the runner. -/
theorem shutdown_system (hk : (shutdown S W).run (s, r) k = some (s', r')) :
    (system S W).run s (k.flatMap ShutdownOp.system) = some s' := by
  refine Lts.run_flatMap (shutdown S W) (system S W) Prod.fst ShutdownOp.system ?_ hk
  rintro ⟨s, r⟩ a t hs
  cases a with
  | inl a =>
      obtain ⟨s', hs', rfl⟩ := Option.map_eq_some_iff.mp hs
      rw [ShutdownOp.system, Lts.run_singleton]
      exact hs'
  | inr o =>
      obtain ⟨-, hs⟩ := Option.ite_none_right_eq_some.mp hs
      obtain ⟨r', -, rfl⟩ := Option.map_eq_some_iff.mp hs
      rfl

theorem polling_run {workerShutdownDelay : Int32} (hr : Reaches S W workload clock h s)
    (hd : 0 < workerShutdownDelay)
    (hk : (shutdown S W).run (s, .start S workerShutdownDelay) k = some (s', r')) :
    Polling S workerShutdownDelay.toInt.toNat k s'.mem.workers r' := by
  have hd' : 0 < workerShutdownDelay.toInt := Int32.lt_iff_toInt_lt.mp hd
  have hnat : workerShutdownDelay.toInt64.toUInt64.toNat = workerShutdownDelay.toInt.toNat := by
    rw [Int64.toNat_toUInt64_of_le]
    · rw [Int64.toNatClampNeg, Int32.toInt_toInt64]
    · rw [Int64.le_iff_toInt_le, Int32.toInt_toInt64]
      exact hd'.le
  refine Lts.history_induction (m := shutdown S W) (P := fun k (u : System ω × Runner) =>
    Polling S workerShutdownDelay.toInt.toNat k u.1.mem.workers u.2) ?_ ?_ hk
  · rw [Runner.start, if_pos hd]
    refine polling_pollFrom ?_ ?_ (by simp)
    · simpa [sleeps] using hnat
    · rw [UInt64.lt_iff_toNat_lt, hnat]
      exact Int.lt_toNat.mpr hd'
  · rintro k ⟨u, r⟩ a ⟨u', r'⟩ hu hp hs
    have hw : ∀ i, (u.mem.workers i).Wf :=
      Reaches.wf (Lts.run_append_iff _ |>.mpr ⟨s, hr, shutdown_system hu⟩)
    cases a with
    | inl a =>
        obtain ⟨u'', hs', he⟩ := Option.map_eq_some_iff.mp hs
        cases he
        exact hp.system hw hs'
    | inr o =>
        obtain ⟨hreads, hs⟩ := Option.ite_none_right_eq_some.mp hs
        obtain ⟨r'', hs', he⟩ := Option.map_eq_some_iff.mp hs
        cases he
        exact hp.runner hw hreads hs'

/-- **An orderly shutdown is idle.**  `secondsToWait` counts the sleeps down and is positive
whenever it is decremented.  If the last poll counted no worker, then at the call of `print`
all workers are idle, stay so, and send nothing whatever they are given. -/
theorem orderly_shutdown {workerShutdownDelay : Int32} (hr : Reaches S W workload clock h s)
    (hd : 0 < workerShutdownDelay)
    (hk : (shutdown S W).run (s, .start S workerShutdownDelay) k = some (s', r')) :
    (sleeps k + r'.secondsToWait.toNat = workerShutdownDelay.toInt.toNat ∧
      (r'.pc = .sleep → 0 < r'.secondsToWait)) ∧
    (r'.pc = .print → r'.remaining = 0 →
      ∀ i < S.numberOfWorkers,
        (s'.mem.workers i).Idle ∧
        (∀ k' u, (shutdown S W).run (s', r') k' = some u →
          (u.1.mem.workers i).Idle ∧ (u.1.mem.workers i).sent = (s'.mem.workers i).sent) ∧
        ∀ ins w es, (Worker.lts W).run (s'.mem.workers i, []) ins = some (w, es) →
          ∀ e ∈ es, e.isSend = false) := by
  have hp := polling_run hr hd hk
  refine ⟨⟨hp.seconds, fun hpc => hp.isPolling (by rw [hpc]; rfl)⟩, fun hpc hrem i hi => ?_⟩
  have hidle : (s'.mem.workers i).Idle := by
    apply hp.idle hrem
    rw [hpc]
    exact hi
  have hw : (s'.mem.workers i).Wf :=
    Reaches.wf (Lts.run_append_iff _ |>.mpr ⟨s, hr, shutdown_system hk⟩) i
  refine ⟨hidle, ?_, fun ins w es hrun => (hidle.run hw hrun).2.2⟩
  rintro k' ⟨u, r''⟩ hk'
  obtain ⟨es, hrun⟩ := run_worker (shutdown_system hk') i
  obtain ⟨hidle', hsent, -⟩ := hidle.run hw hrun
  exact ⟨hidle', hsent⟩

end poll

/-- The scheduler stops, and its loop messages the worker to stop. -/
def stopping : History :=
  [(Tid.client 0, Op.begin .stop), (Tid.client 0, Op.storeStopping), (Tid.client 0, Op.ret {})] ++
    opening ++
    [(Tid.loop, Op.loadState .stopping), (Tid.loop, Op.loadState .stopping),
      (Tid.loop, Op.loadState .stopping), (Tid.loop, Op.putMessage 0 .stop),
      (Tid.loop, Op.setValue)]

/-- The runner finds the worker running and sleeps; the worker takes its messages, and is
idle when the runner asks again. -/
def secondPoll : List ShutdownOp :=
  [.inr (.running 0 true), .inl (.worker 0, .work 0 (.message .reset {}) false), .inr .sleep,
    .inl (.worker 0, .work 0 (.message .stop {}) false), .inr (.running 0 false),
    .inr (.outstandingRequests 0 0)]

theorem orderly_shutdown_secondPoll :
    ∃ s s' r, Reaches (defaults 1) constantWorkload () 1 stopping s ∧
      (shutdown (defaults 1) constantWorkload).run (s, .start (defaults 1) 2) secondPoll =
        some (s', r) ∧
      r.pc = .print ∧ (s'.mem.workers 0).Idle ∧ sleeps secondPoll + r.secondsToWait.toNat = 2 := by
  have hrun : ((system (defaults 1) constantWorkload).run (start (defaults 1) () 1) stopping).any
      (fun s => ((shutdown (defaults 1) constantWorkload).run (s, .start (defaults 1) 2)
        secondPoll).any fun u => decide (u.2.pc = .print ∧ u.2.remaining = 0)) = true := by
    decide +kernel
  obtain ⟨s, hr, hs⟩ := (Option.any_eq_true _ _).mp hrun
  obtain ⟨⟨s', r⟩, hk, hu⟩ := (Option.any_eq_true _ _).mp hs
  obtain ⟨hpc, hrem⟩ := of_decide_eq_true hu
  obtain ⟨⟨hseconds, -⟩, hidle⟩ := orderly_shutdown hr (by decide) hk
  exact ⟨s, s', r, hr, hk, hpc, (hidle hpc hrem 0 (by decide)).1, hseconds⟩

end Treadmill
