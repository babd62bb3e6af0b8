import Mathlib.Algebra.BigOperators.Group.Finset.Piecewise
import Mathlib.Algebra.Order.BigOperators.Group.Finset
import Treadmill.Discipline
import Treadmill.Progress
import Treadmill.Shutdown

/-! # Draining

What is left of a test once `STOPPING` has been stored.  `remaining` counts it: the way of the
loop to its end with the messages it still puts, and for each worker the messages it has not
consumed, the replies and the workload's futures it waits for and the `Scheduler::stop` it still
has to call.

Every step of the loop and of the senders lowers it, readings of the clock in a spin loop apart,
and only a client that puts a message raises it (`remaining_step`, `run_wears`).  When nothing
remains the test is at rest (`Reaches.atRest`), and while something remains a step of the loop or
of a sender lowers it (`exists_wearing_step`, `exists_drain`). -/

namespace Treadmill

/-! ### What remains for a worker -/

namespace Worker

variable {ω ρ : Type} {W : Workload ω ρ} {w w' : Worker ω} {es : List (Effect ρ)}

/-- The continuations that have not run. -/
def due (w : Worker ω) : ℕ := w.inFlight.length + w.openFutures.length

theorem complete_due {c : Completion} (h : w.complete c = some (w', es)) :
    w'.due + 1 ≤ w.due ∧ w'.consuming = w.consuming := by
  cases c with
  | reply request t recvTime =>
      obtain ⟨sendTime, hl, he⟩ := Option.map_eq_some_iff.mp h
      cases he
      have hlt : (w.inFlight.filter fun e => e.1 ≠ request).length < w.inFlight.length := by
        obtain ⟨l₁, l₂, he, -⟩ := List.lookup_eq_some_iff.mp hl
        rw [List.length_filter_lt_length_iff_exists]
        exact ⟨(request, sendTime), by simp [he], by simp⟩
      refine ⟨?_, rfl⟩
      simp only [due]
      omega
  | future request error =>
      obtain ⟨hmem, he⟩ := Option.ite_none_right_eq_some.mp h
      have hlen := List.length_erase_of_mem hmem
      have hpos := List.length_pos_of_mem hmem
      cases error <;> cases he <;> refine ⟨?_, rfl⟩ <;> simp only [due] <;> omega

theorem completeAll_due {cs : List Completion} (h : w.completeAll cs = some (w', es)) :
    w'.due ≤ w.due ∧ w'.consuming = w.consuming := by
  refine completeAll_induction
    (R := fun w w' _ => w'.due ≤ w.due ∧ w'.consuming = w.consuming) ?_ ?_ ?_ h
  · exact fun _ => ⟨le_rfl, rfl⟩
  · exact fun _ _ _ _ _ h₁ h₂ => ⟨h₂.1.trans h₁.1, h₂.2.trans h₁.2⟩
  · intro c w w' es hc
    obtain ⟨hdue, hcons⟩ := complete_due hc
    exact ⟨by omega, hcons⟩

theorem estimate_due {t : ℤ} (h : w.estimate t = (w', es)) :
    w'.due = w.due ∧ w'.consuming = w.consuming := by
  unfold estimate at h
  split at h
  rename_i w₁ samples hs
  cases h
  unfold sample at hs
  dsimp only at hs
  split_ifs at hs <;> cases hs <;> exact ⟨rfl, rfl⟩

/-- The step of the sender that follows a handler: `Scheduler::stop`, if it was called. -/
def calls (es : List (Effect ρ)) : ℕ :=
  if es.any (fun | .terminateEarly => true | _ => false) then 1 else 0

theorem calls_eq_zero (hes : ∀ e ∈ es, e.isTerminate = false) : calls es = 0 := by
  rw [calls, if_neg]
  simp only [List.any_eq_true, not_exists, not_and]
  intro e he
  have := hes e he
  cases e <;> simp_all [Effect.isTerminate]

/-- A request leaves behind at most its two continuations, or a call. -/
theorem sendRequest_due {env : SendEnv} (h : w.sendRequest W env = some (w', es)) :
    w'.due + calls es ≤ w.due + 2 := by
  rcases sendRequest_cases h with ⟨workload, request, w₁, es₁, es₂, -, hc, he, rfl⟩ |
    ⟨workload, -, rfl, rfl⟩ | he
  · have hcalls : calls (Effect.getNextRequest :: .sendRequest w.connIdx request ::
        (es₁ ++ es₂)) = 0 := by
      refine calls_eq_zero fun e he' => ?_
      simp only [List.mem_cons, List.mem_append] at he'
      rcases he' with rfl | rfl | he' | he'
      · rfl
      · rfl
      · exact ((completeAll_keeps hc).quiet e he').2.2
      · exact ((estimate_keeps he).quiet e he').2.2
    have hdue := (completeAll_due hc).1
    rw [hcalls, (estimate_due he).1]
    simp only [due, issue, List.length_append, List.length_singleton] at hdue ⊢
    omega
  · simp [due, calls]
  · rw [calls_eq_zero fun e he' => ((estimate_keeps he).quiet e he').2.2, (estimate_due he).1]
    omega

theorem message_due {event : Event} {env : SendEnv}
    (h : w.step W (.message event env) = some (w', es)) : w'.due + calls es ≤ w.due + 2 := by
  obtain ⟨-, hm⟩ := Option.ite_none_right_eq_some.mp h
  unfold messageAvailable at hm
  split_ifs at hm with hstop
  · cases hm
    simp [due, calls]
  · split at hm
    · cases hm
      simp [due, calls]
    · exact sendRequest_due hm
    · split at hm <;> cases hm <;> simp [due, calls, setMaxOutstanding]
    · split at hm <;> cases hm <;> simp [due, calls]
    · cases hm
      simp [due, calls]

theorem step_halted {inp : Input} (h : w.step W inp = some (w', es))
    (hw : w.consuming = false → w.running = false) :
    w'.consuming = false → w'.running = false := by
  cases inp with
  | completion c =>
      rw [(complete_due h).2, (complete_keeps h).running]
      exact hw
  | stop =>
      cases h
      exact fun _ => rfl
  | message event env =>
      obtain ⟨hcons, hm⟩ := Option.ite_none_right_eq_some.mp h
      unfold messageAvailable at hm
      split_ifs at hm with hstop
      · cases hm
        exact fun _ => rfl
      · intro hcons'
        -- any other message leaves the worker consuming
        exfalso
        suffices w'.consuming = true by simp [this] at hcons'
        split at hm
        · cases hm
          exact hcons
        · rcases sendRequest_cases hm with ⟨workload, request, w₁, es₁, es₂, -, hc, he, -⟩ |
            ⟨workload, -, rfl, -⟩ | he
          · rw [(estimate_due he).2, (completeAll_due hc).2]
            exact hcons
          · exact hcons
          · rw [(estimate_due he).2]
            exact hcons
        · split at hm <;> cases hm <;> exact hcons
        · split at hm <;> cases hm <;> exact hcons
        · cases hm
          exact hcons

theorem step_stop {env : SendEnv} (h : w.step W (.message .stop env) = some (w', es)) :
    w'.consuming = false := by
  obtain ⟨-, hm⟩ := Option.ite_none_right_eq_some.mp h
  cases hm
  rfl

end Worker

/-! ### What remains for the test -/

/-- The way of the loop to its end once `state_` is `STOPPING`, a message that it puts counted
four times. -/
def Pc.remaining (n : ℕ) : Pc → ℕ
  | .reset i => 4 * (n - i) + 4 * n + 6
  | .loadRps => 4 * n + 6
  | .drawFirst => 4 * n + 5
  | .readB => 4 * n + 16
  | .waitStart => 4 * n + 15
  | .waiting _ => 4 * n + 14
  | .readA => 4 * n + 13
  | .drawNext => 4 * n + 12
  | .put => 4 * n + 11
  | .size => 4 * n + 7
  | .compareRps => 4 * n + 6
  | .reloadRps => 4 * n + 5
  | .checkRunning => 4 * n + 4
  | .pauseStart => 4 * n + 5
  | .pausing _ => 4 * n + 4
  | .checkPaused => 4 * n + 3
  | .checkStopping => 4 * n + 2
  | .stop i => 4 * (n - i) + 1
  | .setValue => 1
  | .done => 0

/-- What remains for worker `i`; a message that it has not consumed counts for itself and for
the two continuations of the request it may lead to. -/
def backlog {ω : Type} (s : System ω) (i : ℕ) : ℕ :=
  (if (s.mem.workers i).consuming then 3 * (s.mem.scheduler.queues i).length else 0) +
    (s.mem.workers i).due + (s.loc (.worker i)).length

/-- What remains of the test. -/
def remaining {ω : Type} (S : Setup) (s : System ω) : ℕ :=
  (s.loc .loop).pc.remaining S.numberOfWorkers + ∑ i ∈ Finset.range S.numberOfWorkers, backlog s i

namespace Op

/-- Is it a `putMessage`? -/
def isPut : Op → Bool
  | .putMessage _ _ => true
  | _ => false

/-- Is it a reading of the clock? -/
def isClock : Op → Bool
  | .nowNs _ => true
  | _ => false

end Op

/-- The steps that wear the test down: those of the loop, but for readings of the clock, and
those of the senders. -/
def wears (S : Setup) : Tid × Op → ℕ
  | (.loop, o) => if o.isClock then 0 else 1
  | (.worker i, _) => if i < S.numberOfWorkers then 1 else 0
  | (.client _, _) => 0

/-- What a client's message adds. -/
def feeds : Tid × Op → ℕ
  | (.client _, o) => if o.isPut then 3 else 0
  | (.loop, _) | (.worker _, _) => 0

section loop
variable {S : Setup} {l l' : Loop} {o : Op}

theorem remaining_resetFrom (l : Loop) (i : ℕ) :
    (l.resetFrom S i).pc.remaining S.numberOfWorkers =
      4 * (S.numberOfWorkers - i) + 4 * S.numberOfWorkers + 6 := by
  unfold Loop.resetFrom
  split_ifs with hi
  · rfl
  · simp only [Pc.remaining]
    omega

theorem remaining_stopFrom (l : Loop) (i : ℕ) :
    (l.stopFrom S i).pc.remaining S.numberOfWorkers = 4 * (S.numberOfWorkers - i) + 1 := by
  unfold Loop.stopFrom
  split_ifs with hi
  · rfl
  · simp only [Pc.remaining]
    omega

/-- Once `state_` is `STOPPING` the loop spins or gets nearer to its end. -/
theorem Loop.remaining_step (h : l.step S o = some l')
    (hload : ∀ v, o = .loadState v → v = .stopping)
    (hput : ∀ i e, o = .putMessage i e → i < S.numberOfWorkers) :
    (l'.pc = l.pc ∧ o.isClock = true ∧ o.isPut = false) ∨
      l'.pc.remaining S.numberOfWorkers + 1 + (if o.isPut then 3 else 0) ≤
        l.pc.remaining S.numberOfWorkers := by
  cases step_iff.mp h with
  | reset hpc =>
      have hi := hput _ _ rfl
      rw [remaining_resetFrom, hpc]
      simp only [Op.isPut, Pc.remaining, if_true]
      omega
  | stop hpc =>
      have hi := hput _ _ rfl
      rw [remaining_stopFrom, hpc]
      simp only [Op.isPut, Pc.remaining, if_true]
      omega
  | running hpc => cases hload _ rfl
  | paused hpc => cases hload _ rfl
  | restart hpc hv => exact absurd (hload _ rfl) hv
  | halt hpc =>
      rw [remaining_stopFrom, hpc]
      simp [Op.isPut, Pc.remaining]
  | waiting hpc ht => exact Or.inl ⟨hpc.symm, rfl, rfl⟩
  | pausing hpc ht => exact Or.inl ⟨hpc.symm, rfl, rfl⟩
  | _ => simp_all [Op.isPut, Pc.remaining, afterSize]

theorem Loop.step_inputs (h : l.step S o = some l') :
    (∀ j, o.inputs j = []) ∧ Memory.fails o = false := by
  cases step_iff.mp h <;> exact ⟨fun _ => rfl, rfl⟩

end loop

theorem Frame.step_inputs {S : Setup} {f f' : Frame} {o : Op} (h : f.step S o = some f') (j : ℕ) :
    o.inputs j = [] ∨ o.inputs j = [.stop] := by
  rcases step_cases h with ⟨c, rfl, -⟩ | ⟨c, rfl, -⟩ | ⟨c, a, todo, acts, r, -, -, hp, -⟩
  · exact Or.inl rfl
  · exact Or.inl rfl
  · cases o with
    | work i inp terminates =>
        cases a <;> simp only [Act.perform] at hp <;> try cases hp
        cases inp <;> simp only [reduceCtorEq] at hp
        simp only [Op.inputs]
        split_ifs <;> simp
    | _ => exact Or.inl rfl

section system
variable {ω ρ : Type} {S : Setup} {W : Workload ω ρ} {workload : ω} {clock : ℤ} {h : History}
  {s s' : System ω} {t : Tid} {o : Op}

theorem sum_puts (S : Setup) (o : Op) :
    ∑ j ∈ Finset.range S.numberOfWorkers, 3 * (o.puts j).length ≤ if o.isPut then 3 else 0 := by
  cases o with
  | putMessage i e =>
      have hite : ∀ j, 3 * ((Op.putMessage i e).puts j).length = if i = j then 3 else 0 := by
        intro j
        simp only [Op.puts]
        split_ifs <;> rfl
      simp only [hite, Finset.sum_ite_eq, Op.isPut, if_true]
      split_ifs <;> omega
  | _ => simp [Op.puts]

/-- The other threads leave a worker what it has, and may put a message on its queue. -/
theorem backlog_frame (hs : (system S W).step s (t, o) = some s') {j : ℕ} (ht : t ≠ .worker j)
    (hinp : o.inputs j = [] ∨ o.inputs j = [.stop]) :
    backlog s' j ≤ backlog s j + 3 * (o.puts j).length := by
  have hloc : s'.loc (.worker j) = s.loc (.worker j) := Threads.step_frame hs (Ne.symm ht)
  have htakes : o.takes j = [] := by
    rw [Op.takes_eq_filterMap]
    rcases hinp with hinp | hinp <;> rw [hinp] <;> rfl
  have hqueue := congrArg List.length (Scheduler.access_queues (step_scheduler hs) j)
  rw [htakes, List.nil_append, List.length_append] at hqueue
  have hw : (s'.mem.workers j).consuming = (s.mem.workers j).consuming ∧
      (s'.mem.workers j).due = (s.mem.workers j).due := by
    rcases step_worker hs j with ⟨inp, es, hinp', hstep⟩ | ⟨-, hw⟩
    · rcases hinp with hinp | hinp
      · rw [hinp] at hinp'
        cases hinp'
      · rw [hinp] at hinp'
        cases hinp'
        have hw := congrArg Prod.fst (Option.some.inj hstep)
        dsimp only at hw
        rw [← hw]
        exact ⟨rfl, rfl⟩
    · rw [hw]
      exact ⟨rfl, rfl⟩
  unfold backlog
  rw [hw.1, hw.2, hloc]
  split_ifs <;> omega

theorem step_work {i : ℕ} {inp : Worker.Input} {terminates : Bool}
    (hs : (system S W).step s (t, .work i inp terminates) = some s') :
    ∃ es, (s.mem.workers i).step W inp = some (s'.mem.workers i, es) ∧
      (if terminates then 1 else 0) = Worker.calls es := by
  have hw := (Memory.access_iff.mp (step_access hs)).2.2.2.1
  obtain ⟨⟨w, es⟩, hstep, he⟩ := Option.bind_eq_some_iff.mp hw
  obtain ⟨hterm, he⟩ := Option.ite_none_right_eq_some.mp he
  obtain he := Option.some.inj he
  refine ⟨es, ?_, by rw [hterm]; rfl⟩
  rw [← he, Function.update_self]
  exact hstep

/-- Every step of a sender wears its worker's backlog down. -/
theorem backlog_step {i : ℕ} (hs : (system S W).step s (.worker i, o) = some s') :
    backlog s' i + 1 ≤ backlog s i ∧ o.isPut = false ∧ ∀ j ≠ i, o.inputs j = [] := by
  have hl : senderStep i (s.loc (.worker i)) o = some (s'.loc (.worker i)) := Threads.step_loc hs
  have hqueue := congrArg List.length (Scheduler.access_queues (step_scheduler hs) i)
  rw [List.length_append, List.length_append] at hqueue
  unfold senderStep at hl
  split at hl
  · rename_i j event env terminates hloc
    obtain ⟨rfl, hl⟩ := Option.ite_none_right_eq_some.mp hl
    obtain ⟨es, hstep, hcalls⟩ := step_work hs
    have hcons : (s.mem.workers j).consuming = true := (Option.ite_none_right_eq_some.mp hstep).1
    have hdue := Worker.message_due hstep
    have htodo : (s'.loc (.worker j)).length = Worker.calls es := by
      rw [← Option.some.inj hl, ← hcalls]
      split_ifs <;> rfl
    refine ⟨?_, rfl, fun k hk => by simp [Op.inputs, Ne.symm hk]⟩
    simp only [Op.puts, Op.takes, ↓reduceIte, List.length_nil, List.length_singleton] at hqueue
    unfold backlog
    rw [hloc, htodo, if_pos hcons, List.length_nil]
    split_ifs <;> omega
  · rename_i j c terminates hloc
    obtain ⟨rfl, hl⟩ := Option.ite_none_right_eq_some.mp hl
    obtain ⟨es, hstep, -⟩ := step_work hs
    obtain ⟨hdue, hcons⟩ := Worker.complete_due hstep
    refine ⟨?_, rfl, fun k hk => by simp [Op.inputs, Ne.symm hk]⟩
    simp only [Op.puts, Op.takes, List.length_nil] at hqueue
    unfold backlog
    rw [hcons, hloc, ← Option.some.inj hl]
    split_ifs <;> omega
  · rename_i todo hloc
    obtain he := Option.some.inj hl
    have hw : s'.mem.workers i = s.mem.workers i := by
      rcases step_worker hs i with ⟨inp, es, hinp, -⟩ | ⟨-, hw⟩
      · cases hinp
      · exact hw
    refine ⟨?_, rfl, fun j hj => rfl⟩
    simp only [Op.puts, Op.takes, List.length_nil] at hqueue
    unfold backlog
    rw [hw, hloc, ← he, List.length_cons]
    split_ifs <;> omega
  · cases hl

theorem sum_backlog (hs : (system S W).step s (t, o) = some s') (ht : ∀ j, t ≠ .worker j)
    (hinp : ∀ j, o.inputs j = [] ∨ o.inputs j = [.stop]) :
    ∑ j ∈ Finset.range S.numberOfWorkers, backlog s' j ≤
      ∑ j ∈ Finset.range S.numberOfWorkers, backlog s j + if o.isPut then 3 else 0 :=
  calc ∑ j ∈ Finset.range S.numberOfWorkers, backlog s' j
      ≤ ∑ j ∈ Finset.range S.numberOfWorkers, (backlog s j + 3 * (o.puts j).length) :=
        Finset.sum_le_sum fun j _ => backlog_frame hs (ht j) (hinp j)
    _ = ∑ j ∈ Finset.range S.numberOfWorkers, backlog s j +
          ∑ j ∈ Finset.range S.numberOfWorkers, 3 * (o.puts j).length :=
        Finset.sum_add_distrib
    _ ≤ _ := Nat.add_le_add_left (sum_puts S o) _

theorem remaining_loop (hstop : s.mem.scheduler.state = .stopping)
    (hs : (system S W).step s (.loop, o) = some s') :
    ((s'.loc .loop).pc = (s.loc .loop).pc ∧ o.isClock = true ∧ remaining S s' ≤ remaining S s) ∨
      remaining S s' + 1 ≤ remaining S s := by
  have hl : (s.loc .loop).step S o = some (s'.loc .loop) := Threads.step_loc hs
  have hsum := sum_backlog hs (fun j => nofun) fun j => Or.inl ((Loop.step_inputs hl).1 j)
  have hload : ∀ v, o = .loadState v → v = .stopping := by
    rintro v rfl
    exact (RunState.step_loadState (step_runState hs)).1.trans hstop
  have hput : ∀ i e, o = .putMessage i e → i < S.numberOfWorkers := by
    rintro i e rfl
    exact (Scheduler.putMessage_iff.mp (step_scheduler hs)).1
  simp only [remaining]
  rcases Loop.remaining_step hl hload hput with ⟨hpc, hclock, hnoput⟩ | hlt
  · rw [hnoput, if_neg Bool.false_ne_true] at hsum
    rw [hpc]
    exact Or.inl ⟨rfl, hclock, by omega⟩
  · right
    omega

theorem remaining_client {k : ℕ} (hs : (system S W).step s (.client k, o) = some s') :
    remaining S s' ≤ remaining S s + if o.isPut then 3 else 0 := by
  have hl : (s.loc (.client k)).step S o = some (s'.loc (.client k)) := Threads.step_loc hs
  have hsum := sum_backlog hs (fun j => nofun) (Frame.step_inputs hl)
  have hloop : s'.loc .loop = s.loc .loop := Threads.step_frame hs nofun
  simp only [remaining, hloop]
  omega

/-- Once `STOPPING` has been stored every step wears down what remains, a message of a client
apart. -/
theorem remaining_step (hstop : s.mem.scheduler.state = .stopping)
    (hs : (system S W).step s (t, o) = some s') :
    wears S (t, o) + remaining S s' ≤ remaining S s + feeds (t, o) := by
  cases t with
  | loop =>
      simp only [wears, feeds]
      rcases remaining_loop hstop hs with ⟨-, hclock, hle⟩ | hlt
      · rw [hclock, if_pos rfl]
        omega
      · split_ifs <;> omega
  | client k =>
      have := remaining_client hs
      simp only [wears, feeds]
      omega
  | worker i =>
      have hloop : s'.loc .loop = s.loc .loop := Threads.step_frame hs nofun
      obtain ⟨hi, hput, hinp⟩ := backlog_step hs
      have hle : ∀ j, (if i = j then 1 else 0) + backlog s' j ≤ backlog s j := by
        intro j
        by_cases hj : i = j
        · subst hj
          rw [if_pos rfl]
          omega
        · have hputs : o.puts j = [] := by
            cases o <;> simp_all [Op.puts, Op.isPut]
          have := backlog_frame hs (j := j) (by simpa using hj) (Or.inl (hinp j (Ne.symm hj)))
          rw [hputs, List.length_nil] at this
          rw [if_neg hj]
          omega
      have hsum := Finset.sum_le_sum fun j (_ : j ∈ Finset.range S.numberOfWorkers) => hle j
      rw [Finset.sum_add_distrib, Finset.sum_ite_eq] at hsum
      simp only [Finset.mem_range] at hsum
      simp only [wears, feeds, remaining, hloop]
      omega

end system

/-! ### The end of a test -/

/-- The end of a test: the loop has fulfilled its promise, and every worker has consumed its
`STOP`, is not running and waits for nothing. -/
structure AtRest {ω : Type} (S : Setup) (s : System ω) : Prop where
  done : (s.loc .loop).pc = .done
  promiseFulfilled : s.mem.scheduler.promiseFulfilled = true
  consuming : ∀ i < S.numberOfWorkers, (s.mem.workers i).consuming = false
  idle : ∀ i < S.numberOfWorkers, (s.mem.workers i).Idle
  due : ∀ i < S.numberOfWorkers, (s.mem.workers i).inFlight = [] ∧
    (s.mem.workers i).openFutures = []

theorem Scheduler.access_promiseFulfilled {S : Setup} {s s' : Scheduler} {o : Op}
    (h : s.access S o = some s') (hp : s.promiseFulfilled = true ∨ o = .setValue) :
    s'.promiseFulfilled = true := by
  cases o with
  | setValue =>
      rw [← Option.some.inj h]
  | putMessage i e =>
      obtain ⟨-, rfl⟩ := putMessage_iff.mp h
      exact hp.resolve_right (by simp)
  | work i inp terminates =>
      cases inp with
      | message e env =>
          obtain ⟨-, rfl⟩ := takeMessage_iff.mp h
          exact hp.resolve_right (by simp)
      | _ =>
          cases h
          exact hp.resolve_right (by simp)
  | casPaused took =>
      obtain ⟨-, he⟩ := Option.ite_none_right_eq_some.mp h
      cases took <;> cases he <;> exact hp.resolve_right (by simp)
  | casRunning took =>
      obtain ⟨-, he⟩ := Option.ite_none_right_eq_some.mp h
      cases took <;> cases he <;> exact hp.resolve_right (by simp)
  | _ =>
      simp only [access] at h
      first
        | cases h; exact hp.resolve_right (by simp)
        | split_ifs at h; cases h; exact hp.resolve_right (by simp)

section runs
variable {ω ρ : Type} {S : Setup} {W : Workload ω ρ} {workload : ω} {clock : ℤ} {h : History}
  {s s' : System ω}

theorem Reaches.promise (hr : Reaches S W workload clock h s) (hd : (s.loc .loop).pc = .done) :
    s.mem.scheduler.promiseFulfilled = true := by
  obtain ⟨h₁, h₂, rfl, -, -⟩ := hr.fulfilled.2 (by rw [hd]; rfl)
  obtain ⟨u, u', -, hs, hr'⟩ := Lts.run_split _ hr
  refine Lts.invariant (P := fun s : System ω => s.mem.scheduler.promiseFulfilled = true)
    (fun _ _ _ hp hs => Scheduler.access_promiseFulfilled (step_scheduler hs) (Or.inl hp)) ?_ hr'
  exact Scheduler.access_promiseFulfilled (step_scheduler hs) (Or.inr rfl)

theorem Reaches.consuming (hr : Reaches S W workload clock h s) (i : ℕ)
    (hcons : (s.mem.workers i).consuming = true) : Event.stop ∉ takes i h := by
  refine Lts.history_induction (P := fun h s => (s.mem.workers i).consuming = true →
    Event.stop ∉ takes i h) (fun _ => by simp [takes]) ?_ hr hcons
  rintro h u ⟨t, o⟩ u' - ih hs hcons
  rw [takes_snoc, Op.takes_eq_filterMap]
  rcases step_worker hs i with ⟨inp, es, hinp, hstep⟩ | ⟨hinp, hw⟩
  · rw [hinp]
    obtain ⟨hcons', -⟩ := Worker.step_consuming hstep hcons
    refine fun hmem => (List.mem_append.mp hmem).elim (ih hcons') fun hlast => ?_
    cases inp with
    | message event env =>
        obtain rfl : Event.stop = event := by simpa [Worker.Input.event] using hlast
        rw [Worker.step_stop hstep] at hcons
        cases hcons
    | completion c => simp [Worker.Input.event] at hlast
    | stop => simp [Worker.Input.event] at hlast
  · rw [hinp, List.filterMap_nil, List.append_nil]
    rw [hw] at hcons
    exact ih hcons

theorem Reaches.halted (hr : Reaches S W workload clock h s) (i : ℕ) :
    (s.mem.workers i).consuming = false → (s.mem.workers i).running = false := by
  refine Lts.invariant (m := system S W) (P := fun s : System ω =>
    (s.mem.workers i).consuming = false → (s.mem.workers i).running = false) ?_
    (fun h => by cases h) hr
  rintro s ⟨t, o⟩ s' ih hs
  rcases step_worker hs i with ⟨inp, es, -, hstep⟩ | ⟨-, hw⟩
  · exact Worker.step_halted hstep ih
  · rw [hw]
    exact ih

/-- When nothing remains the test has ended. -/
theorem Reaches.atRest (hr : Reaches S W workload clock h s) (hrem : remaining S s = 0) :
    AtRest S s := by
  obtain ⟨hpc, hsum⟩ := Nat.add_eq_zero_iff.mp hrem
  have hdone : (s.loc .loop).pc = .done := by
    cases hp : (s.loc .loop).pc <;> rw [hp] at hpc <;> simp [Pc.remaining] at hpc ⊢
  have hback : ∀ i < S.numberOfWorkers, backlog s i = 0 := fun i hi =>
    Finset.sum_eq_zero_iff.mp hsum i (Finset.mem_range.mpr hi)
  have hdue : ∀ i < S.numberOfWorkers, (s.mem.workers i).inFlight = [] ∧
      (s.mem.workers i).openFutures = [] := by
    intro i hi
    have := hback i hi
    simp only [backlog, Worker.due] at this
    exact ⟨List.length_eq_zero_iff.mp (by omega), List.length_eq_zero_iff.mp (by omega)⟩
  have hcons : ∀ i < S.numberOfWorkers, (s.mem.workers i).consuming = false := by
    intro i hi
    cases hc : (s.mem.workers i).consuming with
    | false => rfl
    | true =>
        -- its queue is empty, so it has taken everything that was put, the `STOP` included
        have := hback i hi
        simp only [backlog, hc, if_true] at this
        have hqueue : s.mem.scheduler.queues i = [] := List.length_eq_zero_iff.mp (by omega)
        have hfifo := run_fifo hr i
        rw [hqueue, List.append_nil] at hfifo
        have hput : Event.stop ∈ puts i h := by
          rw [← List.count_pos_iff, (hr.stops hdone hi).1]
          exact Nat.one_pos
        exact absurd (hfifo ▸ hput) (hr.consuming i hc)
  refine ⟨hdone, hr.promise hdone, hcons, fun i hi => ⟨hr.halted i (hcons i hi), ?_⟩, hdue⟩
  rw [(hr.wf i).outstandingRequests, (hdue i hi).1]
  rfl

theorem completion_enabled {i : ℕ} (hm : s.mem.aborted = false)
    (hloc : s.loc (.worker i) = []) (hdue : (s.mem.workers i).due ≠ 0) :
    CanStep S W s (.worker i) := by
  obtain ⟨c, hc⟩ : ∃ c, ((s.mem.workers i).complete c :
      Option (Worker ω × List (Effect ρ))).isSome := by
    cases hin : (s.mem.workers i).inFlight with
    | cons p inFlight =>
        exact ⟨.reply p.1 .value 0, by simp [Worker.complete, hin]⟩
    | nil =>
        cases hopen : (s.mem.workers i).openFutures with
        | cons request openFutures =>
            exact ⟨.future request none, by simp [Worker.complete, hopen]⟩
        | nil => simp [Worker.due, hin, hopen] at hdue
  obtain ⟨⟨w, es⟩, hw⟩ := Option.isSome_iff_exists.mp hc
  refine canStep_of (o := .work i (.completion c)
    (es.any fun | .terminateEarly => true | _ => false)) (access_enabled hm rfl rfl ?_ rfl) ?_
  · exact work_enabled hw
  · simp [program, senderStep, hloc]

theorem senderStep_fails {i : ℕ} {todo todo' : List Act} {o : Op}
    (h : senderStep i todo o = some todo') : Memory.fails o = false := by
  unfold senderStep at h
  split at h
  · rfl
  · rfl
  · rfl
  · cases h

/-- The thread is the loop or the sender of a worker. -/
def Tid.Internal (S : Setup) : Tid → Prop
  | .loop => True
  | .worker i => i < S.numberOfWorkers
  | .client _ => False

theorem exists_wearing_step (hr : Reaches S W workload clock h s) (hN : 0 < S.numberOfWorkers)
    (hstop : s.mem.scheduler.state = .stopping) (hm : s.mem.aborted = false)
    (hrem : remaining S s ≠ 0) :
    ∃ t o s', t.Internal S ∧ (system S W).step s (t, o) = some s' ∧
      remaining S s' < remaining S s ∧ s'.mem.aborted = false := by
  have haborted : ∀ {t o s'}, (system S W).step s (t, o) = some s' →
      s'.mem.aborted = Memory.fails o := fun hs =>
    (Memory.access_iff.mp (step_access hs)).2.2.2.2.2
  by_cases hpc : (s.loc .loop).pc = .done
  · have hsum : ∑ i ∈ Finset.range S.numberOfWorkers, backlog s i ≠ 0 := by
      intro hsum
      exact hrem (by rw [remaining, hsum, hpc]; rfl)
    obtain ⟨i, hi, hback⟩ := Finset.exists_ne_zero_of_sum_ne_zero hsum
    have hcan : CanStep S W s (.worker i) := by
      by_cases hloc : s.loc (.worker i) = []
      · by_cases hdue : (s.mem.workers i).due = 0
        · refine sender_enabled hm (hr.sender i) (Or.inr ?_)
          simp only [backlog, hdue, hloc] at hback
          split_ifs at hback with hcons
          · exact ⟨hcons, fun hq => hback (by simp [hq])⟩
          · simp at hback
        · exact completion_enabled hm hloc hdue
      · exact sender_enabled hm (hr.sender i) (Or.inl hloc)
    obtain ⟨o, s', hs⟩ := hcan
    have hwear := remaining_step hstop hs
    simp only [wears, feeds, if_pos (Finset.mem_range.mp hi)] at hwear
    refine ⟨.worker i, o, s', Finset.mem_range.mp hi, hs, by omega, ?_⟩
    rw [haborted hs]
    exact senderStep_fails (Threads.step_loc hs)
  · obtain ⟨o, s', hs, hne⟩ := loop_enabled hm (hr.inRange hN) hpc
    have hl : (s.loc .loop).step S o = some (s'.loc .loop) := Threads.step_loc hs
    refine ⟨.loop, o, s', trivial, hs, ?_, ?_⟩
    · exact (remaining_loop hstop hs).resolve_left fun hpc' => hne hpc'.1
    · rw [haborted hs]
      exact (Loop.step_inputs hl).2

/-- The loop and the senders can finish the test on their own. -/
theorem exists_drain (hN : 0 < S.numberOfWorkers) :
    ∀ (n : ℕ) {h : History} {s : System ω}, Reaches S W workload clock h s →
      s.mem.scheduler.state = .stopping → s.mem.aborted = false → remaining S s = n →
      ∃ g s', (system S W).run s g = some s' ∧ (∀ a ∈ g, a.1.Internal S) ∧ AtRest S s' := by
  intro n
  induction n using Nat.strong_induction_on with
  | _ n ih =>
      intro h s hr hstop hm hn
      by_cases hrem : remaining S s = 0
      · exact ⟨[], s, rfl, by simp, hr.atRest hrem⟩
      · obtain ⟨t, o, u, ht, hs, hlt, hm'⟩ := exists_wearing_step hr hN hstop hm hrem
        have hr' : Reaches S W workload clock (h ++ [(t, o)]) u :=
          (Lts.run_snoc_iff _).mpr ⟨s, hr, hs⟩
        have hstop' : u.mem.scheduler.state = .stopping :=
          stopping_run hstop ((Lts.run_singleton _ _ _).trans hs)
        obtain ⟨g, s', hrun, hg, hrest⟩ := ih _ (hn ▸ hlt) hr' hstop' hm' rfl
        exact ⟨(t, o) :: g, s', (Lts.run_cons_iff _).mpr ⟨u, hs, hrun⟩,
          List.forall_mem_cons.mpr ⟨ht, hg⟩, hrest⟩

/-- Once `STOPPING` has been stored, the steps of the loop and the senders are bounded by what
remains and by the messages that clients still put. -/
theorem run_wears (hstop : s.mem.scheduler.state = .stopping) {g : History}
    (hrun : (system S W).run s g = some s') :
    (g.map (wears S)).sum + remaining S s' ≤ remaining S s + (g.map feeds).sum := by
  refine Lts.potential (m := system S W)
    (P := fun s : System ω => s.mem.scheduler.state = .stopping)
    (Q := fun _ => True) (wears S) feeds (remaining S) ?_ hstop (fun _ _ => trivial) hrun
  rintro u ⟨t, o⟩ u' hu - hs
  exact ⟨stopping_run hu ((Lts.run_singleton _ _ _).trans hs), remaining_step hu hs⟩

end runs

end Treadmill
