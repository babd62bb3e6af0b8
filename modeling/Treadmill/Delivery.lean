import Treadmill.Steps
import Treadmill.WorkerSteps

/-! # Delivery

What connects the scheduler's queues to the workers.  A queue is FIFO over whole runs
(`run_fifo`), every worker of the system runs through its own inputs and nothing else
(`run_worker`), and so the limit and the phase of a running worker are decided by the messages
that were taken from its queue, in their order (`run_limit`, `run_phase`). -/

namespace Treadmill

/-! ### The inputs of a worker -/

/-- The inputs that an operation gives worker `i`. -/
def Op.inputs (i : ℕ) : Op → List Worker.Input
  | .work j inp _ => if j = i then [inp] else []
  | _ => []

/-- The inputs of worker `i`, in order. -/
def inputs (i : ℕ) (h : History) : List Worker.Input := h.flatMap fun a => a.2.inputs i

theorem Op.takes_eq_filterMap (i : ℕ) (o : Op) :
    o.takes i = (o.inputs i).filterMap Worker.Input.event := by
  cases o with
  | work j inp terminates =>
      by_cases hj : j = i
      · cases inp <;> simp [takes, inputs, hj, Worker.Input.event]
      · cases inp <;> simp [takes, inputs, hj]
  | _ => rfl

/-- The messages taken from a queue are the messages among the worker's inputs. -/
theorem takes_eq_filterMap (i : ℕ) (h : History) :
    takes i h = (inputs i h).filterMap Worker.Input.event := by
  induction h with
  | nil => rfl
  | cons a h ih =>
      have ha := a.2.takes_eq_filterMap i
      simp only [takes, inputs] at ih ⊢
      rw [List.flatMap_cons, List.flatMap_cons, List.filterMap_append, ih, ha]

namespace Worker

variable {ω ρ : Type} {W : Workload ω ρ} {w w' : Worker ω} {es es' : List (Effect ρ)}
  {ins : List Input}

theorem foldl_limit (ins : List Input) (m : Int32) :
    ins.foldl (fun m inp => inp.limit m) m =
      (ins.filterMap Input.event).foldl (fun m e => e.limit m) m := by
  induction ins generalizing m with
  | nil => rfl
  | cons inp ins ih => cases inp <;> exact ih _

theorem foldl_phase (ins : List Input) (p : String) :
    ins.foldl (fun p inp => inp.phase p) p =
      (ins.filterMap Input.event).foldl (fun p e => e.phase p) p := by
  induction ins generalizing p with
  | nil => rfl
  | cons inp ins ih => cases inp <;> exact ih _

/-- A worker that is running after a run has handled every message of it. -/
theorem run_controls (hr : (lts W).run (w, es) ins = some (w', es'))
    (hrun : w'.running = true) :
    w'.maxOutstandingRequests =
        (ins.filterMap Input.event).foldl (fun m e => e.limit m) w.maxOutstandingRequests ∧
      w'.phase = (ins.filterMap Input.event).foldl (fun p e => e.phase p) w.phase := by
  rw [← foldl_limit, ← foldl_phase]
  revert hrun
  refine Lts.history_induction (m := lts W) (P := fun ins (s : Worker ω × List (Effect ρ)) =>
    s.1.running = true →
      s.1.maxOutstandingRequests =
          ins.foldl (fun m inp => inp.limit m) w.maxOutstandingRequests ∧
        s.1.phase = ins.foldl (fun p inp => inp.phase p) w.phase) ?_ ?_ hr
  · exact fun _ => ⟨rfl, rfl⟩
  · rintro ins ⟨u, _⟩ inp ⟨u', _⟩ - ih hs hrun
    obtain ⟨⟨u'', es''⟩, hstep, he⟩ := Option.map_eq_some_iff.mp hs
    cases he
    obtain ⟨hlimit, hphase⟩ := ih (step_running hstep hrun)
    rw [List.foldl_append, List.foldl_append, List.foldl_cons, List.foldl_cons, List.foldl_nil,
      List.foldl_nil, ← hlimit, ← hphase]
    exact ⟨step_limit hstep hrun, step_phase hstep hrun⟩

theorem step_consuming {inp : Input} (h : w.step W inp = some (w', es))
    (hcons : w'.consuming = true) :
    w.consuming = true ∧ w'.phase = inp.phase w.phase := by
  cases inp with
  | completion c =>
      refine ⟨?_, (complete_keeps h).phase⟩
      cases c with
      | reply request t recvTime =>
          obtain ⟨sendTime, -, he⟩ := Option.map_eq_some_iff.mp h
          cases he
          exact hcons
      | future request error =>
          obtain ⟨-, he⟩ := Option.ite_none_right_eq_some.mp h
          cases error <;> cases he <;> exact hcons
  | stop =>
      cases h
      exact ⟨hcons, rfl⟩
  | message event env =>
      have hctl := step_controls h
      obtain ⟨hw, hm⟩ := Option.ite_none_right_eq_some.mp h
      refine ⟨hw, ?_⟩
      unfold messageAvailable at hm
      split_ifs at hm with hstop
      · cases hm
        cases hcons
      · push Not at hstop
        rcases hctl with ⟨-, hp⟩ | ⟨hrun, -, hp⟩
        · exact hp
        · -- only a request may end the run, and it leaves the phase alone
          rw [hp]
          obtain ⟨eventType, extraData⟩ := event
          cases eventType with
          | setPhase =>
              cases extraData <;> cases hm <;> exact absurd hrun hstop.2
          | _ => rfl

/-- The phase of a worker that is consuming after a run is decided by the messages of it. -/
theorem run_consuming (hr : (lts W).run (w, es) ins = some (w', es'))
    (hcons : w'.consuming = true) :
    w'.phase = (ins.filterMap Input.event).foldl (fun p e => e.phase p) w.phase := by
  rw [← foldl_phase]
  revert hcons
  refine Lts.history_induction (m := lts W) (P := fun ins (s : Worker ω × List (Effect ρ)) =>
    s.1.consuming = true → s.1.phase = ins.foldl (fun p inp => inp.phase p) w.phase) ?_ ?_ hr
  · exact fun _ => rfl
  · rintro ins ⟨u, _⟩ inp ⟨u', _⟩ - ih hs hcons
    obtain ⟨⟨u'', es''⟩, hstep, he⟩ := Option.map_eq_some_iff.mp hs
    cases he
    obtain ⟨hu, hphase⟩ := step_consuming hstep hcons
    rw [List.foldl_append, List.foldl_cons, List.foldl_nil, ← ih hu]
    exact hphase

theorem run_stopped (hr : (lts W).run (w, es) ins = some (w', es')) (hstop : w.running = false) :
    w'.running = false ∧ w'.maxOutstandingRequests = w.maxOutstandingRequests := by
  refine Lts.invariant (m := lts W) (P := fun s : Worker ω × List (Effect ρ) =>
    s.1.running = false ∧ s.1.maxOutstandingRequests = w.maxOutstandingRequests) ?_ ⟨hstop, rfl⟩ hr
  rintro ⟨u, _⟩ inp ⟨u', _⟩ ⟨hu, hlimit⟩ hs
  obtain ⟨⟨u'', es''⟩, hstep, he⟩ := Option.map_eq_some_iff.mp hs
  cases he
  obtain ⟨hu', hlimit'⟩ := step_stopped hstep hu
  exact ⟨hu', hlimit'.trans hlimit⟩

theorem run_limit_eq (hr : (lts W).run (w, es) ins = some (w', es'))
    (hall : ∀ e ∈ ins.filterMap Input.event,
      e.limit w.maxOutstandingRequests = w.maxOutstandingRequests) :
    w'.maxOutstandingRequests = w.maxOutstandingRequests := by
  refine Lts.invariant_on (m := lts W)
    (P := fun s : Worker ω × List (Effect ρ) =>
      s.1.maxOutstandingRequests = w.maxOutstandingRequests)
    (Q := fun inp => ∀ e, inp.event = some e →
      e.limit w.maxOutstandingRequests = w.maxOutstandingRequests) ?_ rfl ?_ hr
  · rintro ⟨u, _⟩ inp ⟨u', _⟩ hQ hu hs
    obtain ⟨⟨u'', es''⟩, hstep, he⟩ := Option.map_eq_some_iff.mp hs
    cases he
    rcases step_controls hstep with ⟨hlimit, -⟩ | ⟨-, hlimit, -⟩
    · rw [hlimit, hu]
      cases inp with
      | message e env => exact hQ e rfl
      | _ => rfl
    · rw [hlimit, hu]
  · intro inp hinp e he
    exact hall e (List.mem_filterMap.mpr ⟨inp, hinp, he⟩)

end Worker

/-! ### Runs of the system -/

section runs
variable {ω ρ : Type} {S : Setup} {W : Workload ω ρ} {workload : ω} {clock : ℤ}
  {h : History} {s s' : System ω} {t : Tid} {o : Op}

theorem step_worker (hs : (system S W).step s (t, o) = some s') (i : ℕ) :
    (∃ inp es, o.inputs i = [inp] ∧
      (s.mem.workers i).step W inp = some (s'.mem.workers i, es)) ∨
    (o.inputs i = [] ∧ s'.mem.workers i = s.mem.workers i) := by
  have hw := (Memory.access_iff.mp (step_access hs)).2.2.2.1
  cases o with
  | work j inp terminates =>
      obtain ⟨⟨w, es⟩, hstep, he⟩ := Option.bind_eq_some_iff.mp hw
      simp only at he
      split_ifs at he with hterm
      obtain he := Option.some.inj he
      by_cases hj : j = i
      · subst hj
        refine Or.inl ⟨inp, es, by simp [Op.inputs], ?_⟩
        rw [← he, Function.update_self]
        exact hstep
      · refine Or.inr ⟨by simp [Op.inputs, hj], ?_⟩
        rw [← he, Function.update_of_ne (Ne.symm hj)]
  | _ =>
      obtain he := Option.some.inj hw
      exact Or.inr ⟨rfl, by rw [← he]⟩

theorem run_worker (hr : (system S W).run s h = some s') (i : ℕ) :
    ∃ es, (Worker.lts W).run (s.mem.workers i, []) (inputs i h) =
      some (s'.mem.workers i, es) := by
  refine Lts.history_induction (P := fun h s' => ∃ es,
    (Worker.lts W).run (s.mem.workers i, []) (inputs i h) = some (s'.mem.workers i, es))
    ⟨[], rfl⟩ ?_ hr
  rintro h u ⟨t, o⟩ u' - ⟨es, ih⟩ hs
  have happ : inputs i (h ++ [(t, o)]) = inputs i h ++ o.inputs i := by simp [inputs]
  rw [happ]
  rcases step_worker hs i with ⟨inp, es', hinp, hstep⟩ | ⟨hinp, hw⟩
  · rw [hinp]
    refine ⟨es ++ es', (Lts.run_snoc_iff _).mpr ⟨_, ih, ?_⟩⟩
    exact Option.map_eq_some_iff.mpr ⟨_, hstep, rfl⟩
  · rw [hinp, List.append_nil, hw]
    exact ⟨es, ih⟩

theorem run_limit (hr : (system S W).run s h = some s') {i : ℕ}
    (hrun : (s'.mem.workers i).running = true) :
    (s'.mem.workers i).maxOutstandingRequests =
      (takes i h).foldl (fun m e => e.limit m) (s.mem.workers i).maxOutstandingRequests := by
  obtain ⟨es, hw⟩ := run_worker hr i
  rw [takes_eq_filterMap]
  exact (Worker.run_controls hw hrun).1

theorem run_phase (hr : (system S W).run s h = some s') {i : ℕ}
    (hrun : (s'.mem.workers i).running = true) :
    (s'.mem.workers i).phase =
      (takes i h).foldl (fun p e => e.phase p) (s.mem.workers i).phase := by
  obtain ⟨es, hw⟩ := run_worker hr i
  rw [takes_eq_filterMap]
  exact (Worker.run_controls hw hrun).2

/-- The phase of a worker that consumes its queue is decided by the messages it took, even if
it does not run any more. -/
theorem run_consuming (hr : (system S W).run s h = some s') {i : ℕ}
    (hcons : (s'.mem.workers i).consuming = true) :
    (s'.mem.workers i).phase =
      (takes i h).foldl (fun p e => e.phase p) (s.mem.workers i).phase := by
  obtain ⟨es, hw⟩ := run_worker hr i
  rw [takes_eq_filterMap]
  exact Worker.run_consuming hw hcons

/-- A worker that has stopped does not run again, and keeps its limit. -/
theorem run_stopped (hr : (system S W).run s h = some s') {i : ℕ}
    (hstop : (s.mem.workers i).running = false) :
    (s'.mem.workers i).running = false ∧
      (s'.mem.workers i).maxOutstandingRequests = (s.mem.workers i).maxOutstandingRequests := by
  obtain ⟨es, hw⟩ := run_worker hr i
  exact Worker.run_stopped hw hstop

theorem run_limit_eq (hr : (system S W).run s h = some s') {i : ℕ}
    (hall : ∀ e ∈ takes i h, e.limit (s.mem.workers i).maxOutstandingRequests =
      (s.mem.workers i).maxOutstandingRequests) :
    (s'.mem.workers i).maxOutstandingRequests = (s.mem.workers i).maxOutstandingRequests := by
  obtain ⟨es, hw⟩ := run_worker hr i
  rw [takes_eq_filterMap] at hall
  exact Worker.run_limit_eq hw hall

/-- A queue is FIFO: what was in it and what was put is taken, in order, or still in it. -/
theorem run_fifo (hr : (system S W).run s h = some s') (i : ℕ) :
    s.mem.scheduler.queues i ++ puts i h = takes i h ++ s'.mem.scheduler.queues i := by
  refine Lts.history_induction (P := fun h (s' : System ω) =>
    s.mem.scheduler.queues i ++ puts i h = takes i h ++ s'.mem.scheduler.queues i) ?_ ?_ hr
  · simp [puts, takes]
  · rintro h u ⟨t, o⟩ u' - ih hs
    have hq := Scheduler.access_queues (step_scheduler hs) i
    rw [puts_snoc, takes_snoc, ← List.append_assoc, ih, List.append_assoc, hq,
      ← List.append_assoc]

end runs

end Treadmill
