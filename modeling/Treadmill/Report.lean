import Treadmill.Delivery

/-! # What the final report says about errors

A worker counts failed replies and uncaught errors in tallies of its own and pushes them to
the shared counters when it reaches the end of `sendRequest` (`Worker.estimate`).  Errors
after the last such push never arrive: nothing pushes on `STOP`, on the null request or on a
reply (`late_failure_not_reported`).

`Meter` is what the two tallies have in common; `Meter.Agrees` ties a tally and the shared
counter to the log of effects. -/

namespace Treadmill

variable {ω ρ : Type}

/-! ### Meters -/

theorem sum_map_eq_zero {es : List (Effect ρ)} {f : Effect ρ → ℕ} (h : ∀ e ∈ es, f e = 0) :
    (es.map f).sum = 0 := by
  apply List.sum_eq_zero
  intro n hn
  obtain ⟨e, he, rfl⟩ := List.mem_map.mp hn
  exact h e he

/-- A tally of errors by class, the effects it counts, and what an effect adds to the shared
counter. -/
structure Meter (ω ρ : Type) where
  tally : Worker ω → Tally String
  fails : String → Effect ρ → Bool
  adds : String → Effect ρ → ℕ

namespace Meter

/-- `n_exceptions_by_type_` and `exceptions_statistic_`. -/
def exceptions : Meter ω ρ where
  tally := Worker.nExceptionsByType
  fails className
    | .reply _ (.exception c) => c = className
    | _ => false
  adds className
    | .increaseExceptions n c => if c = className then n else 0
    | _ => 0

/-- `n_uncaught_exceptions_by_type_` and `uncaught_exceptions_statistic_`. -/
def uncaughtExceptions : Meter ω ρ where
  tally := Worker.nUncaughtExceptionsByType
  fails className
    | .uncaught _ c => c = className
    | _ => false
  adds className
    | .increaseUncaughtExceptions n c => if c = className then n else 0
    | _ => 0

variable (m : Meter ω ρ) {w w' w'' : Worker ω} {es es' : List (Effect ρ)}

/-- The effects count errors and push none. -/
structure Grows (w w' : Worker ω) (es : List (Effect ρ)) : Prop where
  noEstimate : ∀ e ∈ es, e.isEstimate = false
  noAdds : ∀ className, ∀ e ∈ es, m.adds className e = 0
  count : ∀ className,
    (m.tally w').count className = (m.tally w).count className + es.countP (m.fails className)

/-- The effects push all the errors counted so far. -/
structure Flushes (w w' : Worker ω) (es : List (Effect ρ)) : Prop where
  estimate : ∃ t rest, es = .estimate t :: rest ∧ ∀ e ∈ rest, e.isEstimate = false
  noFails : ∀ className, es.countP (m.fails className) = 0
  adds : ∀ className, (es.map (m.adds className)).sum = (m.tally w).count className
  count : ∀ className, (m.tally w').count className = 0

/-- The log `l` agrees with the tally and the shared counter. -/
structure Agrees (w : Worker ω) (l : List (Effect ρ)) : Prop where
  count : ∀ className,
    (m.tally w).count className = (sinceLast Effect.isEstimate l).countP (m.fails className)
  total : ∀ className,
    (l.map (m.adds className)).sum + (m.tally w).count className = l.countP (m.fails className)

variable {m} {l : List (Effect ρ)}

theorem Grows.trans (h : m.Grows w w' es) (h' : m.Grows w' w'' es') :
    m.Grows w w'' (es ++ es') where
  noEstimate e he := (List.mem_append.mp he).elim (h.noEstimate e) (h'.noEstimate e)
  noAdds className e he :=
    (List.mem_append.mp he).elim (h.noAdds className e) (h'.noAdds className e)
  count className := by
    rw [h'.count, h.count, List.countP_append]
    omega

theorem Agrees.grow (ha : m.Agrees w l) (h : m.Grows w w' es) : m.Agrees w' (l ++ es) where
  count className := by
    rw [sinceLast_append_of_forall l h.noEstimate, List.countP_append, h.count, ha.count]
  total className := by
    have hadds := sum_map_eq_zero (h.noAdds className)
    have := ha.total className
    rw [List.map_append, List.sum_append, List.countP_append, hadds, h.count]
    omega

theorem Agrees.flush (ha : m.Agrees w l) (h : m.Flushes w w' es) : m.Agrees w' (l ++ es) where
  count className := by
    obtain ⟨t, rest, rfl, hrest⟩ := h.estimate
    have hnone := h.noFails className
    rw [List.countP_cons] at hnone
    rw [List.append_cons, sinceLast_append_of_forall _ hrest, sinceLast_snoc_of_pos _ rfl,
      h.count, List.nil_append]
    omega
  total className := by
    have := ha.total className
    rw [List.map_append, List.sum_append, List.countP_append, h.adds, h.noFails, h.count]
    omega

/-! ### The laws of both meters -/

/-- Neither an error nor a push. -/
def Inert (e : Effect ρ) : Prop :=
  e.isEstimate = false ∧ ∀ className, m.fails className e = false ∧ m.adds className e = 0

theorem grows_of_inert (he : ∀ e ∈ es, m.Inert e) (ht : m.tally w' = m.tally w) :
    m.Grows w w' es where
  noEstimate e hm := (he e hm).1
  noAdds className e hm := ((he e hm).2 className).2
  count className := by
    have hzero : es.countP (m.fails className) = 0 := by
      rw [List.countP_eq_zero]
      intro e hm
      simp [((he e hm).2 className).1]
    rw [ht, hzero, Nat.add_zero]

/-- What the proofs below need of a meter. -/
structure Lawful (m : Meter ω ρ) : Prop where
  tally_congr : ∀ w w' : Worker ω, w'.nExceptionsByType = w.nExceptionsByType →
    w'.nUncaughtExceptionsByType = w.nUncaughtExceptionsByType → m.tally w' = m.tally w
  inert : ∀ e : Effect ρ, (e = .reset ∨ e = .stopConsuming ∨ e = .terminateEarly ∨
    e = .getNextRequest ∨ ∃ connection request, e = .sendRequest connection request) → m.Inert e
  complete : ∀ {w w' : Worker ω} {es : List (Effect ρ)} {c : Completion},
    w.complete c = some (w', es) → m.Grows w w' es
  estimate : ∀ {w w' : Worker ω} {es : List (Effect ρ)} {t : ℤ},
    w.estimate t = (w', es) → m.Flushes w w' es

theorem exceptions_complete {c : Completion} (h : w.complete c = some (w', es)) :
    (exceptions : Meter ω ρ).Grows w w' es := by
  cases c with
  | reply request t recvTime =>
      obtain ⟨sendTime, -, he⟩ := Option.map_eq_some_iff.mp h
      cases he
      -- the latency first, then the reply
      have hnone : (exceptions : Meter ω ρ).tally w = exceptions.tally w := rfl
      refine Grows.trans (grows_of_inert ?_ hnone) ⟨?_, ?_, ?_⟩
      · split_ifs <;> simp [Inert, exceptions, Effect.isEstimate]
      · simp [Effect.isEstimate]
      · simp [exceptions]
      · intro className
        cases t with
        | value => simp [exceptions]
        | exception c => simp [exceptions, List.countP_cons, Tally.count_bump, eq_comm]
  | future request error =>
      simp only [Worker.complete] at h
      split_ifs at h
      cases error with
      | none =>
          cases h
          exact grows_of_inert (by simp) rfl
      | some className =>
          cases h
          exact grows_of_inert (by simp [Inert, exceptions, Effect.isEstimate]) rfl

theorem uncaughtExceptions_complete {c : Completion} (h : w.complete c = some (w', es)) :
    (uncaughtExceptions : Meter ω ρ).Grows w w' es := by
  cases c with
  | reply request t recvTime =>
      obtain ⟨sendTime, -, he⟩ := Option.map_eq_some_iff.mp h
      cases he
      refine grows_of_inert ?_ rfl
      split_ifs <;> simp [Inert, uncaughtExceptions, Effect.isEstimate]
  | future request error =>
      simp only [Worker.complete] at h
      split_ifs at h
      cases error with
      | none =>
          cases h
          exact grows_of_inert (by simp) rfl
      | some className =>
          cases h
          refine ⟨by simp [Effect.isEstimate], by simp [uncaughtExceptions], fun c => ?_⟩
          simp [uncaughtExceptions, List.countP_cons, Tally.count_bump, eq_comm]

theorem estimate_effects {t : ℤ} (h : w.estimate t = (w', es)) :
    w'.nExceptionsByType = .empty ∧ w'.nUncaughtExceptionsByType = .empty ∧
    ∃ samples : List (Effect ρ),
      (samples = [] ∨ ∃ v k, samples = [.throughput v, .outstanding k]) ∧
      es = .estimate t :: (samples ++
        w.nExceptionsByType.entries.map (fun p => Effect.increaseExceptions p.2 p.1) ++
        w.nUncaughtExceptionsByType.entries.map
          (fun p => Effect.increaseUncaughtExceptions p.2 p.1) ++
        [Effect.setWorkerCounter w.outstandingRequests]) := by
  unfold Worker.estimate at h
  split at h
  rename_i w₁ samples hs
  cases h
  refine ⟨rfl, rfl, samples, ?_, rfl⟩
  unfold Worker.sample at hs
  dsimp only at hs
  split_ifs at hs <;> cases hs
  · exact Or.inr ⟨_, _, rfl⟩
  · exact Or.inl rfl

theorem estimate_head {t : ℤ} (h : w.estimate t = (w', es)) :
    ∃ rest, es = .estimate t :: rest ∧ ∀ e ∈ rest, e.isEstimate = false := by
  obtain ⟨-, -, samples, hs, rfl⟩ := estimate_effects h
  refine ⟨_, rfl, fun e he => ?_⟩
  simp only [List.mem_append, List.mem_map, List.mem_singleton] at he
  rcases he with ((he | ⟨p, -, rfl⟩) | ⟨p, -, rfl⟩) | rfl
  · rcases hs with rfl | ⟨v, k, rfl⟩
    · cases he
    · simp only [List.mem_cons, List.not_mem_nil, or_false] at he
      rcases he with rfl | rfl <;> rfl
  · rfl
  · rfl
  · rfl

theorem exceptions_estimate {t : ℤ} (h : w.estimate t = (w', es)) :
    (exceptions : Meter ω ρ).Flushes w w' es := by
  have hhead := estimate_head h
  obtain ⟨hempty, -, samples, hs, rfl⟩ := estimate_effects h
  refine ⟨⟨t, hhead⟩, fun className => ?_, fun className => ?_, fun className => ?_⟩
  · rcases hs with rfl | ⟨v, k, rfl⟩ <;>
      simp [exceptions, List.countP_append, List.countP_map, Function.comp_def]
  · have := w.nExceptionsByType.sum_entries className
    rcases hs with rfl | ⟨v, k, rfl⟩ <;>
      simpa [exceptions, Function.comp_def] using this
  · simp [exceptions, hempty]

theorem uncaughtExceptions_estimate {t : ℤ} (h : w.estimate t = (w', es)) :
    (uncaughtExceptions : Meter ω ρ).Flushes w w' es := by
  have hhead := estimate_head h
  obtain ⟨-, hempty, samples, hs, rfl⟩ := estimate_effects h
  refine ⟨⟨t, hhead⟩, fun className => ?_, fun className => ?_, fun className => ?_⟩
  · rcases hs with rfl | ⟨v, k, rfl⟩ <;>
      simp [uncaughtExceptions, List.countP_append, List.countP_map, Function.comp_def]
  · have := w.nUncaughtExceptionsByType.sum_entries className
    rcases hs with rfl | ⟨v, k, rfl⟩ <;>
      simpa [uncaughtExceptions, Function.comp_def] using this
  · simp [uncaughtExceptions, hempty]

theorem lawful_exceptions : Lawful (exceptions : Meter ω ρ) where
  tally_congr _ _ h _ := h
  inert e he := by
    rcases he with rfl | rfl | rfl | rfl | ⟨connection, request, rfl⟩ <;>
      exact ⟨rfl, fun _ => ⟨rfl, rfl⟩⟩
  complete := exceptions_complete
  estimate := exceptions_estimate

theorem lawful_uncaughtExceptions : Lawful (uncaughtExceptions : Meter ω ρ) where
  tally_congr _ _ _ h := h
  inert e he := by
    rcases he with rfl | rfl | rfl | rfl | ⟨connection, request, rfl⟩ <;>
      exact ⟨rfl, fun _ => ⟨rfl, rfl⟩⟩
  complete := uncaughtExceptions_complete
  estimate := uncaughtExceptions_estimate

theorem Lawful.completeAll (hm : m.Lawful) {cs : List Completion}
    (h : w.completeAll cs = some (w', es)) : m.Grows w w' es := by
  refine Worker.completeAll_induction ?_ ?_ ?_ h
  · exact fun _ => grows_of_inert (by simp) rfl
  · exact fun _ _ _ _ _ h₁ h₂ => h₁.trans h₂
  · exact fun _ _ _ _ hc => hm.complete hc

theorem Agrees.step {W : Workload ω ρ} {inp : Worker.Input} (hm : m.Lawful)
    (ha : m.Agrees w l) (h : w.step W inp = some (w', es)) : m.Agrees w' (l ++ es) := by
  rcases Worker.step_cases h with ⟨env, workload, request, w₁, es₁, es₂, -, hc, he, rfl⟩ |
    ⟨workload, -, rfl, rfl⟩ | ⟨t, he⟩ | ⟨c, hc⟩ | hc
  · have hissue : m.Grows w (w.issue workload env.sendTime)
        [.getNextRequest, .sendRequest w.connIdx request] := by
      refine grows_of_inert (fun e he => hm.inert e ?_) (hm.tally_congr _ _ rfl rfl)
      simp only [List.mem_cons, List.not_mem_nil, or_false] at he
      rcases he with rfl | rfl <;> simp
    have := ((ha.grow hissue).grow (hm.completeAll hc)).flush (hm.estimate he)
    simpa using this
  · refine ha.grow (grows_of_inert (fun e he => hm.inert e ?_) (hm.tally_congr _ _ rfl rfl))
    simp only [List.mem_cons, List.not_mem_nil, or_false] at he
    rcases he with rfl | rfl <;> simp
  · exact ha.flush (hm.estimate he)
  · exact ha.grow (hm.complete hc)
  · refine ha.grow (grows_of_inert (fun e he => hm.inert e ?_)
      (hm.tally_congr _ _ hc.nExceptionsByType hc.nUncaughtExceptionsByType))
    rcases hc.effects with rfl | rfl | rfl
    · cases he
    · exact Or.inl (List.mem_singleton.mp he)
    · exact Or.inr (Or.inl (List.mem_singleton.mp he))

end Meter

/-! ### The report -/

/-- A failed reply or an uncaught error. -/
def Effect.isFailure : Effect ρ → Bool
  | .reply _ (.exception _) => true
  | .uncaught _ _ => true
  | _ => false

/-- Everything that failed is in the shared counters, and nothing is left in the worker. -/
structure Reported (w : Worker ω) (l : List (Effect ρ)) : Prop where
  exceptions : ∀ className, (l.map (Meter.exceptions (ω := ω).adds className)).sum =
    l.countP (Meter.exceptions (ω := ω).fails className)
  uncaughtExceptions : ∀ className,
    (l.map (Meter.uncaughtExceptions (ω := ω).adds className)).sum =
      l.countP (Meter.uncaughtExceptions (ω := ω).fails className)
  nExceptionsByType : w.nExceptionsByType = .empty
  nUncaughtExceptionsByType : w.nUncaughtExceptionsByType = .empty

section runs
variable {W : Workload ω ρ} {numberOfWorkers : ℤ} {numberOfConnections : ℕ}
  {maxOutstandingRequests : Int32} {workload : ω} {now : ℤ} {w : Worker ω}
  {l : List (Effect ρ)} {h : List Worker.Input}

theorem agrees_run {m : Meter ω ρ} (hm : m.Lawful)
    (hstart : m.tally (.start numberOfWorkers numberOfConnections maxOutstandingRequests
      workload now) = .empty)
    (hr : (Worker.lts W).run (.start numberOfWorkers numberOfConnections
      maxOutstandingRequests workload now, []) h = some (w, l)) : m.Agrees w l := by
  refine Lts.invariant (m := Worker.lts W) (P := fun s => m.Agrees s.1 s.2) ?_ ?_ hr
  · rintro ⟨w, l⟩ inp ⟨w', l'⟩ ha hs
    obtain ⟨⟨w₁, es⟩, hstep, he⟩ := Option.map_eq_some_iff.mp hs
    cases he
    exact Meter.Agrees.step hm ha hstep
  · constructor
    · intro className
      simp [hstart]
    · intro className
      simp [hstart]

/-- A meter is empty exactly when nothing it counts happened since the last estimate. -/
theorem Meter.Agrees.tally_eq_empty_iff {m : Meter ω ρ} (ha : m.Agrees w l) :
    m.tally w = .empty ↔
      ∀ className, ∀ e ∈ sinceLast Effect.isEstimate l, m.fails className e = false := by
  rw [Tally.eq_empty_iff]
  apply forall_congr'
  intro className
  rw [ha.count, List.countP_eq_zero]
  simp

theorem isFailure_eq_false_iff (e : Effect ρ) : e.isFailure = false ↔
    ∀ className, Meter.exceptions (ω := ω).fails className e = false ∧
      Meter.uncaughtExceptions (ω := ω).fails className e = false := by
  cases e with
  | reply request t =>
      cases t <;> simp [Effect.isFailure, Meter.exceptions, Meter.uncaughtExceptions]
  | uncaught request className =>
      simp [Effect.isFailure, Meter.exceptions, Meter.uncaughtExceptions]
  | _ => simp [Effect.isFailure, Meter.exceptions, Meter.uncaughtExceptions]

theorem reported_iff_of_agrees (hx : (Meter.exceptions (ω := ω)).Agrees w l)
    (hu : (Meter.uncaughtExceptions (ω := ω)).Agrees w l) :
    Reported w l ↔ ∀ e ∈ sinceLast Effect.isEstimate l, e.isFailure = false := by
  have hempty : w.nExceptionsByType = .empty ∧ w.nUncaughtExceptionsByType = .empty ↔
      ∀ e ∈ sinceLast Effect.isEstimate l, e.isFailure = false := by
    rw [show w.nExceptionsByType = Meter.exceptions (ρ := ρ).tally w from rfl,
      show w.nUncaughtExceptionsByType = Meter.uncaughtExceptions (ρ := ρ).tally w from rfl,
      hx.tally_eq_empty_iff, hu.tally_eq_empty_iff]
    simp only [isFailure_eq_false_iff (ω := ω)]
    constructor
    · rintro ⟨h1, h2⟩ e he className
      exact ⟨h1 className e he, h2 className e he⟩
    · intro h0
      exact ⟨fun className e he => (h0 e he className).1,
        fun className e he => (h0 e he className).2⟩
  constructor
  · intro hrep
    exact hempty.mp ⟨hrep.nExceptionsByType, hrep.nUncaughtExceptionsByType⟩
  · intro h0
    obtain ⟨h1, h2⟩ := hempty.mpr h0
    refine ⟨fun className => ?_, fun className => ?_, h1, h2⟩
    · have ht := hx.total className
      rw [show Meter.exceptions (ρ := ρ).tally w = .empty from h1] at ht
      simpa using ht
    · have ht := hu.total className
      rw [show Meter.uncaughtExceptions (ρ := ρ).tally w = .empty from h2] at ht
      simpa using ht

/-- **What is missing from the final report**: in every state of every run of a worker, in
particular when it has no more work, everything that failed is reported exactly when nothing
failed after the worker last reached the end of `sendRequest`. -/
theorem reported_iff_no_failure_since_estimate
    (hr : (Worker.lts W).run (.start numberOfWorkers numberOfConnections
      maxOutstandingRequests workload now, []) h = some (w, l)) :
    Reported w l ↔ ∀ e ∈ sinceLast Effect.isEstimate l, e.isFailure = false :=
  reported_iff_of_agrees (agrees_run Meter.lawful_exceptions rfl hr)
    (agrees_run Meter.lawful_uncaughtExceptions rfl hr)

end runs

/-- A request that fails before the end of the `sendRequest` that sent it, then `STOP`. -/
def earlyFailure : List Worker.Input :=
  [.message .sendRequest { completions := [.reply 0 (.exception "Timeout") 5] },
    .message .stop {}]

theorem reported_iff_no_failure_since_estimate_early_failure :
    ∃ w l, (Worker.lts constantWorkload).run (.start 1 1 1 () 0, []) earlyFailure = some (w, l) ∧
      w.hasMoreWork = false ∧ Reported w l := by
  have hrun : ((Worker.lts constantWorkload).run (.start 1 1 1 () 0, []) earlyFailure).any
      (fun s => !s.1.hasMoreWork &&
        (sinceLast Effect.isEstimate s.2).all fun e => !e.isFailure) = true := by
    decide +kernel
  obtain ⟨⟨w, l⟩, hr, hs⟩ := (Option.any_eq_true _ _).mp hrun
  rw [Bool.and_eq_true, List.all_eq_true] at hs
  obtain ⟨hdone, hall⟩ := hs
  refine ⟨w, l, hr, by simpa using hdone, ?_⟩
  exact (reported_iff_no_failure_since_estimate hr).mpr fun e he => by simpa using hall e he

/-- A request that is sent before `STOP` and fails after it. -/
def lateFailure : List Worker.Input :=
  [.message .sendRequest {}, .message .stop {}, .completion (.reply 0 (.exception "Timeout") 5)]

/-- The worker has no more work, and the failure is not in the report. -/
theorem late_failure_not_reported :
    ∃ w l, (Worker.lts constantWorkload).run (.start 1 1 1 () 0, []) lateFailure = some (w, l) ∧
      w.hasMoreWork = false ∧ ¬ Reported w l := by
  have hrun : ((Worker.lts constantWorkload).run (.start 1 1 1 () 0, []) lateFailure).any
      (fun s => !s.1.hasMoreWork && decide (s.1.nExceptionsByType.count "Timeout" = 1)) =
      true := by
    decide +kernel
  obtain ⟨⟨w, l⟩, hr, hs⟩ := (Option.any_eq_true _ _).mp hrun
  rw [Bool.and_eq_true, decide_eq_true_eq] at hs
  obtain ⟨hdone, hcount⟩ := hs
  refine ⟨w, l, hr, by simpa using hdone, fun hrep => ?_⟩
  rw [show w.nExceptionsByType = .empty from hrep.nExceptionsByType, Tally.count_empty] at hcount
  cases hcount

end Treadmill
