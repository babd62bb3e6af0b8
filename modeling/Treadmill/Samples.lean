import Mathlib.Tactic.Linarith
import Treadmill.Requests

/-! # What a worker shows of itself

The counter `worker.<id>.outstanding_requests` and the samples of throughput and outstanding
requests, over whole runs.  Whatever the order of messages and continuations, between two handlers
the counter shows `outstanding_requests_` (`Worker.Exports`), and a worker takes at most ten
samples of each statistic in a second of its clock (`Worker.Spaced`). -/

namespace Treadmill

namespace Effect

variable {ρ : Type}

/-- The value that an effect gives the worker's counter. -/
def exported : Effect ρ → Option ℤ
  | .setWorkerCounter v => some v
  | _ => none

def isThroughput : Effect ρ → Bool
  | .throughput _ => true
  | _ => false

def isOutstanding : Effect ρ → Bool
  | .outstanding _ => true
  | _ => false

/-- The reading of the clock at the end of a `sendRequest`. -/
def estimated : Effect ρ → Option ℤ
  | .estimate t => some t
  | _ => none

end Effect

namespace Worker

variable {ω ρ : Type} {W : Workload ω ρ} {w w' w'' : Worker ω} {es es' : List (Effect ρ)}

/-! ### The counter -/

/-- The counter follows `outstanding_requests_` through these effects. -/
def Exports (w w' : Worker ω) (es : List (Effect ρ)) : Prop :=
  (es.filterMap Effect.exported).getLast?.getD w.outstandingRequests = w'.outstandingRequests

theorem Exports.refl (w : Worker ω) : Exports w w ([] : List (Effect ρ)) := rfl

theorem Exports.trans (h : Exports w w' es) (h' : Exports w' w'' es') :
    Exports w w'' (es ++ es') := by
  unfold Exports at *
  rw [List.filterMap_append, List.getLast?_append]
  cases hlast : (es'.filterMap Effect.exported).getLast? with
  | none =>
      rw [hlast] at h'
      exact h.trans h'
  | some v =>
      rw [hlast] at h'
      exact h'

theorem complete_exports {c : Completion} (h : w.complete c = some (w', es)) :
    Exports w w' es := by
  cases c with
  | reply request t recvTime =>
      obtain ⟨sendTime, -, he⟩ := Option.map_eq_some_iff.mp h
      cases he
      unfold Exports
      rw [List.filterMap_append, List.getLast?_append]
      rfl
  | future request error =>
      obtain ⟨-, he⟩ := Option.ite_none_right_eq_some.mp h
      cases error <;> cases he <;> rfl

theorem estimate_exports {t : ℤ} (h : w.estimate t = (w', es)) :
    (es.filterMap Effect.exported).getLast? = some w'.outstandingRequests := by
  unfold estimate at h
  split at h
  rename_i w₁ samples hs
  have hout : w₁.outstandingRequests = w.outstandingRequests := by
    unfold sample at hs
    dsimp only at hs
    split_ifs at hs <;> cases hs <;> rfl
  cases h
  rw [List.filterMap_append, List.getLast?_append]
  exact congrArg some hout.symm

theorem Exports.of_getLast? (h : (es.filterMap Effect.exported).getLast? =
    some w'.outstandingRequests) (w : Worker ω) : Exports w w' es := by
  rw [Exports, h]
  rfl

theorem step_exports {inp : Input} (h : w.step W inp = some (w', es)) : Exports w w' es := by
  rcases step_cases h with ⟨env, workload, request, w₁, es₁, es₂, -, -, he, rfl⟩ |
    ⟨workload, -, rfl, rfl⟩ | ⟨t, he⟩ | ⟨c, hc⟩ | hc
  · refine Exports.of_getLast? ?_ w
    change ((es₁ ++ es₂).filterMap Effect.exported).getLast? = _
    rw [List.filterMap_append, List.getLast?_append, estimate_exports he]
    rfl
  · rfl
  · exact Exports.of_getLast? (estimate_exports he) w
  · exact complete_exports hc
  · have hout := hc.outstandingRequests
    rcases hc.effects with rfl | rfl | rfl <;> exact hout.symm

/-! ### The samples -/

/-- The samples among these effects were a tenth of a second apart, by the readings that the
estimates made. -/
structure Spaced (w w' : Worker ω) (es : List (Effect ρ)) : Prop where
  paired : es.countP Effect.isOutstanding = es.countP Effect.isThroughput
  spaced : (100000000 * es.countP Effect.isThroughput : ℤ) ≤
    w'.lastThroughputTime - w.lastThroughputTime
  reading : w'.lastThroughputTime = w.lastThroughputTime ∨
    w'.lastThroughputTime ∈ es.filterMap Effect.estimated

theorem Spaced.refl (w : Worker ω) : Spaced w w ([] : List (Effect ρ)) :=
  ⟨rfl, by simp, Or.inl rfl⟩

theorem Spaced.trans (h : Spaced w w' es) (h' : Spaced w' w'' es') :
    Spaced w w'' (es ++ es') where
  paired := by rw [List.countP_append, List.countP_append, h.paired, h'.paired]
  spaced := by
    have h₁ := h.spaced
    have h₂ := h'.spaced
    rw [List.countP_append]
    push_cast
    omega
  reading := by
    rw [List.filterMap_append, List.mem_append]
    rcases h'.reading with h₂ | h₂
    · rw [h₂]
      exact h.reading.imp_right Or.inl
    · exact Or.inr (Or.inr h₂)

theorem Spaced.of_eq (ht : w'.lastThroughputTime = w.lastThroughputTime)
    (hes : ∀ e ∈ es, e.isThroughput = false ∧ e.isOutstanding = false) : Spaced w w' es := by
  have hthroughput : es.countP Effect.isThroughput = 0 :=
    List.countP_eq_zero.mpr fun e he => by simp [(hes e he).1]
  have houtstanding : es.countP Effect.isOutstanding = 0 :=
    List.countP_eq_zero.mpr fun e he => by simp [(hes e he).2]
  refine ⟨by rw [hthroughput, houtstanding], ?_, Or.inl ht⟩
  rw [hthroughput, ht]
  simp

theorem complete_spaced {c : Completion} (h : w.complete c = some (w', es)) : Spaced w w' es := by
  have heffects := (complete_confined h).effects
  refine Spaced.of_eq ?_ fun e he => ?_
  · cases c with
    | reply request t recvTime =>
        obtain ⟨sendTime, -, he⟩ := Option.map_eq_some_iff.mp h
        cases he
        rfl
    | future request error =>
        obtain ⟨-, he⟩ := Option.ite_none_right_eq_some.mp h
        cases error <;> cases he <;> rfl
  · have hkind := heffects e he
    cases e <;> first | exact ⟨rfl, rfl⟩ | cases hkind

theorem completeAll_spaced {cs : List Completion} (h : w.completeAll cs = some (w', es)) :
    Spaced w w' es := by
  refine completeAll_induction ?_ ?_ ?_ h
  · exact Spaced.refl
  · exact fun _ _ _ _ _ h₁ h₂ => h₁.trans h₂
  · exact fun _ _ _ _ hc => complete_spaced hc

theorem tenth_le {d : ℤ} (h : (1 / 10 : ℚ) ≤ (d : ℚ) / 1000000000) : 100000000 ≤ d := by
  have hd : (100000000 : ℚ) ≤ d := by linarith
  exact_mod_cast hd

theorem sample_spaced {t : ℤ} (h : w.sample t = (w', es)) :
    es.countP Effect.isOutstanding = es.countP Effect.isThroughput ∧
      (100000000 * es.countP Effect.isThroughput : ℤ) ≤
        w'.lastThroughputTime - w.lastThroughputTime ∧
      (w'.lastThroughputTime = w.lastThroughputTime ∨ w'.lastThroughputTime = t) := by
  unfold sample at h
  dsimp only at h
  split_ifs at h with hdelta
  · cases h
    exact ⟨rfl, tenth_le hdelta, Or.inr rfl⟩
  · cases h
    exact ⟨rfl, by simp, Or.inl rfl⟩

theorem estimate_spaced {t : ℤ} (h : w.estimate t = (w', es)) : Spaced w w' es := by
  unfold estimate at h
  split at h
  rename_i w₁ samples hs
  obtain ⟨hpaired, hspaced, hreading⟩ := sample_spaced hs
  cases h
  refine ⟨?_, ?_, ?_⟩
  · simp only [List.cons_append, List.countP_append, List.countP_cons, List.countP_map, hpaired]
    simp [Effect.isOutstanding, Effect.isThroughput, Function.comp_def]
  · simp only [List.cons_append, List.countP_append, List.countP_cons, List.countP_map]
    simpa [Effect.isThroughput, Function.comp_def] using hspaced
  · rcases hreading with ht | ht
    · exact Or.inl ht
    · refine Or.inr (List.mem_filterMap.mpr ⟨.estimate t, by simp, ?_⟩)
      exact congrArg some ht.symm

theorem step_spaced {inp : Input} (h : w.step W inp = some (w', es)) : Spaced w w' es := by
  cases inp with
  | completion c => exact complete_spaced h
  | stop =>
      cases h
      exact Spaced.of_eq rfl (by simp)
  | message event env =>
      obtain ⟨-, h⟩ := Option.ite_none_right_eq_some.mp h
      unfold messageAvailable at h
      split_ifs at h with hstop
      · cases h
        exact Spaced.of_eq rfl (by simp [Effect.isThroughput, Effect.isOutstanding])
      · obtain ⟨eventType, extraData⟩ := event
        cases eventType with
        | sendRequest =>
            rcases sendRequest_cases h with ⟨workload, request, w₁, es₁, es₂, -, hc, he, rfl⟩ |
              ⟨workload, -, rfl, rfl⟩ | he
            · have hissue : Spaced w (w.issue workload env.sendTime)
                  [.getNextRequest, .sendRequest w.connIdx request] :=
                Spaced.of_eq rfl (by simp [Effect.isThroughput, Effect.isOutstanding])
              exact hissue.trans ((completeAll_spaced hc).trans (estimate_spaced he))
            · exact Spaced.of_eq rfl (by simp [Effect.isThroughput, Effect.isOutstanding])
            · exact estimate_spaced he
        | setMaxOutstanding =>
            cases extraData <;> cases h <;> exact Spaced.of_eq rfl (by simp)
        | setPhase => cases extraData <;> cases h <;> exact Spaced.of_eq rfl (by simp)
        | stop => exact absurd (Or.inl rfl) hstop
        | reset =>
            cases h
            exact Spaced.of_eq rfl (by simp [Effect.isThroughput, Effect.isOutstanding])

theorem run_exports_spaced {ins : List Input} (hr : (lts W).run (w, []) ins = some (w', es)) :
    Exports w w' es ∧ Spaced w w' es := by
  refine Lts.invariant (m := lts W)
    (P := fun s : Worker ω × List (Effect ρ) => Exports w s.1 s.2 ∧ Spaced w s.1 s.2)
    ?_ ⟨Exports.refl w, Spaced.refl w⟩ hr
  rintro ⟨u, us⟩ inp ⟨u', us'⟩ ⟨hexports, hspaced⟩ hs
  obtain ⟨⟨u'', es'⟩, hstep, he⟩ := Option.map_eq_some_iff.mp hs
  cases he
  exact ⟨hexports.trans (step_exports hstep), hspaced.trans (step_spaced hstep)⟩

end Worker

section runs
variable {ω ρ : Type} {S : Setup} {W : Workload ω ρ} {workload : ω} {clock : ℤ}
  {h : History} {s : System ω}

/-- **A worker shows its state.**  In every reachable state the counter that a worker exports is
its `outstanding_requests_`, its samples of throughput and outstanding requests are as many, and
`n` of them took at least `n` tenths of a second from the start of the sender to the reading of
the clock that the last one was made at. -/
theorem counter_and_samples (hr : Reaches S W workload clock h s) (i : ℕ) :
    ∃ es,
      (Worker.lts W).run (((start S workload clock).mem).workers i, []) (inputs i h) =
        some (s.mem.workers i, es) ∧
      (es.filterMap Effect.exported).getLast?.getD 0 = (s.mem.workers i).outstandingRequests ∧
      es.countP Effect.isOutstanding = es.countP Effect.isThroughput ∧
      (100000000 * es.countP Effect.isThroughput : ℤ) ≤
        (s.mem.workers i).lastThroughputTime - clock ∧
      ((s.mem.workers i).lastThroughputTime = clock ∨
        (s.mem.workers i).lastThroughputTime ∈ es.filterMap Effect.estimated) := by
  obtain ⟨es, hw⟩ := run_worker hr i
  obtain ⟨hexports, hspaced⟩ := Worker.run_exports_spaced hw
  exact ⟨es, hw, hexports, hspaced.paired, hspaced.spaced, hspaced.reading⟩

theorem counter_and_samples_inFlight :
    ∃ s, ∃ es : List (Effect Unit),
      Reaches (defaults 1) constantWorkload () 1 (opening ++ round 2 ++
        ([(.worker 0, .work 0 (.message .reset {}) false),
          (.worker 0, .work 0 (.message .sendRequest ⟨1, [], 200000001⟩) false)] : History)) s ∧
      (es.filterMap Effect.exported).getLast?.getD 0 = 1 ∧
      200000001 ∈ es.filterMap Effect.estimated := by
  have hrun : ((system (defaults 1) constantWorkload).run (start (defaults 1) () 1)
      (opening ++ round 2 ++
        ([(.worker 0, .work 0 (.message .reset {}) false),
          (.worker 0, .work 0 (.message .sendRequest ⟨1, [], 200000001⟩) false)] : History))).any
      (fun s => decide ((s.mem.workers 0).outstandingRequests = 1) &&
        decide ((s.mem.workers 0).lastThroughputTime = 200000001)) = true := by
    decide +kernel
  obtain ⟨s, hr, hs⟩ := (Option.any_eq_true _ _).mp hrun
  simp only [Bool.and_eq_true, decide_eq_true_eq] at hs
  obtain ⟨hout, ht⟩ := hs
  obtain ⟨es, -, hexported, -, -, hreading⟩ := counter_and_samples hr 0
  rw [hout] at hexported
  rw [ht] at hreading
  exact ⟨s, es, hr, hexported, hreading.resolve_left (by decide)⟩

end runs

end Treadmill
