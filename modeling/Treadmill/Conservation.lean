import Mathlib.Algebra.BigOperators.Group.Finset.Basic
import Mathlib.Algebra.Order.Field.Rat
import Mathlib.Data.Fintype.BigOperators
import Mathlib.Tactic.NormNum
import Mathlib.Tactic.Ring
import Treadmill.Lib.Threads
import Treadmill.Report
import Treadmill.Statistics

/-! # The statistics conserve replies

Any number of workers that share the statistics.  A handler of a worker is cut where it passes
its exceptions on: it runs up to that point (`Worker.head`), and then each increase of a shared
counter and each clearing of a map is a step of its own, between which the other workers take
theirs.  `Worker.step_eq_head` puts a handler together again.

A reply is counted in `n_throughput_requests_` until a throughput sample takes it over, and a
failed one in `n_exceptions_by_type_` until it is passed on.  The map is cleared only after all
its entries have been passed, so inside the loop it is the entries that are still to be
passed, and not the map, that make up the rest (`Sender.pending`). -/

namespace Treadmill

variable {ω ρ : Type}

/-! ### The head of a handler -/

namespace Worker

variable (W : Workload ω ρ)

/-- `Worker::sendRequest` up to the loops over the exceptions, and whether it reaches them. -/
def sendRequestHead (w : Worker ω) (env : SendEnv) :
    Option (Worker ω × List (Effect ρ) × Bool) :=
  if w.maySend then
    match W.getNextRequest w.phase w.workload with
    | (none, workload) =>
        some ({ w with workload := workload, running := false },
          [.getNextRequest, .terminateEarly], false)
    | (some request, workload) =>
        ((w.issue workload env.sendTime).completeAll env.completions).map fun (w', es) =>
          let (w'', samples) := w'.sample env.now
          (w'', .getNextRequest :: .sendRequest w.connIdx request ::
            (es ++ .estimate env.now :: samples), true)
  else
    let (w', samples) := w.sample env.now
    some (w', .estimate env.now :: samples, true)

/-- The message is one to send a request, and will be handled. -/
def asksToSend (w : Worker ω) (event : Event) : Bool :=
  w.consuming && w.running && decide (event.eventType = .sendRequest)

/-- A handler up to the loops over the exceptions, and whether it reaches them. -/
def head (w : Worker ω) : Input → Option (Worker ω × List (Effect ρ) × Bool)
  | .message event env =>
      if w.asksToSend event then w.sendRequestHead W env
      else (w.step W (.message event env)).map fun (w', es) => (w', es, false)
  | .completion c => (w.step W (.completion c)).map fun (w', es) => (w', es, false)
  | .stop => (w.step W .stop).map fun (w', es) => (w', es, false)

/-- The rest of a handler that reaches them: the exceptions are passed on and the maps
cleared. -/
def finish : Worker ω × List (Effect ρ) × Bool → Worker ω × List (Effect ρ)
  | (w, es, true) =>
      ({ w with nExceptionsByType := .empty, nUncaughtExceptionsByType := .empty },
        es ++ w.nExceptionsByType.entries.map (fun p => .increaseExceptions p.2 p.1)
          ++ w.nUncaughtExceptionsByType.entries.map (fun p => .increaseUncaughtExceptions p.2 p.1)
          ++ [.setWorkerCounter w.outstandingRequests])
  | (w, es, false) => (w, es)

variable {W} {w w' w'' : Worker ω} {es es' : List (Effect ρ)} {reached : Bool}

theorem estimate_eq_finish (w : Worker ω) (t : ℤ) : (w.estimate t : Worker ω × List (Effect ρ)) =
    finish ((w.sample (ρ := ρ) t).1, .estimate t :: (w.sample t).2, true) := by
  unfold estimate sample
  dsimp only
  split_ifs <;> rfl

theorem sendRequest_eq_head (w : Worker ω) (env : SendEnv) :
    w.sendRequest W env = (w.sendRequestHead W env).map finish := by
  unfold sendRequest sendRequestHead
  split_ifs
  · obtain ⟨request, workload⟩ := W.getNextRequest w.phase w.workload
    cases request with
    | none => rfl
    | some request =>
        simp only [Option.map_map]
        congr 1
        funext ⟨w', es⟩
        simp [estimate_eq_finish, finish]
  · rw [estimate_eq_finish]
    rfl

/-- **A handler is its head, and then the rest if the head reaches it.** -/
theorem step_eq_head (w : Worker ω) (inp : Input) :
    w.step W inp = (w.head W inp).map finish := by
  have hmap : ∀ x : Option (Worker ω × List (Effect ρ)),
      x = (x.map fun (w', es) => (w', es, false)).map finish := by
    intro x
    cases x <;> rfl
  cases inp with
  | completion c => exact hmap _
  | stop => exact hmap _
  | message event env =>
      rw [head]
      split_ifs with hask
      · simp only [asksToSend, Bool.and_eq_true, decide_eq_true_eq] at hask
        obtain ⟨⟨hcons, hrun⟩, hkind⟩ := hask
        rw [← sendRequest_eq_head, step, if_pos hcons, messageAvailable, if_neg (by simp [*])]
        simp only [hkind]
      · exact hmap _

/-- A handler that has nothing to do with requests and replies. -/
structure Aside (w w' : Worker ω) (es : List (Effect ρ)) : Prop where
  effects : es = [] ∨ es = [.reset] ∨ es = [.stopConsuming]
  numberOfWorkers : w'.numberOfWorkers = w.numberOfWorkers
  lastThroughputTime : w'.lastThroughputTime = w.lastThroughputTime
  nThroughputRequests : w'.nThroughputRequests = w.nThroughputRequests
  nExceptionsByType : w'.nExceptionsByType = w.nExceptionsByType
  nUncaughtExceptionsByType : w'.nUncaughtExceptionsByType = w.nUncaughtExceptionsByType

theorem message_aside {event : Event} {env : SendEnv} (hask : w.asksToSend event = false)
    (h : w.step W (.message event env) = some (w', es)) : Aside w w' es := by
  obtain ⟨hcons, h⟩ := Option.ite_none_right_eq_some.mp h
  unfold messageAvailable at h
  split_ifs at h with hstop
  · cases h
    constructor <;> simp
  · push Not at hstop
    obtain ⟨eventType, extraData⟩ := event
    cases eventType with
    | sendRequest => simp [asksToSend, hcons, hstop.2] at hask
    | reset =>
        cases h
        constructor <;> simp
    | stop =>
        cases h
        constructor <;> simp
    | setPhase =>
        cases extraData <;> cases h <;> constructor <;> simp
    | setMaxOutstanding =>
        cases extraData <;> cases h <;> constructor <;> simp [setMaxOutstanding]

/-- What the head of a handler does. -/
theorem head_cases {inp : Input} (h : w.head W inp = some (w', es, reached)) :
    (∃ env : SendEnv, ∃ workload request w₁ es₁ samples, reached = true ∧
      (w.issue workload env.sendTime).completeAll env.completions = some (w₁, es₁) ∧
      w₁.sample env.now = (w', samples) ∧
      es = .getNextRequest :: .sendRequest w.connIdx request ::
        (es₁ ++ .estimate env.now :: samples)) ∨
    (∃ workload, reached = false ∧ w' = { w with workload := workload, running := false } ∧
      es = [.getNextRequest, .terminateEarly]) ∨
    (∃ t samples, reached = true ∧ w.sample t = (w', samples) ∧ es = .estimate t :: samples) ∨
    (∃ c, reached = false ∧ w.complete c = some (w', es)) ∨
    (reached = false ∧ Aside w w' es) := by
  cases inp with
  | completion c =>
      obtain ⟨⟨w₁, es₁⟩, hc, he⟩ := Option.map_eq_some_iff.mp h
      cases he
      exact Or.inr (Or.inr (Or.inr (Or.inl ⟨c, rfl, hc⟩)))
  | stop =>
      cases h
      exact Or.inr (Or.inr (Or.inr (Or.inr ⟨rfl, by constructor <;> simp⟩)))
  | message event env =>
      rw [head] at h
      split_ifs at h with hask
      · unfold sendRequestHead at h
        split_ifs at h with hm
        · split at h
          · rename_i workload _
            cases h
            exact Or.inr (Or.inl ⟨workload, rfl, rfl, rfl⟩)
          · rename_i request workload _
            obtain ⟨⟨w₁, es₁⟩, hc, he⟩ := Option.map_eq_some_iff.mp h
            cases he
            exact Or.inl ⟨env, workload, request, w₁, es₁, _, rfl, hc, rfl, rfl⟩
        · cases h
          exact Or.inr (Or.inr (Or.inl ⟨env.now, _, rfl, rfl, rfl⟩))
      · obtain ⟨⟨w₁, es₁⟩, hs, he⟩ := Option.map_eq_some_iff.mp h
        cases he
        exact Or.inr (Or.inr (Or.inr (Or.inr ⟨rfl, message_aside (by simpa using hask) hs⟩)))

end Worker

/-! ### The throughput samples -/

/-- What the throughput samples of a log say: the clock at the last sample, the clock at the
last estimate, and the number of replies in all samples. -/
structure Samples where
  last : ℤ
  now : ℤ
  folded : ℚ

/-- A sample is the number of replies by the seconds since the last one, for all workers. -/
def Samples.add (numberOfWorkers : ℤ) (x : Samples) : Effect ρ → Samples
  | .estimate t => { x with now := t }
  | .throughput v =>
      ⟨x.now, x.now,
        x.folded + v / numberOfWorkers * (((x.now - x.last : ℤ) : ℚ) / 1000000000)⟩
  | _ => x

/-- The samples of a worker that starts at this reading of the clock. -/
def samples (numberOfWorkers start : ℤ) (l : List (Effect ρ)) : Samples :=
  l.foldl (Samples.add numberOfWorkers) ⟨start, start, 0⟩

/-- Neither an estimate nor a sample. -/
def Effect.IsUnsampled (e : Effect ρ) : Prop :=
  e.isEstimate = false ∧ ∀ v, e ≠ .throughput v

/-- Continuations count replies. -/
structure Replied (w w' : Worker ω) (es : List (Effect ρ)) : Prop where
  unsampled : ∀ e ∈ es, e.IsUnsampled
  numberOfWorkers : w'.numberOfWorkers = w.numberOfWorkers
  lastThroughputTime : w'.lastThroughputTime = w.lastThroughputTime
  nThroughputRequests :
    w'.nThroughputRequests = w.nThroughputRequests + es.countP Effect.isReply

/-- The replies of the log are in the samples, or still counted. -/
structure Sampled (n start : ℤ) (w : Worker ω) (l : List (Effect ρ)) : Prop where
  numberOfWorkers : w.numberOfWorkers = n
  last : (samples n start l).last = w.lastThroughputTime
  folded : (samples n start l).folded + w.nThroughputRequests = l.countP Effect.isReply

section samples
variable {w w' w'' : Worker ω} {es es' l : List (Effect ρ)} {n start : ℤ}

theorem samples_add_of_unsampled {e : Effect ρ} (he : e.IsUnsampled) (x : Samples) :
    x.add n e = x := by
  cases e with
  | estimate t => cases he.1
  | throughput v => exact absurd rfl (he.2 v)
  | _ => rfl

theorem samples_append (l k : List (Effect ρ)) :
    samples n start (l ++ k) = k.foldl (Samples.add n) (samples n start l) :=
  List.foldl_append

theorem samples_append_of_unsampled (l : List (Effect ρ)) (he : ∀ e ∈ es, e.IsUnsampled) :
    samples n start (l ++ es) = samples n start l := by
  rw [samples_append]
  generalize samples n start l = x
  induction es generalizing x with
  | nil => rfl
  | cons e es ih =>
      rw [List.foldl_cons, samples_add_of_unsampled (he e List.mem_cons_self)]
      exact ih (fun e' he' => he e' (List.mem_cons_of_mem _ he')) x

theorem Replied.trans (h : Replied w w' es) (h' : Replied w' w'' es') :
    Replied w w'' (es ++ es') where
  unsampled e he := (List.mem_append.mp he).elim (h.unsampled e) (h'.unsampled e)
  numberOfWorkers := h'.numberOfWorkers.trans h.numberOfWorkers
  lastThroughputTime := h'.lastThroughputTime.trans h.lastThroughputTime
  nThroughputRequests := by
    have h1 := h.nThroughputRequests
    have h2 := h'.nThroughputRequests
    rw [List.countP_append]
    push_cast
    omega

theorem complete_replied {c : Completion} (h : w.complete c = some (w', es)) :
    Replied w w' es := by
  cases c with
  | reply request t recvTime =>
      obtain ⟨sendTime, -, he⟩ := Option.map_eq_some_iff.mp h
      cases he
      constructor
      · intro e he
        rcases List.mem_append.mp he with he | he
        · split_ifs at he
          · obtain rfl := List.mem_singleton.mp he
            exact ⟨rfl, by simp⟩
          · cases he
        · simp only [List.mem_cons, List.not_mem_nil, or_false] at he
          rcases he with rfl | rfl <;> exact ⟨rfl, by simp⟩
      · rfl
      · rfl
      · rw [List.countP_append]
        split_ifs <;> simp [List.countP_cons, Effect.isReply]
  | future request error =>
      obtain ⟨-, he⟩ := Option.ite_none_right_eq_some.mp h
      cases error with
      | none =>
          cases he
          constructor <;> simp
      | some className =>
          cases he
          constructor <;> simp [Effect.IsUnsampled, Effect.isEstimate, Effect.isReply]

theorem completeAll_replied {cs : List Completion} (h : w.completeAll cs = some (w', es)) :
    Replied w w' es := by
  refine Worker.completeAll_induction ?_ ?_ ?_ h
  · intro w
    constructor <;> simp
  · exact fun _ _ _ _ _ h₁ h₂ => h₁.trans h₂
  · exact fun _ _ _ _ hc => complete_replied hc

theorem Sampled.replied (hs : Sampled n start w l) (h : Replied w w' es) :
    Sampled n start w' (l ++ es) where
  numberOfWorkers := h.numberOfWorkers.trans hs.numberOfWorkers
  last := by
    rw [samples_append_of_unsampled l h.unsampled, h.lastThroughputTime]
    exact hs.last
  folded := by
    have hfolded := hs.folded
    rw [samples_append_of_unsampled l h.unsampled, h.nThroughputRequests, List.countP_append]
    push_cast
    rw [← hfolded]
    ring

theorem Sampled.sample (hn : n ≠ 0) (hs : Sampled n start w l) {t : ℤ}
    (h : w.sample t = (w', es)) : Sampled n start w' (l ++ .estimate t :: es) := by
  have hlast := hs.last
  have hfolded := hs.folded
  unfold Worker.sample at h
  dsimp only at h
  split_ifs at h with hdue
  · cases h
    have hsnoc : samples n start (l ++ .estimate t ::
        [.throughput (w.nThroughputRequests /
          (((t - w.lastThroughputTime : ℤ) : ℚ) / 1000000000) * w.numberOfWorkers),
          Effect.outstanding (ρ := ρ) (w.outstandingRequests * w.numberOfWorkers)]) =
        ⟨t, t, (samples n start l).folded + w.nThroughputRequests⟩ := by
      rw [samples_append]
      simp only [List.foldl_cons, List.foldl_nil, Samples.add, hlast, hs.numberOfWorkers]
      have hn' : (n : ℚ) ≠ 0 := by exact_mod_cast hn
      have hdelta : ((t - w.lastThroughputTime : ℤ) : ℚ) / 1000000000 ≠ 0 := by
        intro hzero
        rw [hzero] at hdue
        norm_num at hdue
      rw [mul_div_assoc, div_self hn', mul_one, div_mul_cancel₀ _ hdelta]
    refine ⟨hs.numberOfWorkers, by rw [hsnoc], ?_⟩
    rw [hsnoc, List.countP_append]
    simpa [List.countP_cons, Effect.isReply] using hfolded
  · cases h
    refine ⟨hs.numberOfWorkers, ?_, ?_⟩
    · rw [samples_append]
      exact hlast
    · rw [samples_append, List.countP_append]
      simpa [Samples.add, List.countP_cons, Effect.isReply] using hfolded

theorem Replied.of_eq (he : ∀ e ∈ es, e.IsUnsampled ∧ e.isReply = false)
    (h1 : w'.numberOfWorkers = w.numberOfWorkers)
    (h2 : w'.lastThroughputTime = w.lastThroughputTime)
    (h3 : w'.nThroughputRequests = w.nThroughputRequests) : Replied w w' es where
  unsampled e hm := (he e hm).1
  numberOfWorkers := h1
  lastThroughputTime := h2
  nThroughputRequests := by
    have hzero : es.countP Effect.isReply = 0 := by
      rw [List.countP_eq_zero]
      intro e hm
      simp [(he e hm).2]
    rw [h3, hzero]
    simp

theorem Sampled.head {W : Workload ω ρ} {inp : Worker.Input} {reached : Bool} (hn : n ≠ 0)
    (hs : Sampled n start w l) (h : w.head W inp = some (w', es, reached)) :
    Sampled n start w' (l ++ es) := by
  rcases Worker.head_cases h with ⟨env, workload, request, w₁, es₁, samples, -, hc, hsample, rfl⟩ |
    ⟨workload, -, rfl, rfl⟩ | ⟨t, samples, -, hsample, rfl⟩ | ⟨c, -, hc⟩ | ⟨-, ha⟩
  · have hissue : Replied w (w.issue workload env.sendTime)
        [.getNextRequest, .sendRequest w.connIdx request] := by
      refine .of_eq ?_ rfl rfl rfl
      simp [Effect.IsUnsampled, Effect.isEstimate, Effect.isReply]
    have := (hs.replied (hissue.trans (completeAll_replied hc))).sample hn hsample
    simpa using this
  · refine hs.replied (.of_eq ?_ rfl rfl rfl)
    simp [Effect.IsUnsampled, Effect.isEstimate, Effect.isReply]
  · exact hs.sample hn hsample
  · exact hs.replied (complete_replied hc)
  · refine hs.replied
      (.of_eq ?_ ha.numberOfWorkers ha.lastThroughputTime ha.nThroughputRequests)
    rcases ha.effects with rfl | rfl | rfl <;>
      simp [Effect.IsUnsampled, Effect.isEstimate, Effect.isReply]

end samples

/-! ### The two counters of exceptions -/

/-- The maps of a worker whose entries are passed on to a shared counter, in the order in which
`sendRequest` goes through them. -/
inductive Kind where
  | exceptions
  | uncaughtExceptions
deriving DecidableEq, Repr

namespace Kind

/-- `EXCEPTIONS` and `UNCAUGHT_EXCEPTIONS`. -/
def name : Kind → String
  | exceptions => "exceptions"
  | uncaughtExceptions => "uncaught_exceptions"

theorem name_injective {κ κ' : Kind} (h : κ.name = κ'.name) : κ = κ' := by
  cases κ <;> cases κ' <;> first | rfl | simp [name] at h

/-- `n_exceptions_by_type_` and `n_uncaught_exceptions_by_type_`. -/
def tally (κ : Kind) (w : Worker ω) : Tally String :=
  match κ with
  | exceptions => w.nExceptionsByType
  | uncaughtExceptions => w.nUncaughtExceptionsByType

/-- The worker with the map cleared. -/
def clear (κ : Kind) (w : Worker ω) : Worker ω :=
  match κ with
  | exceptions => { w with nExceptionsByType := .empty }
  | uncaughtExceptions => { w with nUncaughtExceptionsByType := .empty }

/-- `exceptions_statistic_->increase` and `uncaught_exceptions_statistic_->increase`. -/
def increase (κ : Kind) (n : ℕ) (className : String) : Effect ρ :=
  match κ with
  | exceptions => .increaseExceptions n className
  | uncaughtExceptions => .increaseUncaughtExceptions n className

/-- The map with the failures that it counts and the effects that pass them on. -/
def meter : Kind → Meter ω ρ
  | exceptions => Meter.exceptions
  | uncaughtExceptions => Meter.uncaughtExceptions

/-- What an effect adds to the total of the shared counter. -/
def amount (κ : Kind) (e : Effect ρ) : ℕ :=
  match κ, e with
  | exceptions, .increaseExceptions n _ => n
  | uncaughtExceptions, .increaseUncaughtExceptions n _ => n
  | _, _ => 0

theorem lawful_meter (κ : Kind) : (κ.meter : Meter ω ρ).Lawful := by
  cases κ with
  | exceptions => exact Meter.lawful_exceptions
  | uncaughtExceptions => exact Meter.lawful_uncaughtExceptions

theorem meter_tally (κ : Kind) (w : Worker ω) : (κ.meter : Meter ω ρ).tally w = κ.tally w := by
  cases κ <;> rfl

theorem adds_increase (κ κ' : Kind) (n : ℕ) (c className : String) :
    (κ'.meter : Meter ω ρ).adds className (κ.increase n c) =
      if κ = κ' ∧ c = className then n else 0 := by
  cases κ <;> cases κ' <;> simp [meter, increase, Meter.exceptions, Meter.uncaughtExceptions]

theorem amount_increase (κ κ' : Kind) (n : ℕ) (c : String) :
    κ'.amount (κ.increase n c : Effect ρ) = if κ = κ' then n else 0 := by
  cases κ <;> cases κ' <;> rfl

/-- What adds nothing for any class adds nothing. -/
theorem amount_eq_zero {κ : Kind} {e : Effect ρ}
    (he : ∀ className, (κ.meter : Meter ω ρ).adds className e = 0) : κ.amount e = 0 := by
  cases κ with
  | exceptions =>
      cases e with
      | increaseExceptions n c => simpa [meter, amount, Meter.exceptions] using he c
      | _ => rfl
  | uncaughtExceptions =>
      cases e with
      | increaseUncaughtExceptions n c => simpa [meter, amount, Meter.uncaughtExceptions] using he c
      | _ => rfl

end Kind

/-- The effects count failures and pass none on. -/
structure Counts (m : Meter ω ρ) (w w' : Worker ω) (es : List (Effect ρ)) : Prop where
  noAdds : ∀ className, ∀ e ∈ es, m.adds className e = 0
  count : ∀ className,
    (m.tally w').count className = (m.tally w).count className + es.countP (m.fails className)

section counts
variable {m : Meter ω ρ} {w w' w'' : Worker ω} {es es' : List (Effect ρ)}

theorem Meter.Grows.counts (h : m.Grows w w' es) : Counts m w w' es := ⟨h.noAdds, h.count⟩

theorem Counts.trans (h : Counts m w w' es) (h' : Counts m w' w'' es') :
    Counts m w w'' (es ++ es') where
  noAdds className e he :=
    (List.mem_append.mp he).elim (h.noAdds className e) (h'.noAdds className e)
  count className := by
    have h1 := h.count className
    have h2 := h'.count className
    rw [List.countP_append]
    omega

theorem sample_counts (κ : Kind) {t : ℤ} (h : w.sample t = (w', es)) :
    Counts κ.meter w w' (.estimate t :: es) := by
  unfold Worker.sample at h
  dsimp only at h
  split_ifs at h <;> cases h <;> cases κ <;>
    constructor <;> simp [Kind.meter, Meter.exceptions, Meter.uncaughtExceptions]

theorem head_counts {W : Workload ω ρ} {inp : Worker.Input} {reached : Bool} (κ : Kind)
    (h : w.head W inp = some (w', es, reached)) : Counts κ.meter w w' es := by
  have hm : (κ.meter : Meter ω ρ).Lawful := κ.lawful_meter
  have hquiet : ∀ {w w' : Worker ω} {es : List (Effect ρ)},
      (∀ e ∈ es, e = .reset ∨ e = .stopConsuming ∨ e = .terminateEarly ∨ e = .getNextRequest ∨
        ∃ connection request, e = .sendRequest connection request) →
      (κ.meter : Meter ω ρ).tally w' = κ.meter.tally w → Counts κ.meter w w' es :=
    fun he ht => (Meter.grows_of_inert (fun e hmem => hm.inert e (he e hmem)) ht).counts
  rcases Worker.head_cases h with ⟨env, workload, request, w₁, es₁, samples, -, hc, hsample, rfl⟩ |
    ⟨workload, -, rfl, rfl⟩ | ⟨t, samples, -, hsample, rfl⟩ | ⟨c, -, hc⟩ | ⟨-, ha⟩
  · have hissue : Counts κ.meter w (w.issue workload env.sendTime)
        [.getNextRequest, .sendRequest w.connIdx request] :=
      hquiet (by simp) (hm.tally_congr _ _ rfl rfl)
    have := (hissue.trans (hm.completeAll hc).counts).trans (sample_counts κ hsample)
    simpa using this
  · exact hquiet (by simp) (hm.tally_congr _ _ rfl rfl)
  · exact sample_counts κ hsample
  · exact (hm.complete hc).counts
  · refine hquiet ?_ (hm.tally_congr _ _ ha.nExceptionsByType ha.nUncaughtExceptionsByType)
    rcases ha.effects with rfl | rfl | rfl <;> simp

end counts

/-! ### Senders -/

/-- Where the sender thread of a worker is. -/
inductive SenderPc where
  /-- `manager->getCounterStat` -/
  | getCounterStat (κ : Kind)
  /-- in the event base's loop -/
  | idle
  /-- in the loop over a map, with these entries to go, or before it is cleared -/
  | flush (κ : Kind) (todo : List (String × ℕ))
deriving DecidableEq, Repr

/-- A worker with its sender thread and the pointers to the shared counters, and a log of its
effects. -/
structure Sender (ω ρ : Type) where
  worker : Worker ω
  pc : SenderPc
  statistic : Kind → Option ℕ
  log : List (Effect ρ)

/-- A step of a sender, with the pointer that it gets or uses. -/
inductive SenderOp where
  | getCounterStat (name : String) (p : ℕ)
  | handle (inp : Worker.Input)
  | increase (p n : ℕ) (subkey : String)
  | clear
deriving DecidableEq, Repr

/-- The effect of a step on the shared counters. -/
def StatisticsManager.access (m : StatisticsManager) : SenderOp → Option StatisticsManager
  | .getCounterStat name p =>
      if p = (m.getCounterStat name).1 then some (m.getCounterStat name).2 else none
  | .increase p n subkey => m.increase p n subkey
  | .handle _ | .clear => some m

namespace Sender

/-- The sender of a worker before `senderLoop`. -/
def start (w : Worker ω) : Sender ω ρ := ⟨w, .getCounterStat .exceptions, fun _ => none, []⟩

/-- Begin the loop over a map. -/
def beginFlush (κ : Kind) (s : Sender ω ρ) : Sender ω ρ :=
  { s with pc := .flush κ (κ.tally s.worker).entries }

/-- The control of a sender. -/
def step (W : Workload ω ρ) (s : Sender ω ρ) (o : SenderOp) : Option (Sender ω ρ) :=
  match s.pc, o with
  | .getCounterStat κ, .getCounterStat name p =>
      if name = κ.name then
        some { s with
          pc := match κ with
            | .exceptions => .getCounterStat .uncaughtExceptions
            | .uncaughtExceptions => .idle
          statistic := Function.update s.statistic κ (some p) }
      else none
  | .idle, .handle inp =>
      (s.worker.head W inp).map fun (w, es, reached) =>
        let s' := { s with worker := w, log := s.log ++ es }
        if reached then s'.beginFlush .exceptions else s'
  | .flush κ ((className, k) :: todo), .increase p n subkey =>
      if s.statistic κ = some p ∧ n = k ∧ subkey = className then
        some { s with pc := .flush κ todo, log := s.log ++ [κ.increase k className] }
      else none
  | .flush κ [], .clear =>
      let s' := { s with worker := κ.clear s.worker }
      some (match κ with
        | .exceptions => s'.beginFlush .uncaughtExceptions
        | .uncaughtExceptions =>
            { s' with
              pc := .idle
              log := s.log ++ [.setWorkerCounter s.worker.outstandingRequests] })
  | _, _ => none

/-- What the sender passed to the shared counter for a class. -/
def passed (s : Sender ω ρ) (κ : Kind) (className : String) : ℕ :=
  (s.log.map ((κ.meter : Meter ω ρ).adds className)).sum

/-- What the sender passed to the shared counter. -/
def passedAll (s : Sender ω ρ) (κ : Kind) : ℕ := (s.log.map κ.amount).sum

/-- The failures of a class, of replies or of the workload's futures. -/
def failed (s : Sender ω ρ) (κ : Kind) (className : String) : ℕ :=
  s.log.countP ((κ.meter : Meter ω ρ).fails className)

/-- What is still to be passed on: the entries that the loop over the map has not reached, or
the map if it is not in that loop. -/
def pending (s : Sender ω ρ) (κ : Kind) (className : String) : ℕ :=
  match s.pc with
  | .flush κ' todo =>
      if κ' = κ then (todo.map fun e => if e.1 = className then e.2 else 0).sum
      else (κ.tally s.worker).count className
  | .getCounterStat _ | .idle => (κ.tally s.worker).count className

end Sender

/-! ### The accounts of one sender -/

section accounts
variable {W : Workload ω ρ} {s s' : Sender ω ρ} {o : SenderOp} {n start : ℤ}

theorem Sender.log_snoc {es : List (Effect ρ)} (hlog : s'.log = s.log ++ es) (κ : Kind)
    (className : String) :
    s'.passed κ className =
        s.passed κ className + (es.map ((κ.meter : Meter ω ρ).adds className)).sum ∧
      s'.failed κ className =
        s.failed κ className + es.countP ((κ.meter : Meter ω ρ).fails className) ∧
      s'.passedAll κ = s.passedAll κ + (es.map κ.amount).sum := by
  simp only [passed, failed, passedAll, hlog, List.map_append, List.sum_append,
    List.countP_append, and_self]

/-- What a sender does, for the accounts: it counts failures while it is in no loop, or begins
a loop, or passes an entry on, or ends a loop. -/
theorem Sender.step_cases (h : s.step W o = some s') :
    (∃ κ name p, s.pc = .getCounterStat κ ∧ o = .getCounterStat name p ∧ name = κ.name ∧
      s'.worker = s.worker ∧ s'.log = s.log ∧
      s'.statistic = Function.update s.statistic κ (some p) ∧
      (s'.pc = .idle ∨ s'.pc = .getCounterStat .uncaughtExceptions)) ∨
    (∃ inp w es reached, s.pc = .idle ∧ o = .handle inp ∧
      s.worker.head W inp = some (w, es, reached) ∧ s'.worker = w ∧ s'.log = s.log ++ es ∧
      s'.statistic = s.statistic ∧
      (s'.pc = .idle ∨ s'.pc = .flush .exceptions (w.nExceptionsByType.entries))) ∨
    (∃ κ className k todo p, s.pc = .flush κ ((className, k) :: todo) ∧
      o = .increase p k className ∧ s.statistic κ = some p ∧ s'.worker = s.worker ∧
      s'.log = s.log ++ [κ.increase k className] ∧ s'.statistic = s.statistic ∧
      s'.pc = .flush κ todo) ∨
    (∃ κ es, s.pc = .flush κ [] ∧ o = .clear ∧ s'.worker = κ.clear s.worker ∧
      s'.log = s.log ++ es ∧ (es = [] ∨ ∃ v, es = [.setWorkerCounter v]) ∧
      s'.statistic = s.statistic ∧
      ((κ = .exceptions ∧
          s'.pc = .flush .uncaughtExceptions (s.worker.nUncaughtExceptionsByType.entries)) ∨
        (κ = .uncaughtExceptions ∧ s'.pc = .idle))) := by
  unfold Sender.step at h
  split at h
  · rename_i κ name p hpc
    split_ifs at h with hname
    cases h
    refine Or.inl ⟨κ, name, p, hpc, rfl, hname, rfl, rfl, rfl, ?_⟩
    cases κ with
    | exceptions => exact Or.inr rfl
    | uncaughtExceptions => exact Or.inl rfl
  · rename_i inp hpc
    obtain ⟨⟨w, es, reached⟩, hhead, he⟩ := Option.map_eq_some_iff.mp h
    refine Or.inr (Or.inl ⟨inp, w, es, reached, hpc, rfl, hhead, ?_⟩)
    dsimp only at he
    subst he
    cases reached with
    | true => exact ⟨rfl, rfl, rfl, Or.inr rfl⟩
    | false => exact ⟨rfl, rfl, rfl, Or.inl hpc⟩
  · rename_i κ className k todo p n subkey hpc
    split_ifs at h with hargs
    obtain ⟨hp, rfl, rfl⟩ := hargs
    cases h
    exact Or.inr (Or.inr (Or.inl ⟨κ, _, _, todo, p, hpc, rfl, hp, rfl, rfl, rfl, rfl⟩))
  · rename_i κ hpc
    cases κ with
    | exceptions =>
        cases h
        exact Or.inr (Or.inr (Or.inr ⟨.exceptions, [], hpc, rfl, rfl, by simp [beginFlush],
          Or.inl rfl, rfl, Or.inl ⟨rfl, rfl⟩⟩))
    | uncaughtExceptions =>
        cases h
        exact Or.inr (Or.inr (Or.inr ⟨.uncaughtExceptions, _, hpc, rfl, rfl, rfl,
          Or.inr ⟨_, rfl⟩, rfl, Or.inr ⟨rfl, rfl⟩⟩))
  · cases h

/-- The accounts of a worker that started at this reading of the clock, as one of `n`. -/
structure Sender.Accounts (n start : ℤ) (s : Sender ω ρ) : Prop where
  sampled : Sampled n start s.worker s.log
  passed : ∀ κ className, s.passed κ className + s.pending κ className = s.failed κ className

theorem Sender.pending_of_ne {κ : Kind} (hpc : ∀ todo, s.pc ≠ .flush κ todo)
    (className : String) : s.pending κ className = (κ.tally s.worker).count className := by
  unfold pending
  split
  · rename_i κ' todo he
    have hκ : κ' ≠ κ := by
      rintro rfl
      exact hpc todo he
    rw [if_neg hκ]
  · rfl
  · rfl

theorem Sender.pending_flush {κ : Kind} {todo : List (String × ℕ)} (hpc : s.pc = .flush κ todo)
    (className : String) :
    s.pending κ className = (todo.map fun e => if e.1 = className then e.2 else 0).sum := by
  rw [pending, hpc]
  exact if_pos rfl

/-- Whatever the loop over it, a map that was not touched since it began is still to be passed
on as a whole. -/
theorem Sender.pending_eq {κ : Kind}
    (hpc : ∀ todo, s.pc = .flush κ todo → todo = (κ.tally s.worker).entries)
    (className : String) : s.pending κ className = (κ.tally s.worker).count className := by
  by_cases hflush : ∃ todo, s.pc = .flush κ todo
  · obtain ⟨todo, htodo⟩ := hflush
    rw [pending_flush htodo, hpc todo htodo]
    exact Tally.sum_entries _ className
  · push Not at hflush
    exact pending_of_ne hflush className

theorem Kind.tally_clear (κ κ' : Kind) (w : Worker ω) :
    κ'.tally (κ.clear w) = if κ = κ' then .empty else κ'.tally w := by
  cases κ <;> cases κ' <;> rfl

theorem replied_clear (κ : Kind) (w : Worker ω) {es : List (Effect ρ)}
    (hes : es = [] ∨ ∃ v, es = [.setWorkerCounter v]) : Replied w (κ.clear w) es := by
  refine .of_eq ?_ ?_ ?_ ?_
  · rcases hes with rfl | ⟨v, rfl⟩ <;> simp [Effect.IsUnsampled, Effect.isEstimate, Effect.isReply]
  all_goals cases κ <;> rfl

theorem replied_increase (κ : Kind) (w : Worker ω) (k : ℕ) (className : String) :
    Replied w w [(κ.increase k className : Effect ρ)] := by
  refine .of_eq ?_ rfl rfl rfl
  cases κ <;> simp [Kind.increase, Effect.IsUnsampled, Effect.isEstimate, Effect.isReply]

theorem Sender.Accounts.handle {inp : Worker.Input} {w : Worker ω} {es : List (Effect ρ)}
    {reached : Bool} (hn : n ≠ 0) (ha : s.Accounts n start) (hpc : s.pc = .idle)
    (hhead : s.worker.head W inp = some (w, es, reached)) (hworker : s'.worker = w)
    (hlog : s'.log = s.log ++ es)
    (hpc' : s'.pc = .idle ∨ s'.pc = .flush .exceptions (w.nExceptionsByType.entries)) :
    s'.Accounts n start where
  sampled := by
    rw [hworker, hlog]
    exact ha.sampled.head hn hhead
  passed κ className := by
    obtain ⟨hpassed, hfailed, -⟩ := Sender.log_snoc hlog κ className
    have hcounts := head_counts κ hhead
    have hnone := sum_map_eq_zero (hcounts.noAdds className)
    have hcount := hcounts.count className
    rw [Kind.meter_tally, Kind.meter_tally] at hcount
    have hpending : s'.pending κ className = (κ.tally w).count className := by
      rw [pending_eq _ className, hworker]
      intro todo htodo
      rcases hpc' with hpc' | hpc'
      · rw [hpc'] at htodo
        cases htodo
      · rw [hpc'] at htodo
        cases htodo
        rw [hworker]
        rfl
    have hbefore := ha.passed κ className
    rw [pending_of_ne (s := s) (by simp [hpc])] at hbefore
    rw [hpassed, hfailed, hpending, hnone, hcount]
    omega

theorem Sender.Accounts.increase {κ : Kind} {c : String} {k : ℕ} {todo : List (String × ℕ)}
    (ha : s.Accounts n start) (hpc : s.pc = .flush κ ((c, k) :: todo))
    (hworker : s'.worker = s.worker) (hlog : s'.log = s.log ++ [κ.increase k c])
    (hpc' : s'.pc = .flush κ todo) : s'.Accounts n start where
  sampled := by
    rw [hworker, hlog]
    exact ha.sampled.replied (replied_increase κ _ k c)
  passed κ' className := by
    obtain ⟨hpassed, hfailed, -⟩ := Sender.log_snoc hlog κ' className
    have hbefore := ha.passed κ' className
    have hnone : [(κ.increase k c : Effect ρ)].countP
        ((κ'.meter : Meter ω ρ).fails className) = 0 := by
      cases κ <;> cases κ' <;> rfl
    rw [hpassed, hfailed, hnone, List.map_singleton, List.sum_singleton, Kind.adds_increase]
    by_cases hκ : κ = κ'
    · subst hκ
      rw [pending_flush hpc, List.map_cons, List.sum_cons] at hbefore
      rw [pending_flush hpc']
      simp only [true_and] at hbefore ⊢
      omega
    · rw [if_neg (by simp [hκ]), pending_of_ne (s := s') (by simp [hpc', hκ]), hworker]
      rw [pending_of_ne (s := s) (by simp [hpc, hκ])] at hbefore
      omega

theorem Sender.Accounts.clear {κ : Kind} {es : List (Effect ρ)} (ha : s.Accounts n start)
    (hpc : s.pc = .flush κ []) (hworker : s'.worker = κ.clear s.worker)
    (hlog : s'.log = s.log ++ es) (hes : es = [] ∨ ∃ v, es = [.setWorkerCounter v])
    (hpc' : (κ = .exceptions ∧
        s'.pc = .flush .uncaughtExceptions (s.worker.nUncaughtExceptionsByType.entries)) ∨
      (κ = .uncaughtExceptions ∧ s'.pc = .idle)) : s'.Accounts n start where
  sampled := by
    rw [hworker, hlog]
    exact ha.sampled.replied (replied_clear κ _ hes)
  passed κ' className := by
    obtain ⟨hpassed, hfailed, -⟩ := Sender.log_snoc hlog κ' className
    have hbefore := ha.passed κ' className
    have hnone : (es.map ((κ'.meter : Meter ω ρ).adds className)).sum = 0 ∧
        es.countP ((κ'.meter : Meter ω ρ).fails className) = 0 := by
      rcases hes with rfl | ⟨v, rfl⟩ <;> cases κ' <;> exact ⟨rfl, rfl⟩
    have hpending : s'.pending κ' className = (κ'.tally (κ.clear s.worker)).count className := by
      rw [pending_eq _ className, hworker]
      intro todo htodo
      rcases hpc' with ⟨rfl, hpc'⟩ | ⟨rfl, hpc'⟩
      · rw [hpc'] at htodo
        cases htodo
        rw [hworker]
        rfl
      · rw [hpc'] at htodo
        cases htodo
    rw [hpassed, hfailed, hpending, hnone.1, hnone.2, Kind.tally_clear]
    by_cases hκ : κ = κ'
    · subst hκ
      rw [pending_flush hpc, List.map_nil, List.sum_nil] at hbefore
      rw [if_pos rfl, Tally.count_empty]
      omega
    · rw [if_neg hκ]
      rw [pending_of_ne (s := s) (by simp [hpc, hκ])] at hbefore
      omega

theorem Sender.Accounts.step (hn : n ≠ 0) (ha : s.Accounts n start) (h : s.step W o = some s') :
    s'.Accounts n start := by
  rcases Sender.step_cases h with
    ⟨κ, name, p, hpc, -, -, hworker, hlog, -, hpc'⟩ |
    ⟨inp, w, es, reached, hpc, -, hhead, hworker, hlog, -, hpc'⟩ |
    ⟨κ, c, k, todo, p, hpc, -, -, hworker, hlog, -, hpc'⟩ |
    ⟨κ, es, hpc, -, hworker, hlog, hes, -, hpc'⟩
  · -- a pointer is taken: there is nothing to account for
    refine ⟨by rw [hworker, hlog]; exact ha.sampled, fun κ' className => ?_⟩
    have hbefore := ha.passed κ' className
    rw [pending_of_ne (by simp [hpc])] at hbefore
    rw [pending_of_ne (by rcases hpc' with hpc' | hpc' <;> simp [hpc']), hworker, Sender.passed,
      Sender.failed, hlog]
    exact hbefore
  · exact ha.handle hn hpc hhead hworker hlog hpc'
  · exact ha.increase hpc hworker hlog hpc'
  · exact ha.clear hpc hworker hlog hes hpc'

end accounts

/-! ### A handler as a run of its sender -/

/-- The steps of a sender on its own. -/
def Sender.lts (W : Workload ω ρ) : Lts (Sender ω ρ) SenderOp := ⟨Sender.step W⟩

section handler
variable {W : Workload ω ρ}

theorem Sender.flush_run {κ : Kind} {p : ℕ} :
    ∀ (todo : List (String × ℕ)) (s : Sender ω ρ), s.pc = .flush κ todo →
      s.statistic κ = some p →
      (lts W).run s (todo.map fun e => .increase p e.2 e.1) =
        some { s with
          pc := .flush κ []
          log := s.log ++ todo.map fun e => κ.increase e.2 e.1 }
  | [], s, hpc, _ => by
      rw [List.map_nil, Lts.run_nil, List.map_nil, List.append_nil, ← hpc]
  | (className, k) :: todo, s, hpc, hp => by
      have hstep : s.step W (.increase p k className) =
          some { s with pc := .flush κ todo, log := s.log ++ [κ.increase k className] } := by
        unfold Sender.step
        rw [hpc]
        exact if_pos ⟨hp, rfl, rfl⟩
      refine (Lts.run_cons_iff _).mpr ⟨_, hstep, ?_⟩
      have ih := flush_run todo
        { s with pc := .flush κ todo, log := s.log ++ [κ.increase k className] } rfl hp
      rw [ih]
      simp

/-- **A sender that is not interrupted handles its input as the worker does.** -/
theorem Sender.handler_run {s : Sender ω ρ} {inp : Worker.Input} {w : Worker ω}
    {es : List (Effect ρ)} {p q : ℕ} (hpc : s.pc = .idle)
    (hp : s.statistic .exceptions = some p) (hq : s.statistic .uncaughtExceptions = some q)
    (h : s.worker.step W inp = some (w, es)) :
    ∃ ops, (lts W).run s (.handle inp :: ops) =
      some { s with worker := w, log := s.log ++ es } := by
  rw [Worker.step_eq_head] at h
  obtain ⟨⟨w₁, es₁, reached⟩, hhead, hfinish⟩ := Option.map_eq_some_iff.mp h
  have hstep : s.step W (.handle inp) = some
      (if reached then { s with worker := w₁, log := s.log ++ es₁ }.beginFlush .exceptions
        else { s with worker := w₁, log := s.log ++ es₁ }) := by
    unfold Sender.step
    rw [hpc]
    simp only [hhead, Option.map_some]
  cases reached with
  | false =>
      cases hfinish
      refine ⟨[], ?_⟩
      rw [Lts.run_singleton]
      exact hstep
  | true =>
      cases hfinish
      refine ⟨w₁.nExceptionsByType.entries.map (fun e => .increase p e.2 e.1) ++ .clear ::
        (w₁.nUncaughtExceptionsByType.entries.map (fun e => .increase q e.2 e.1) ++ [.clear]), ?_⟩
      refine (Lts.run_cons_iff _).mpr ⟨_, hstep, ?_⟩
      refine (Lts.run_append_iff _).mpr ⟨_, flush_run _ _ rfl hp, ?_⟩
      refine (Lts.run_cons_iff _).mpr ⟨_, rfl, ?_⟩
      refine (Lts.run_append_iff _).mpr ⟨_, flush_run _ _ rfl hq, ?_⟩
      rw [Lts.run_singleton]
      simp [lts, Sender.step, beginFlush, Kind.clear, Kind.tally, Kind.increase, hpc]

end handler

/-! ### The shared counters -/

/-- The senders of `n` workers over the shared counters. -/
def senders (W : Workload ω ρ) (n : ℕ) :
    Threads (Fin n) (fun _ => Sender ω ρ) StatisticsManager SenderOp where
  access _ := StatisticsManager.access
  thread _ := Sender.step W

/-- A state of the senders. -/
abbrev Statistics (ω ρ : Type) (n : ℕ) :=
  Threads.State (fun _ : Fin n => Sender ω ρ) StatisticsManager

/-- The senders of workers that have not started yet: each has its own workload, and its own
reading of the clock when it starts. -/
def startSenders {n : ℕ} (numberOfConnections : ℕ) (maxOutstandingRequests : Int32)
    (workload : Fin n → ω) (now : Fin n → ℤ) : Statistics ω ρ n where
  mem := .new
  loc i := .start (.start n numberOfConnections maxOutstandingRequests (workload i) (now i))

/-- The shared counters hold what the senders passed to them. -/
structure Ledger {n : ℕ} (s : Statistics ω ρ n) : Prop where
  wf : s.mem.Wf
  pointer : ∀ i κ p, (s.loc i).statistic κ = some p → s.mem.countMap.lookup κ.name = some p
  total : ∀ κ : Kind, (s.mem.counter κ.name).getCount = ∑ i, ((s.loc i).passedAll κ : ℤ)
  classes : ∀ (κ : Kind) className, className ≠ "" →
    ((s.mem.counter κ.name).getSubkeyCount className).1 =
      ∑ i, ((s.loc i).passed κ className : ℤ)

section ledger
variable {W : Workload ω ρ} {n : ℕ} {s s' : Statistics ω ρ n} {i : Fin n} {o : SenderOp}

theorem sum_step (f : Sender ω ρ → ℤ) (d : ℤ) (hframe : ∀ j ≠ i, s'.loc j = s.loc j)
    (hi : f (s'.loc i) = f (s.loc i) + d) : ∑ j, f (s'.loc j) = ∑ j, f (s.loc j) + d := by
  have hrest : ∑ j ∈ Finset.univ.erase i, f (s'.loc j) =
      ∑ j ∈ Finset.univ.erase i, f (s.loc j) :=
    Finset.sum_congr rfl fun j hj => by rw [hframe j (Finset.ne_of_mem_erase hj)]
  rw [← Finset.add_sum_erase _ _ (Finset.mem_univ i), hrest, hi,
    ← Finset.add_sum_erase _ (fun j => f (s.loc j)) (Finset.mem_univ i)]
  ring

/-- A step that passes nothing on, and changes no number of a counter, keeps the ledger. -/
theorem Ledger.quiet (hl : Ledger s) (hframe : ∀ j ≠ i, s'.loc j = s.loc j)
    (hwf : s'.mem.Wf)
    (hpointer : ∀ j κ p, (s'.loc j).statistic κ = some p →
      s'.mem.countMap.lookup κ.name = some p)
    (hcounter : ∀ name, s'.mem.counter name = s.mem.counter name) {es : List (Effect ρ)}
    (hlog : (s'.loc i).log = (s.loc i).log ++ es)
    (hes : ∀ (κ : Kind) className, ∀ e ∈ es, (κ.meter : Meter ω ρ).adds className e = 0) :
    Ledger s' where
  wf := hwf
  pointer := hpointer
  total κ := by
    have hnone : (es.map κ.amount).sum = 0 :=
      sum_map_eq_zero fun e he => Kind.amount_eq_zero fun className => hes κ className e he
    have hsum := sum_step (fun u => (u.passedAll κ : ℤ)) 0 hframe (by
      rw [(Sender.log_snoc hlog κ "").2.2, hnone]
      simp)
    rw [hcounter, hl.total, hsum, add_zero]
  classes κ className hne := by
    have hnone := sum_map_eq_zero (hes κ className)
    have hsum := sum_step (fun u => (u.passed κ className : ℤ)) 0 hframe (by
      rw [(Sender.log_snoc hlog κ className).1, hnone]
      simp)
    rw [hcounter, hl.classes κ className hne, hsum, add_zero]

theorem Ledger.pointer_of_eq (hl : Ledger s) (hframe : ∀ j ≠ i, s'.loc j = s.loc j)
    (hstat : (s'.loc i).statistic = (s.loc i).statistic)
    (hmap : s'.mem.countMap = s.mem.countMap) (j : Fin n) (κ : Kind) (p : ℕ)
    (hp : (s'.loc j).statistic κ = some p) : s'.mem.countMap.lookup κ.name = some p := by
  rw [hmap]
  apply hl.pointer j κ p
  by_cases hj : j = i
  · rw [hj, ← hstat, ← hj]
    exact hp
  · rw [← hframe j hj]
    exact hp

theorem Ledger.getCounterStat {κ : Kind} (hl : Ledger s) (hframe : ∀ j ≠ i, s'.loc j = s.loc j)
    (hget : (s.mem.getCounterStat κ.name).2 = s'.mem)
    (hlog : (s'.loc i).log = (s.loc i).log)
    (hstat : (s'.loc i).statistic =
      Function.update (s.loc i).statistic κ (some (s.mem.getCounterStat κ.name).1)) :
    Ledger s' := by
  refine hl.quiet hframe (hget ▸ hl.wf.getCounterStat κ.name) ?_ (fun name' => ?_)
    (hlog.trans (List.append_nil _).symm) (by simp)
  · intro j κ' q hq
    rw [← hget]
    by_cases hj : j = i
    · subst hj
      rw [hstat] at hq
      by_cases hκ : κ' = κ
      · subst hκ
        rw [Function.update_self, Option.some.injEq] at hq
        rw [← hq]
        exact StatisticsManager.lookup_getCounterStat_self _ _
      · rw [Function.update_of_ne hκ] at hq
        exact StatisticsManager.lookup_getCounterStat (hl.pointer j κ' q hq) _
    · rw [hframe j hj] at hq
      exact StatisticsManager.lookup_getCounterStat (hl.pointer j κ' q hq) _
  · rw [← hget]
    exact StatisticsManager.counter_getCounterStat hl.wf _ _

theorem Ledger.increase {κ : Kind} {c : String} {k p : ℕ} (hl : Ledger s)
    (hframe : ∀ j ≠ i, s'.loc j = s.loc j) (hmem : s.mem.increase p k c = some s'.mem)
    (hp : (s.loc i).statistic κ = some p)
    (hlog : (s'.loc i).log = (s.loc i).log ++ [κ.increase k c])
    (hstat : (s'.loc i).statistic = (s.loc i).statistic) : Ledger s' := by
  have hcounter := StatisticsManager.counter_increase hl.wf (hl.pointer i κ p hp) hmem
  have hmap : s'.mem.countMap = s.mem.countMap := by
    obtain ⟨counter, -, he⟩ := Option.map_eq_some_iff.mp hmem
    rw [← he]
  refine ⟨hl.wf.increase hmem, hl.pointer_of_eq hframe hstat hmap, fun κ' => ?_,
    fun κ' className hne => ?_⟩
  · have hsum := sum_step (fun u => (u.passedAll κ' : ℤ))
      (if κ = κ' then (k : ℤ) else 0) hframe (by
        rw [(Sender.log_snoc hlog κ' "").2.2, List.map_singleton, List.sum_singleton,
          Kind.amount_increase]
        push_cast
        rfl)
    rw [hcounter, hsum, ← hl.total κ']
    by_cases hκ : κ = κ'
    · subst hκ
      rw [if_pos rfl, if_pos rfl, CounterStatistic.getCount_increase]
    · rw [if_neg hκ, if_neg fun he => hκ (Kind.name_injective he).symm, add_zero]
  · have hsum := sum_step (fun u => (u.passed κ' className : ℤ))
      (if κ = κ' ∧ c = className then (k : ℤ) else 0) hframe (by
        rw [(Sender.log_snoc hlog κ' className).1, List.map_singleton, List.sum_singleton,
          Kind.adds_increase]
        push_cast
        rfl)
    rw [hcounter, hsum, ← hl.classes κ' className hne]
    by_cases hκ : κ = κ'
    · subst hκ
      rw [if_pos rfl, CounterStatistic.getSubkeyCount_increase _ _ _ hne]
      simp
    · rw [if_neg fun he => hκ (Kind.name_injective he).symm, if_neg (fun h => hκ h.1), add_zero]

theorem Ledger.step (hl : Ledger s) (hs : (senders W n).lts.step s (i, o) = some s') :
    Ledger s' := by
  have hmem : s.mem.access o = some s'.mem := Threads.step_mem hs
  have hloc : (s.loc i).step W o = some (s'.loc i) := Threads.step_loc hs
  have hframe : ∀ j ≠ i, s'.loc j = s.loc j := fun j hj => Threads.step_frame hs hj
  rcases Sender.step_cases hloc with
    ⟨κ, name, p, -, rfl, rfl, -, hlog, hstat, -⟩ |
    ⟨inp, w, es, reached, -, rfl, hhead, -, hlog, hstat, -⟩ |
    ⟨κ, c, k, todo, p, -, rfl, hp, -, hlog, hstat, -⟩ |
    ⟨κ, es, -, rfl, -, hlog, hes, hstat, -⟩
  · obtain ⟨rfl, hget⟩ := Option.ite_none_right_eq_some.mp hmem
    exact hl.getCounterStat hframe (Option.some.inj hget) hlog hstat
  · obtain hmem := Option.some.inj hmem
    exact hl.quiet hframe (hmem ▸ hl.wf) (hl.pointer_of_eq hframe hstat (by rw [← hmem]))
      (fun name => by rw [← hmem]) hlog fun κ => (head_counts κ hhead).noAdds
  · exact hl.increase hframe hmem hp hlog hstat
  · obtain hmem := Option.some.inj hmem
    refine hl.quiet hframe (hmem ▸ hl.wf) (hl.pointer_of_eq hframe hstat (by rw [← hmem]))
      (fun name => by rw [← hmem]) hlog ?_
    intro κ' className e he
    rcases hes with rfl | ⟨v, rfl⟩
    · cases he
    · obtain rfl := List.mem_singleton.mp he
      cases κ' <;> rfl

theorem accounts_run {numberOfConnections : ℕ} {maxOutstandingRequests : Int32}
    {workload : Fin n → ω} {now : Fin n → ℤ} {h : List (Fin n × SenderOp)}
    (hr : (senders W n).lts.run
      (startSenders numberOfConnections maxOutstandingRequests workload now) h = some s)
    (i : Fin n) : (s.loc i).Accounts n (now i) := by
  have hn : (n : ℤ) ≠ 0 := by
    have := i.pos
    omega
  refine Threads.forall_loc (P := fun i (u : Sender ω ρ) => u.Accounts n (now i))
    (fun i u o u' hu hs => hu.step hn hs) (fun i => ⟨⟨rfl, rfl, ?_⟩, fun κ className => ?_⟩) hr i
  · simp [samples, startSenders, Sender.start, Worker.start]
  · cases κ <;> rfl

theorem ledger_run {numberOfConnections : ℕ} {maxOutstandingRequests : Int32}
    {workload : Fin n → ω} {now : Fin n → ℤ} {h : List (Fin n × SenderOp)}
    (hr : (senders W n).lts.run
      (startSenders numberOfConnections maxOutstandingRequests workload now) h = some s) :
    Ledger s := by
  refine Lts.invariant (P := Ledger) (fun u a u' hu hs => Ledger.step (i := a.1) hu hs) ?_ hr
  refine ⟨StatisticsManager.wf_new, fun i κ p hp => ?_, fun κ => ?_, fun κ className _ => ?_⟩
  · cases hp
  · exact (Finset.sum_eq_zero fun i _ => rfl).symm
  · exact (Finset.sum_eq_zero fun i _ => rfl).symm

/-- **The statistics conserve replies**: in every state of every run, each worker's replies
are in its throughput samples or still counted, its failures of a class are passed on or still
to be passed on, and the counters that all workers share hold, in total and for each class,
what was passed to them. -/
theorem statistics_conserve_replies {numberOfConnections : ℕ} {maxOutstandingRequests : Int32}
    {workload : Fin n → ω} {now : Fin n → ℤ} {h : List (Fin n × SenderOp)}
    (hr : (senders W n).lts.run
      (startSenders numberOfConnections maxOutstandingRequests workload now) h = some s) :
    (∀ i, (samples n (now i) (s.loc i).log).folded + (s.loc i).worker.nThroughputRequests =
        (s.loc i).log.countP Effect.isReply ∧
      ∀ κ className, (s.loc i).passed κ className + (s.loc i).pending κ className =
        (s.loc i).failed κ className) ∧
    ∀ κ : Kind,
      (∀ i p, (s.loc i).statistic κ = some p → s.mem.countMap.lookup κ.name = some p) ∧
      (s.mem.counter κ.name).getCount = ∑ i, ((s.loc i).passedAll κ : ℤ) ∧
      ∀ className, className ≠ "" → ((s.mem.counter κ.name).getSubkeyCount className).1 =
        ∑ i, ((s.loc i).passed κ className : ℤ) := by
  have hl := ledger_run hr
  refine ⟨fun i => ?_, fun κ => ⟨fun i p => hl.pointer i κ p, hl.total κ, hl.classes κ⟩⟩
  have ha := accounts_run hr i
  exact ⟨ha.sampled.folded, ha.passed⟩

end ledger

/-- A worker starts, and the request that it sends fails before the handler ends. -/
def failsAtOnce {n : ℕ} (i : Fin n) : List (Fin n × SenderOp) :=
  [(i, .getCounterStat "exceptions" 0), (i, .getCounterStat "uncaught_exceptions" 1),
    (i, .handle (.message .sendRequest
      { completions := [.reply 0 (.exception "Timeout") 5], now := 200000000 }))]

/-- It passes the failure on. -/
def passesOn {n : ℕ} (i : Fin n) : Fin n × SenderOp := (i, .increase 0 1 "Timeout")

theorem statistics_conserve_replies_two_workers :
    ∃ s, (senders constantWorkload 2).lts.run (startSenders 1 1 (fun _ => ()) fun _ => 0)
        (failsAtOnce 0 ++ failsAtOnce 1 ++ [passesOn 1, passesOn 0, (1, .clear)]) = some s ∧
      (s.loc 0).passed .exceptions "Timeout" + (s.loc 0).pending .exceptions "Timeout" =
        (s.loc 0).failed .exceptions "Timeout" ∧
      (s.mem.counter "exceptions").getCount =
        ∑ i, ((s.loc i).passedAll .exceptions : ℤ) := by
  have hrun : ((senders constantWorkload 2).lts.run
      (startSenders 1 1 (fun _ => ()) fun _ => 0)
      (failsAtOnce 0 ++ failsAtOnce 1 ++ [passesOn 1, passesOn 0, (1, .clear)])).isSome = true := by
    decide +kernel
  obtain ⟨s, hr⟩ := Option.isSome_iff_exists.mp hrun
  obtain ⟨haccounts, hledger⟩ := statistics_conserve_replies hr
  exact ⟨s, hr, (haccounts 0).2 .exceptions "Timeout", (hledger .exceptions).2.1⟩

/-- Between the last increase and the clearing of the map, a failure is in both. -/
theorem passed_and_not_cleared :
    ∃ s, (senders constantWorkload 1).lts.run (startSenders 1 1 (fun _ => ()) fun _ => 0)
        (failsAtOnce 0 ++ [passesOn 0]) = some s ∧
      (s.loc 0).failed .exceptions "Timeout" = 1 ∧
      (s.loc 0).passed .exceptions "Timeout" +
        (s.loc 0).worker.nExceptionsByType.count "Timeout" ≠
          (s.loc 0).failed .exceptions "Timeout" := by
  have hrun : ((senders constantWorkload 1).lts.run
      (startSenders 1 1 (fun _ => ()) fun _ => 0) (failsAtOnce 0 ++ [passesOn 0])).any (fun s =>
        decide ((s.loc 0).failed .exceptions "Timeout" = 1) &&
          decide ((s.loc 0).passed .exceptions "Timeout" = 1) &&
          decide ((s.loc 0).worker.nExceptionsByType.count "Timeout" = 1)) = true := by
    decide +kernel
  obtain ⟨s, hr, hs⟩ := (Option.any_eq_true _ _).mp hrun
  simp only [Bool.and_eq_true, decide_eq_true_eq] at hs
  obtain ⟨⟨hfailed, hpassed⟩, hcount⟩ := hs
  refine ⟨s, hr, hfailed, ?_⟩
  rw [hpassed, hcount, hfailed]
  decide

end Treadmill
