import Treadmill.Lib.Lts
import Treadmill.Worker

/-! # What the worker's handlers do

`Worker.step_cases` splits a handler into the five things it can be: a request that is sent,
the null request that ends the run, an estimate without a request, a continuation, or a
change of the worker's controls (`Controls`).  The facts that runs of a worker are about
follow from it, one part at a time: `Keeps` for the members that no continuation or estimate
touches, `Wf` for the requests in flight. -/

namespace Treadmill

namespace Effect

variable {ρ : Type}

def isAsk : Effect ρ → Bool
  | .getNextRequest => true
  | _ => false

def isSend : Effect ρ → Bool
  | .sendRequest _ _ => true
  | _ => false

def isReply : Effect ρ → Bool
  | .reply _ _ => true
  | _ => false

def isTerminate : Effect ρ → Bool
  | .terminateEarly => true
  | _ => false

def isEstimate : Effect ρ → Bool
  | .estimate _ => true
  | _ => false

/-- Neither asks for a request, nor sends one, nor ends the run. -/
def Quiet (e : Effect ρ) : Prop := e.isAsk = false ∧ e.isSend = false ∧ e.isTerminate = false

end Effect

namespace Event

/-- The limit that a worker has after a message that it handles. -/
def limit (e : Event) (m : Int32) : Int32 :=
  match e.eventType with
  | .setMaxOutstanding =>
      match e.extraData with
      | .int i => i.toInt32
      | .null | .string _ => m
  | .stop | .reset | .sendRequest | .setPhase => m

/-- The phase that a worker has after a message that it handles. -/
def phase (e : Event) (p : String) : String :=
  match e.eventType with
  | .setPhase =>
      match e.extraData with
      | .string q => q
      | .null | .int _ => p
  | .stop | .reset | .sendRequest | .setMaxOutstanding => p

theorem limit_of_ne {e : Event} (he : e.eventType ≠ .setMaxOutstanding) (m : Int32) :
    e.limit m = m := by
  obtain ⟨eventType, extraData⟩ := e
  cases eventType with
  | setMaxOutstanding => exact absurd rfl he
  | _ => rfl

theorem phase_of_ne {e : Event} (he : e.eventType ≠ .setPhase) (p : String) :
    e.phase p = p := by
  obtain ⟨eventType, extraData⟩ := e
  cases eventType with
  | setPhase => exact absurd rfl he
  | _ => rfl

theorem limit_setMaxOutstanding (v : UInt32) (m : Int32) :
    (setMaxOutstanding v).limit m = v.toInt32 := by
  have hv := int32_round_trip v.toInt32
  rw [UInt32.toUInt32_toInt32] at hv
  exact hv

end Event

namespace Worker

variable {ω ρ : Type} {W : Workload ω ρ} {w w' w'' : Worker ω} {es es' : List (Effect ρ)}

/-- The message of an input. -/
def Input.event : Input → Option Event
  | .message e _ => some e
  | _ => none

/-- The limit that a worker has after an input that it handles. -/
def Input.limit : Input → Int32 → Int32
  | .message e _, m => e.limit m
  | _, m => m

/-- The phase that a worker has after an input that it handles. -/
def Input.phase : Input → String → String
  | .message e _, p => e.phase p
  | _, p => p

/-! ### The split of a handler -/

/-- A change of the members that control the worker, with no request or reply involved. -/
structure Controls (w w' : Worker ω) (es : List (Effect ρ)) : Prop where
  effects : es = [] ∨ es = [.reset] ∨ es = [.stopConsuming]
  running : w'.running = true → w.running = true
  numberOfConnections : w'.numberOfConnections = w.numberOfConnections
  connIdx : w'.connIdx = w.connIdx
  outstandingRequests : w'.outstandingRequests = w.outstandingRequests
  sent : w'.sent = w.sent
  inFlight : w'.inFlight = w.inFlight
  nExceptionsByType : w'.nExceptionsByType = w.nExceptionsByType
  nUncaughtExceptionsByType : w'.nUncaughtExceptionsByType = w.nUncaughtExceptionsByType

theorem sendRequest_cases {env : SendEnv} (h : w.sendRequest W env = some (w', es)) :
    (∃ workload request w₁ es₁ es₂, w.maySend = true ∧
      (w.issue workload env.sendTime).completeAll env.completions = some (w₁, es₁) ∧
      w₁.estimate env.now = (w', es₂) ∧
      es = .getNextRequest :: .sendRequest w.connIdx request :: (es₁ ++ es₂)) ∨
    (∃ workload, w.maySend = true ∧ w' = { w with workload := workload, running := false } ∧
      es = [.getNextRequest, .terminateEarly]) ∨
    w.estimate env.now = (w', es) := by
  unfold sendRequest at h
  split_ifs at h with hm
  · split at h
    · rename_i workload _
      cases h
      exact Or.inr (Or.inl ⟨workload, hm, rfl, rfl⟩)
    · rename_i request workload _
      obtain ⟨⟨w₁, es₁⟩, hc, he⟩ := Option.map_eq_some_iff.mp h
      cases he
      exact Or.inl ⟨workload, request, w₁, es₁, _, hm, hc, rfl, rfl⟩
  · exact Or.inr (Or.inr (Option.some.inj h))

theorem step_cases {inp : Input} (h : w.step W inp = some (w', es)) :
    (∃ env : SendEnv, ∃ workload request w₁ es₁ es₂, w.maySend = true ∧
      (w.issue workload env.sendTime).completeAll env.completions = some (w₁, es₁) ∧
      w₁.estimate env.now = (w', es₂) ∧
      es = .getNextRequest :: .sendRequest w.connIdx request :: (es₁ ++ es₂)) ∨
    (∃ workload, w.maySend = true ∧ w' = { w with workload := workload, running := false } ∧
      es = [.getNextRequest, .terminateEarly]) ∨
    (∃ t, w.estimate t = (w', es)) ∨
    (∃ c, w.complete c = some (w', es)) ∨
    Controls w w' es := by
  cases inp with
  | completion c => exact Or.inr (Or.inr (Or.inr (Or.inl ⟨c, h⟩)))
  | stop =>
      cases h
      exact Or.inr (Or.inr (Or.inr (Or.inr (by constructor <;> simp))))
  | message event env =>
      simp only [step] at h
      split_ifs at h with hcons
      unfold messageAvailable at h
      split_ifs at h with hstop
      · cases h
        exact Or.inr (Or.inr (Or.inr (Or.inr (by constructor <;> simp))))
      · split at h
        · cases h
          exact Or.inr (Or.inr (Or.inr (Or.inr (by constructor <;> simp))))
        · rcases sendRequest_cases h with hs | hs | hs
          · exact Or.inl ⟨env, hs⟩
          · exact Or.inr (Or.inl hs)
          · exact Or.inr (Or.inr (Or.inl ⟨env.now, hs⟩))
        · split at h <;> cases h <;>
            exact Or.inr (Or.inr (Or.inr (Or.inr (by constructor <;> simp [setMaxOutstanding]))))
        · split at h <;> cases h <;>
            exact Or.inr (Or.inr (Or.inr (Or.inr (by constructor <;> simp))))
        · cases h
          exact Or.inr (Or.inr (Or.inr (Or.inr (by constructor <;> simp))))

/-! ### Continuations and estimates -/

/-- What continuations and estimates leave alone, and how they count replies. -/
structure Keeps (w w' : Worker ω) (es : List (Effect ρ)) : Prop where
  quiet : ∀ e ∈ es, e.Quiet
  running : w'.running = w.running
  maxOutstandingRequests : w'.maxOutstandingRequests = w.maxOutstandingRequests
  phase : w'.phase = w.phase
  numberOfConnections : w'.numberOfConnections = w.numberOfConnections
  connIdx : w'.connIdx = w.connIdx
  sent : w'.sent = w.sent
  outstandingRequests : w'.outstandingRequests + es.countP Effect.isReply = w.outstandingRequests

theorem Keeps.trans (h : Keeps w w' es) (h' : Keeps w' w'' es') : Keeps w w'' (es ++ es') where
  quiet e he := (List.mem_append.mp he).elim (h.quiet e) (h'.quiet e)
  running := h'.running.trans h.running
  maxOutstandingRequests := h'.maxOutstandingRequests.trans h.maxOutstandingRequests
  phase := h'.phase.trans h.phase
  numberOfConnections := h'.numberOfConnections.trans h.numberOfConnections
  connIdx := h'.connIdx.trans h.connIdx
  sent := h'.sent.trans h.sent
  outstandingRequests := by
    have h1 := h.outstandingRequests
    have h2 := h'.outstandingRequests
    rw [List.countP_append]
    omega

theorem complete_keeps {c : Completion} (h : w.complete c = some (w', es)) : Keeps w w' es := by
  cases c with
  | reply request t recvTime =>
      obtain ⟨sendTime, -, he⟩ := Option.map_eq_some_iff.mp h
      cases he
      constructor
      case quiet =>
        intro e he
        simp only [List.mem_append, List.mem_cons, List.not_mem_nil, or_false] at he
        split_ifs at he
        · simp only [List.mem_cons, List.not_mem_nil, or_false] at he
          rcases he with rfl | rfl | rfl <;> exact ⟨rfl, rfl, rfl⟩
        · simp only [List.not_mem_nil, false_or] at he
          rcases he with rfl | rfl <;> exact ⟨rfl, rfl, rfl⟩
      case outstandingRequests =>
        simp only [List.countP_append]
        split_ifs <;> simp [List.countP_cons, Effect.isReply]
      all_goals rfl
  | future request error =>
      simp only [complete] at h
      split_ifs at h
      cases error with
      | none =>
          cases h
          constructor <;> simp
      | some className =>
          cases h
          constructor <;> simp [Effect.Quiet, Effect.isAsk, Effect.isSend, Effect.isTerminate,
            Effect.isReply]

/-- The rule for a list of continuations: what each of them does, composed. -/
theorem completeAll_induction {R : Worker ω → Worker ω → List (Effect ρ) → Prop}
    (hnil : ∀ w, R w w [])
    (htrans : ∀ w w₁ w₂ es₁ es₂, R w w₁ es₁ → R w₁ w₂ es₂ → R w w₂ (es₁ ++ es₂))
    (hcomplete : ∀ c w w' es, w.complete c = some (w', es) → R w w' es) :
    ∀ {cs : List Completion} {w w' : Worker ω} {es : List (Effect ρ)},
      w.completeAll cs = some (w', es) → R w w' es
  | [], w, w', es, h => by
      cases h
      exact hnil w
  | c :: cs, w, w', es, h => by
      obtain ⟨⟨w₁, es₁⟩, h1, h2⟩ := Option.bind_eq_some_iff.mp h
      obtain ⟨⟨w₂, es₂⟩, h3, he⟩ := Option.map_eq_some_iff.mp h2
      cases he
      have hfirst := hcomplete c w w₁ es₁ h1
      have hrest := completeAll_induction hnil htrans hcomplete h3
      exact htrans _ _ _ _ _ hfirst hrest

theorem completeAll_keeps {cs : List Completion} (h : w.completeAll cs = some (w', es)) :
    Keeps w w' es := by
  refine completeAll_induction ?_ ?_ ?_ h
  · intro w
    constructor <;> simp
  · exact fun _ _ _ _ _ h₁ h₂ => h₁.trans h₂
  · exact fun _ _ _ _ hc => complete_keeps hc

theorem sample_keeps {t : ℤ} (h : w.sample t = (w', es)) : Keeps w w' es := by
  unfold sample at h
  dsimp only at h
  split_ifs at h
  · cases h
    constructor <;> simp [Effect.Quiet, Effect.isAsk, Effect.isSend, Effect.isTerminate,
      Effect.isReply]
  · cases h
    constructor <;> simp

theorem estimate_keeps {t : ℤ} (h : w.estimate t = (w', es)) : Keeps w w' es := by
  unfold estimate at h
  split at h
  rename_i w₁ samples hs
  have hw := sample_keeps hs
  cases h
  constructor
  · intro e he
    simp only [List.cons_append, List.mem_cons, List.mem_append, List.mem_map,
      List.not_mem_nil, or_false] at he
    rcases he with rfl | ((he | ⟨p, -, rfl⟩) | ⟨p, -, rfl⟩) | rfl
    · exact ⟨rfl, rfl, rfl⟩
    · exact hw.quiet e he
    · exact ⟨rfl, rfl, rfl⟩
    · exact ⟨rfl, rfl, rfl⟩
    · exact ⟨rfl, rfl, rfl⟩
  · exact hw.running
  · exact hw.maxOutstandingRequests
  · exact hw.phase
  · exact hw.numberOfConnections
  · exact hw.connIdx
  · exact hw.sent
  · have := hw.outstandingRequests
    simpa [List.countP_append, List.countP_map, Effect.isReply, Function.comp_def] using this

/-! ### The requests in flight -/

/-- The requests in flight are distinct, were sent, and are what is outstanding. -/
structure Wf (w : Worker ω) : Prop where
  nodup : (w.inFlight.map Prod.fst).Nodup
  lt_sent : ∀ p ∈ w.inFlight, p.1 < w.sent
  outstandingRequests : w.outstandingRequests = w.inFlight.length

theorem length_filter_ne {l : List (ℕ × ℤ)} {k : ℕ} (hl : (l.map Prod.fst).Nodup)
    (hk : k ∈ l.map Prod.fst) : (l.filter fun e => e.1 ≠ k).length + 1 = l.length := by
  have hone : (l.map Prod.fst).count k = 1 := List.count_eq_one_of_mem hl hk
  have hsplit := List.length_eq_countP_add_countP (fun e : ℕ × ℤ => e.1 == k) (l := l)
  rw [List.count, List.countP_map] at hone
  have heq : l.countP (fun e => e.1 == k) = 1 := hone
  rw [← List.countP_eq_length_filter]
  simp only [beq_iff_eq] at hsplit
  simp only [ne_eq]
  omega

theorem start_wf (numberOfWorkers : ℤ) (numberOfConnections : ℕ)
    (maxOutstandingRequests : Int32) (workload : ω) (now : ℤ) :
    (start numberOfWorkers numberOfConnections maxOutstandingRequests workload now).Wf := by
  constructor <;> simp [start]

theorem Wf.of_eq (hw : w.Wf) (hsent : w'.sent = w.sent) (hin : w'.inFlight = w.inFlight)
    (hout : w'.outstandingRequests = w.outstandingRequests) : w'.Wf where
  nodup := by
    rw [hin]
    exact hw.nodup
  lt_sent := by
    rw [hin, hsent]
    exact hw.lt_sent
  outstandingRequests := by
    rw [hin, hout]
    exact hw.outstandingRequests

theorem issue_wf (hw : w.Wf) (workload : ω) (sendTime : ℤ) : (w.issue workload sendTime).Wf where
  nodup := by
    simp only [issue, List.map_append, List.map_cons, List.map_nil]
    rw [List.nodup_append]
    refine ⟨hw.nodup, by simp, ?_⟩
    intro a ha b hb
    obtain ⟨p, hp, rfl⟩ := List.mem_map.mp ha
    obtain rfl := List.mem_singleton.mp hb
    have := hw.lt_sent p hp
    omega
  lt_sent := by
    intro p hp
    simp only [issue] at hp ⊢
    rcases List.mem_append.mp hp with hp | hp
    · have := hw.lt_sent p hp
      omega
    · obtain rfl := List.mem_singleton.mp hp
      simp
  outstandingRequests := by
    have := hw.outstandingRequests
    simp only [issue, List.length_append, List.length_singleton]
    omega

theorem complete_wf {c : Completion} (hw : w.Wf) (h : w.complete c = some (w', es)) :
    w'.Wf := by
  cases c with
  | reply request t recvTime =>
      obtain ⟨sendTime, hl, he⟩ := Option.map_eq_some_iff.mp h
      cases he
      have hmem : request ∈ w.inFlight.map Prod.fst := by
        obtain ⟨l₁, l₂, he, -⟩ := List.lookup_eq_some_iff.mp hl
        simp [he]
      have hlen := length_filter_ne hw.nodup hmem
      have hout := hw.outstandingRequests
      constructor
      · exact hw.nodup.sublist (List.filter_sublist.map _)
      · exact fun p hp => hw.lt_sent p (List.mem_of_mem_filter hp)
      · simp only
        omega
  | future request error =>
      simp only [complete] at h
      split_ifs at h
      cases error <;> cases h <;> exact hw.of_eq rfl rfl rfl

theorem completeAll_wf {cs : List Completion} (hw : w.Wf)
    (h : w.completeAll cs = some (w', es)) : w'.Wf := by
  refine completeAll_induction (R := fun w w' _ => w.Wf → w'.Wf) ?_ ?_ ?_ h hw
  · exact fun _ hw => hw
  · exact fun _ _ _ _ _ h₁ h₂ hw => h₂ (h₁ hw)
  · exact fun _ _ _ _ hc hw => complete_wf hw hc

theorem estimate_wf {t : ℤ} (hw : w.Wf) (h : w.estimate t = (w', es)) : w'.Wf := by
  unfold estimate at h
  split at h
  rename_i w₁ samples hs
  cases h
  unfold sample at hs
  dsimp only at hs
  split_ifs at hs <;> cases hs <;> exact hw.of_eq rfl rfl rfl

theorem step_wf {inp : Input} (hw : w.Wf) (h : w.step W inp = some (w', es)) : w'.Wf := by
  rcases step_cases h with ⟨env, workload, request, w₁, es₁, es₂, -, hc, he, -⟩ |
    ⟨workload, -, rfl, -⟩ | ⟨t, he⟩ | ⟨c, hc⟩ | hc
  · exact estimate_wf (completeAll_wf (issue_wf hw workload env.sendTime) hc) he
  · exact hw.of_eq rfl rfl rfl
  · exact estimate_wf hw he
  · exact complete_wf hw hc
  · exact hw.of_eq hc.sent hc.inFlight hc.outstandingRequests

/-! ### The limit and the phase -/

theorem sendRequest_controls {env : SendEnv} (h : w.sendRequest W env = some (w', es)) :
    w'.maxOutstandingRequests = w.maxOutstandingRequests ∧ w'.phase = w.phase := by
  rcases sendRequest_cases h with ⟨workload, request, w₁, es₁, es₂, -, hc, he, -⟩ |
    ⟨workload, -, rfl, -⟩ | he
  · have hk := (completeAll_keeps hc).trans (estimate_keeps he)
    exact ⟨hk.maxOutstandingRequests, hk.phase⟩
  · exact ⟨rfl, rfl⟩
  · have hk := estimate_keeps he
    exact ⟨hk.maxOutstandingRequests, hk.phase⟩

/-- Only `SET_MAX_OUTSTANDING` and `SET_PHASE` change the limit and the phase, and only of a
worker that handles messages. -/
theorem step_controls {inp : Input} (h : w.step W inp = some (w', es)) :
    (w'.maxOutstandingRequests = inp.limit w.maxOutstandingRequests ∧
        w'.phase = inp.phase w.phase) ∨
      (w'.running = false ∧ w'.maxOutstandingRequests = w.maxOutstandingRequests ∧
        w'.phase = w.phase) := by
  cases inp with
  | completion c =>
      have hk := complete_keeps h
      exact Or.inl ⟨hk.maxOutstandingRequests, hk.phase⟩
  | stop =>
      cases h
      exact Or.inr ⟨rfl, rfl, rfl⟩
  | message event env =>
      simp only [step] at h
      split_ifs at h
      unfold messageAvailable at h
      split_ifs at h
      · cases h
        exact Or.inr ⟨rfl, rfl, rfl⟩
      · left
        obtain ⟨eventType, extraData⟩ := event
        cases eventType with
        | sendRequest => exact sendRequest_controls h
        | setMaxOutstanding => cases extraData <;> cases h <;> exact ⟨rfl, rfl⟩
        | setPhase => cases extraData <;> cases h <;> exact ⟨rfl, rfl⟩
        | stop =>
            cases h
            exact ⟨rfl, rfl⟩
        | reset =>
            cases h
            exact ⟨rfl, rfl⟩

theorem step_running {inp : Input} (h : w.step W inp = some (w', es)) (hr : w'.running = true) :
    w.running = true := by
  rcases step_cases h with ⟨env, workload, request, w₁, es₁, es₂, hm, -⟩ | ⟨workload, hm, -⟩ |
    ⟨t, he⟩ | ⟨c, hc⟩ | hc
  · simp only [maySend, Bool.and_eq_true] at hm
    exact hm.2
  · simp only [maySend, Bool.and_eq_true] at hm
    exact hm.2
  · exact (estimate_keeps he).running ▸ hr
  · exact (complete_keeps hc).running ▸ hr
  · exact hc.running hr

theorem step_stopped {inp : Input} (h : w.step W inp = some (w', es)) (hr : w.running = false) :
    w'.running = false ∧ w'.maxOutstandingRequests = w.maxOutstandingRequests := by
  have hr' : w'.running = false := by
    by_contra hr'
    rw [step_running h (by simpa using hr')] at hr
    cases hr
  refine ⟨hr', ?_⟩
  cases inp with
  | completion c => exact (complete_keeps h).maxOutstandingRequests
  | stop =>
      cases h
      rfl
  | message event env =>
      simp only [step] at h
      split_ifs at h
      rw [messageAvailable, if_pos (Or.inr hr)] at h
      cases h
      rfl

theorem step_limit {inp : Input} (h : w.step W inp = some (w', es)) (hr : w'.running = true) :
    w'.maxOutstandingRequests = inp.limit w.maxOutstandingRequests := by
  rcases step_controls h with ⟨hl, -⟩ | ⟨hr', -⟩
  · exact hl
  · rw [hr] at hr'
    cases hr'

theorem step_phase {inp : Input} (h : w.step W inp = some (w', es)) (hr : w'.running = true) :
    w'.phase = inp.phase w.phase := by
  rcases step_controls h with ⟨-, hp⟩ | ⟨hr', -⟩
  · exact hp
  · rw [hr] at hr'
    cases hr'

/-! ### Runs -/

/-- The runs of a worker on its own, with the log of its effects. -/
def lts (W : Workload ω ρ) : Lts (Worker ω × List (Effect ρ)) Input where
  step s inp := (s.1.step W inp).map fun (w, es) => (w, s.2 ++ es)

end Worker

end Treadmill
