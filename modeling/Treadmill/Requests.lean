import Treadmill.Delivery

/-! # The requests of a test

Every request that the loop schedules is accounted for, over the queue, the worker and its
connections.  A `SEND_REQUEST` is still in the queue, or it was handled: it reached the end of
`sendRequest` (sent, or withheld at the limit), it got the null request, or it found the worker
stopped and was dropped, which happens to one message at most (`Worker.Answers`).  Every request
sent is in flight or was answered, once (`Worker.Served`). -/

namespace Treadmill

namespace Effect

variable {ρ : Type}

def isStopConsuming : Effect ρ → Bool
  | .stopConsuming => true
  | _ => false

/-- The effects of a continuation. -/
def isContinued : Effect ρ → Bool
  | .reply _ _ | .latency _ | .uncaught _ _ | .setWorkerCounter _ => true
  | _ => false

/-- The effects of the end of `sendRequest`. -/
def isStatistic : Effect ρ → Bool
  | .estimate _ | .throughput _ | .outstanding _ | .increaseExceptions _ _
  | .increaseUncaughtExceptions _ _ | .setWorkerCounter _ => true
  | _ => false

/-- The request whose reply continuation ran. -/
def answered : Effect ρ → Option ℕ
  | .reply request _ => some request
  | _ => none

/-- The request whose future ended in an error that nobody caught. -/
def uncaughtIn : Effect ρ → Option ℕ
  | .uncaught request _ => some request
  | _ => none

end Effect

/-- A `SEND_REQUEST`, whatever its extra data. -/
def Event.isSendRequest (e : Event) : Bool := e.eventType = .sendRequest

namespace Worker

variable {ω ρ : Type} {W : Workload ω ρ} {w w' w'' : Worker ω} {es es' : List (Effect ρ)}
  {inp : Input} {ins : List Input}

/-- The `SEND_REQUEST`s among the inputs. -/
def requests (ins : List Input) : ℕ := (ins.filterMap Input.event).countP Event.isSendRequest

/-- The requests in flight. -/
def pending (w : Worker ω) : List ℕ := w.inFlight.map Prod.fst

/-! ### Continuations and estimates -/

/-- The workload and the consumer are left alone, and the effects are of one kind. -/
structure Confined (kind : Effect ρ → Bool) (w w' : Worker ω) (es : List (Effect ρ)) : Prop where
  consuming : w'.consuming = w.consuming
  workload : w'.workload = w.workload
  effects : ∀ e ∈ es, kind e = true

theorem Confined.countP_eq_zero {kind p : Effect ρ → Bool} (h : Confined kind w w' es)
    (hp : ∀ e, kind e = true → p e = false) : es.countP p = 0 := by
  rw [List.countP_eq_zero]
  intro e he
  simp [hp e (h.effects e he)]

theorem Confined.filterMap_eq_nil {α : Type} {kind : Effect ρ → Bool} {f : Effect ρ → Option α}
    (h : Confined kind w w' es) (hf : ∀ e, kind e = true → f e = none) : es.filterMap f = [] :=
  List.filterMap_eq_nil_iff.mpr fun e he => hf e (h.effects e he)

theorem complete_confined {c : Completion} (h : w.complete c = some (w', es)) :
    Confined Effect.isContinued w w' es := by
  cases c with
  | reply request t recvTime =>
      obtain ⟨sendTime, -, he⟩ := Option.map_eq_some_iff.mp h
      cases he
      refine ⟨rfl, rfl, ?_⟩
      split_ifs <;> simp [Effect.isContinued]
  | future request error =>
      obtain ⟨-, he⟩ := Option.ite_none_right_eq_some.mp h
      cases error <;> cases he <;> exact ⟨rfl, rfl, by simp [Effect.isContinued]⟩

theorem completeAll_confined {cs : List Completion} (h : w.completeAll cs = some (w', es)) :
    Confined Effect.isContinued w w' es := by
  refine completeAll_induction ?_ ?_ ?_ h
  · exact fun _ => ⟨rfl, rfl, by simp⟩
  · intro _ _ _ es₁ es₂ h₁ h₂
    refine ⟨h₂.consuming.trans h₁.consuming, h₂.workload.trans h₁.workload, ?_⟩
    exact List.forall_mem_append.mpr ⟨h₁.effects, h₂.effects⟩
  · exact fun _ _ _ _ hc => complete_confined hc

theorem estimate_confined {t : ℤ} (h : w.estimate t = (w', es)) :
    Confined Effect.isStatistic w w' es ∧ es.countP Effect.isEstimate = 1 := by
  unfold estimate at h
  split at h
  rename_i w₁ samples hs
  have hsamples : Confined Effect.isStatistic w w₁ samples ∧
      samples.countP Effect.isEstimate = 0 := by
    unfold sample at hs
    dsimp only at hs
    split_ifs at hs <;> cases hs <;> exact ⟨⟨rfl, rfl, by simp [Effect.isStatistic]⟩, rfl⟩
  obtain ⟨hconf, hcount⟩ := hsamples
  cases h
  refine ⟨⟨hconf.consuming, hconf.workload, ?_⟩, ?_⟩
  · intro e he
    simp only [List.cons_append, List.mem_cons, List.mem_append, List.mem_map, List.not_mem_nil,
      or_false] at he
    rcases he with rfl | ((he | ⟨p, -, rfl⟩) | ⟨p, -, rfl⟩) | rfl
    · rfl
    · exact hconf.effects e he
    · rfl
    · rfl
    · rfl
  · simp only [List.countP_append, List.countP_cons, List.countP_map, hcount]
    simp [Effect.isEstimate, Function.comp_def]

/-! ### What became of the messages -/

theorem countP_of_quiet (hq : ∀ e ∈ es, e.Quiet) :
    es.countP Effect.isSend = 0 ∧ es.countP Effect.isTerminate = 0 := by
  constructor <;> rw [List.countP_eq_zero] <;> intro e he
  · simp [(hq e he).2.1]
  · simp [(hq e he).2.2]

/-- What a handler's effects say of its message, of which `n` are `SEND_REQUEST`s: it is handled
where it gets to an estimate or to the null request, and only a consumer that stops drops it. -/
structure Answers (n : ℕ) (w w' : Worker ω) (es : List (Effect ρ)) : Prop where
  handled : es.countP Effect.isEstimate + es.countP Effect.isTerminate ≤ n
  dropped : n ≤ es.countP Effect.isEstimate + es.countP Effect.isTerminate +
    es.countP Effect.isStopConsuming
  withheld : es.countP Effect.isSend ≤ es.countP Effect.isEstimate
  stops : es.countP Effect.isStopConsuming + w'.consuming.toNat = w.consuming.toNat
  ends : es.countP Effect.isTerminate + w'.running.toNat ≤ w.running.toNat
  sends : w'.sent = w.sent + es.countP Effect.isSend

theorem complete_answers {es : List (Effect ρ)} (hc : Confined Effect.isContinued w w' es)
    (hk : Keeps w w' es) : Answers 0 w w' es := by
  obtain ⟨hs, ht⟩ := countP_of_quiet hk.quiet
  have hestimates : es.countP Effect.isEstimate = 0 :=
    hc.countP_eq_zero fun e he => by cases e <;> first | rfl | cases he
  have hstops : es.countP Effect.isStopConsuming = 0 :=
    hc.countP_eq_zero fun e he => by cases e <;> first | rfl | cases he
  refine ⟨by omega, by omega, by omega, ?_, ?_, ?_⟩
  · rw [hstops, hc.consuming, Nat.zero_add]
  · rw [ht, hk.running, Nat.zero_add]
  · rw [hs, hk.sent, Nat.add_zero]

theorem estimate_answers {t : ℤ} (h : w.estimate t = (w', es)) : Answers 1 w w' es := by
  obtain ⟨hc, hestimate⟩ := estimate_confined h
  have hk := estimate_keeps h
  obtain ⟨hs, ht⟩ := countP_of_quiet hk.quiet
  have hstops : es.countP Effect.isStopConsuming = 0 :=
    hc.countP_eq_zero fun e he => by cases e <;> first | rfl | cases he
  refine ⟨by omega, by omega, by omega, ?_, ?_, ?_⟩
  · rw [hstops, hc.consuming, Nat.zero_add]
  · rw [ht, hk.running, Nat.zero_add]
  · rw [hs, hk.sent, Nat.add_zero]

theorem Answers.trans {m n : ℕ} (h : Answers m w w' es) (h' : Answers n w' w'' es') :
    Answers (m + n) w w'' (es ++ es') := by
  obtain ⟨h₁, h₂, h₃, h₄, h₅, h₆⟩ := h
  obtain ⟨k₁, k₂, k₃, k₄, k₅, k₆⟩ := h'
  constructor <;> simp only [List.countP_append] <;> omega

theorem sendRequest_answers {env : SendEnv} (h : w.sendRequest W env = some (w', es)) :
    Answers 1 w w' es := by
  rcases sendRequest_cases h with ⟨workload, request, w₁, es₁, es₂, -, hc, he, rfl⟩ |
    ⟨workload, hm, rfl, rfl⟩ | he
  · obtain ⟨-, hestimate⟩ := estimate_confined he
    obtain ⟨hs₁, -⟩ := countP_of_quiet (completeAll_keeps hc).quiet
    obtain ⟨hs₂, -⟩ := countP_of_quiet (estimate_keeps he).quiet
    have hcounts : ∀ p : Effect ρ → Bool, p .getNextRequest = false →
        (.getNextRequest :: .sendRequest w.connIdx request :: (es₁ ++ es₂)).countP p =
          (es₁ ++ es₂).countP p + (p (.sendRequest w.connIdx request)).toNat := by
      intro p hp
      rw [List.countP_cons_of_neg (by simp [hp]), List.countP_cons]
      cases p (.sendRequest w.connIdx request) <;> rfl
    obtain ⟨h₁, h₂, -, h₄, h₅, h₆⟩ :=
      (complete_answers (completeAll_confined hc) (completeAll_keeps hc)).trans
        (estimate_answers he)
    constructor
    · rw [hcounts _ rfl, hcounts _ rfl]
      exact h₁
    · rw [hcounts _ rfl, hcounts _ rfl, hcounts _ rfl]
      exact h₂
    · rw [hcounts _ rfl, hcounts _ rfl, List.countP_append, List.countP_append, hs₁, hs₂,
        hestimate]
      exact Nat.le_add_left _ _
    · rw [hcounts _ rfl]
      exact h₄
    · rw [hcounts _ rfl]
      exact h₅
    · rw [hcounts _ rfl, h₆]
      exact Nat.add_right_comm w.sent 1 _
  · have hrun := (Bool.and_eq_true_iff.mp hm).2
    constructor <;> simp [Effect.isEstimate, Effect.isTerminate, Effect.isSend,
      Effect.isStopConsuming, hrun]
  · exact estimate_answers he

/-- A change of the controls has no effect of the kinds that are counted, but that it may stop
the consumer. -/
theorem step_answers {inp : Input} (h : w.step W inp = some (w', es)) :
    Answers (requests [inp]) w w' es := by
  cases inp with
  | completion c => exact complete_answers (complete_confined h) (complete_keeps h)
  | stop =>
      cases h
      exact ⟨le_rfl, le_rfl, le_rfl, Nat.zero_add _, Nat.zero_le _, rfl⟩
  | message event env =>
      obtain ⟨hcons, h⟩ := Option.ite_none_right_eq_some.mp h
      unfold messageAvailable at h
      split_ifs at h with hstop
      · cases h
        refine ⟨Nat.zero_le _, List.countP_le_length, le_rfl, ?_, Nat.zero_le _, rfl⟩
        rw [hcons]
        rfl
      · obtain ⟨eventType, extraData⟩ := event
        cases eventType with
        | sendRequest => exact sendRequest_answers h
        | setMaxOutstanding =>
            cases extraData <;> cases h <;>
              exact ⟨le_rfl, le_rfl, le_rfl, Nat.zero_add _, (Nat.zero_add _).le, rfl⟩
        | setPhase =>
            cases extraData <;> cases h <;>
              exact ⟨le_rfl, le_rfl, le_rfl, Nat.zero_add _, (Nat.zero_add _).le, rfl⟩
        | stop => exact absurd (Or.inl rfl) hstop
        | reset =>
            cases h
            exact ⟨le_rfl, le_rfl, le_rfl, Nat.zero_add _, (Nat.zero_add _).le, rfl⟩

theorem requests_snoc (ins : List Input) (inp : Input) :
    requests (ins ++ [inp]) = requests ins + requests [inp] := by
  rw [requests, List.filterMap_append, List.countP_append]
  rfl

/-! ### What became of the requests sent -/

/-- Continuations and estimates send nothing; they take the requests answered out of flight, and
the futures that end with an error out of the open ones. -/
structure Settles (w w' : Worker ω) (es : List (Effect ρ)) : Prop where
  sent : w'.sent = w.sent
  pending : (es.filterMap Effect.answered ++ w'.pending).Perm w.pending
  openFutures : (es.filterMap Effect.uncaughtIn ++ w'.openFutures).Subperm w.openFutures

theorem Settles.refl (w : Worker ω) : Settles w w ([] : List (Effect ρ)) :=
  ⟨rfl, .refl _, .refl _⟩

theorem Settles.trans (h : Settles w w' es) (h' : Settles w' w'' es') :
    Settles w w'' (es ++ es') where
  sent := h'.sent.trans h.sent
  pending := by
    rw [List.filterMap_append, List.append_assoc]
    exact (h'.pending.append_left _).trans h.pending
  openFutures := by
    rw [List.filterMap_append, List.append_assoc]
    exact ((List.subperm_append_left _).mpr h'.openFutures).trans h.openFutures

theorem complete_settles {c : Completion} (hw : w.Wf) (h : w.complete c = some (w', es)) :
    Settles w w' es := by
  cases c with
  | reply request t recvTime =>
      obtain ⟨sendTime, hl, he⟩ := Option.map_eq_some_iff.mp h
      have hmem : request ∈ w.pending := by
        obtain ⟨l₁, l₂, he, -⟩ := List.lookup_eq_some_iff.mp hl
        simp [pending, he]
      have hanswered : es.filterMap Effect.answered = [request] := by
        cases he
        rw [List.filterMap_append]
        split_ifs <;> rfl
      have huncaught : es.filterMap Effect.uncaughtIn = [] := by
        cases he
        rw [List.filterMap_append]
        split_ifs <;> rfl
      have hpending : w'.pending = w.pending.erase request := by
        have herase := hw.nodup.erase_eq_filter request
        rw [List.filter_map] at herase
        have hne : ((fun a => a != request) ∘ Prod.fst : ℕ × ℤ → Bool) =
            fun e => decide (e.1 ≠ request) := by
          funext e
          by_cases he : e.1 = request <;> simp [he]
        rw [hne] at herase
        cases he
        exact herase.symm
      cases he
      refine ⟨rfl, ?_, ?_⟩
      · rw [hanswered, hpending]
        exact (List.perm_cons_erase hmem).symm
      · rw [huncaught]
        exact .refl _
  | future request error =>
      obtain ⟨hmem, he⟩ := Option.ite_none_right_eq_some.mp h
      cases error with
      | none =>
          cases he
          exact ⟨rfl, .refl _, List.erase_subperm _ _⟩
      | some className =>
          cases he
          exact ⟨rfl, .refl _, (List.perm_cons_erase hmem).symm.subperm⟩

theorem completeAll_settles {cs : List Completion} (hw : w.Wf)
    (h : w.completeAll cs = some (w', es)) : Settles w w' es := by
  have hboth : w.Wf → w'.Wf ∧ Settles w w' es := by
    refine completeAll_induction
      (R := fun w w' es => w.Wf → w'.Wf ∧ Settles w w' es) ?_ ?_ ?_ h
    · exact fun w hw => ⟨hw, .refl w⟩
    · intro _ _ _ _ _ h₁ h₂ hw
      obtain ⟨hw₁, hs₁⟩ := h₁ hw
      obtain ⟨hw₂, hs₂⟩ := h₂ hw₁
      exact ⟨hw₂, hs₁.trans hs₂⟩
    · exact fun _ _ _ _ hc hw => ⟨complete_wf hw hc, complete_settles hw hc⟩
  exact (hboth hw).2

theorem estimate_requests {t : ℤ} (h : w.estimate t = (w', es)) :
    w'.inFlight = w.inFlight ∧ w'.openFutures = w.openFutures := by
  unfold estimate at h
  split at h
  rename_i w₁ samples hs
  cases h
  unfold sample at hs
  dsimp only at hs
  split_ifs at hs <;> cases hs <;> exact ⟨rfl, rfl⟩

theorem estimate_settles {t : ℤ} (h : w.estimate t = (w', es)) : Settles w w' es := by
  obtain ⟨hc, -⟩ := estimate_confined h
  have hanswered : es.filterMap Effect.answered = [] :=
    hc.filterMap_eq_nil fun e he => by cases e <;> first | rfl | cases he
  have huncaught : es.filterMap Effect.uncaughtIn = [] :=
    hc.filterMap_eq_nil fun e he => by cases e <;> first | rfl | cases he
  obtain ⟨hin, hopen⟩ := estimate_requests h
  refine ⟨(estimate_keeps h).sent, ?_, ?_⟩
  · rw [hanswered, Worker.pending, hin]
    exact .refl _
  · rw [huncaught, hopen]
    exact .refl _

/-- The requests sent are those answered and those in flight, each once, and no request's future
ends twice. -/
structure Served (w : Worker ω) (es : List (Effect ρ)) : Prop where
  wf : w.Wf
  pending : (es.filterMap Effect.answered ++ w.pending).Perm (List.range w.sent)
  openFutures :
    (es.filterMap Effect.uncaughtIn ++ w.openFutures).Subperm (List.range w.sent)

theorem Served.settle (h : Served w es) (hw' : w'.Wf) (hs : Settles w w' es') :
    Served w' (es ++ es') where
  wf := hw'
  pending := by
    rw [List.filterMap_append, List.append_assoc, hs.sent]
    exact (hs.pending.append_left _).trans h.pending
  openFutures := by
    rw [List.filterMap_append, List.append_assoc, hs.sent]
    exact ((List.subperm_append_left _).mpr hs.openFutures).trans h.openFutures

theorem Served.of_eq (h : Served w es) (hsent : w'.sent = w.sent)
    (hin : w'.inFlight = w.inFlight) (hout : w'.outstandingRequests = w.outstandingRequests)
    (hopen : w'.openFutures = w.openFutures)
    (hquiet : ∀ e ∈ es', e.answered = none ∧ e.uncaughtIn = none) : Served w' (es ++ es') := by
  refine h.settle (h.wf.of_eq hsent hin hout) ⟨hsent, ?_, ?_⟩
  · rw [List.filterMap_eq_nil_iff.mpr fun e he => (hquiet e he).1, Worker.pending, hin]
    exact .refl _
  · rw [List.filterMap_eq_nil_iff.mpr fun e he => (hquiet e he).2, hopen]
    exact .refl _

/-- The request that is issued is in flight, under the next number. -/
theorem Served.issue (h : Served w es) (workload : ω) (sendTime : ℤ) (connection : ℕ)
    (request : ρ) :
    Served (w.issue workload sendTime) (es ++ [.getNextRequest, .sendRequest connection request])
    where
  wf := issue_wf h.wf workload sendTime
  pending := by
    have hpending : (w.issue workload sendTime).pending = w.pending ++ [w.sent] := List.map_append
    rw [List.filterMap_append, hpending, ← List.append_assoc]
    change ((_ ++ []) ++ _ ++ _).Perm (List.range (w.sent + 1))
    rw [List.append_nil, List.range_succ]
    exact h.pending.append_right _
  openFutures := by
    have hopen : (w.issue workload sendTime).openFutures = w.openFutures ++ [w.sent] := rfl
    rw [List.filterMap_append, hopen, ← List.append_assoc]
    change ((_ ++ []) ++ _ ++ _).Subperm (List.range (w.sent + 1))
    rw [List.append_nil, List.range_succ]
    exact (List.subperm_append_right _).mpr h.openFutures

theorem sendRequest_served {env : SendEnv} (hw : Served w es)
    (h : w.sendRequest W env = some (w', es')) : Served w' (es ++ es') := by
  rcases sendRequest_cases h with ⟨workload, request, w₁, es₁, es₂, -, hc, he, rfl⟩ |
    ⟨workload, -, rfl, rfl⟩ | he
  · have hissue := hw.issue workload env.sendTime w.connIdx request
    have hcomplete := hissue.settle (completeAll_wf hissue.wf hc) (completeAll_settles hissue.wf hc)
    have hlast := hcomplete.settle (estimate_wf hcomplete.wf he) (estimate_settles he)
    simpa only [List.append_assoc, List.cons_append, List.nil_append] using hlast
  · exact hw.of_eq rfl rfl rfl rfl (by simp [Effect.answered, Effect.uncaughtIn])
  · exact hw.settle (estimate_wf hw.wf he) (estimate_settles he)

theorem step_served {inp : Input} (hw : Served w es) (h : w.step W inp = some (w', es')) :
    Served w' (es ++ es') := by
  cases inp with
  | completion c => exact hw.settle (complete_wf hw.wf h) (complete_settles hw.wf h)
  | stop =>
      cases h
      exact hw.of_eq rfl rfl rfl rfl (by simp)
  | message event env =>
      obtain ⟨-, h⟩ := Option.ite_none_right_eq_some.mp h
      unfold messageAvailable at h
      split_ifs at h with hstop
      · cases h
        exact hw.of_eq rfl rfl rfl rfl (by simp [Effect.answered, Effect.uncaughtIn])
      · obtain ⟨eventType, extraData⟩ := event
        cases eventType with
        | sendRequest => exact sendRequest_served hw h
        | setMaxOutstanding =>
            cases extraData <;> cases h <;> exact hw.of_eq rfl rfl rfl rfl (by simp)
        | setPhase => cases extraData <;> cases h <;> exact hw.of_eq rfl rfl rfl rfl (by simp)
        | stop => exact absurd (Or.inl rfl) hstop
        | reset =>
            cases h
            exact hw.of_eq rfl rfl rfl rfl (by simp [Effect.answered, Effect.uncaughtIn])

theorem start_served (numberOfWorkers : ℤ) (numberOfConnections : ℕ)
    (maxOutstandingRequests : Int32) (workload : ω) (now : ℤ) :
    Served (start numberOfWorkers numberOfConnections maxOutstandingRequests workload now)
      ([] : List (Effect ρ)) :=
  ⟨start_wf _ _ _ _ _, .refl _, .refl _⟩

theorem run_accounts (hw : Served w ([] : List (Effect ρ)))
    (hr : (lts W).run (w, []) ins = some (w', es)) :
    Answers (requests ins) w w' es ∧ Served w' es := by
  refine Lts.history_induction (m := lts W)
    (P := fun ins (s : Worker ω × List (Effect ρ)) =>
      Answers (requests ins) w s.1 s.2 ∧ Served s.1 s.2) ?_ ?_ hr
  · exact ⟨⟨le_rfl, le_rfl, le_rfl, Nat.zero_add _, (Nat.zero_add _).le, rfl⟩, hw⟩
  · rintro ins ⟨u, us⟩ inp ⟨u', us'⟩ - ⟨ha, hs⟩ hs'
    obtain ⟨⟨u'', es'⟩, hstep, he⟩ := Option.map_eq_some_iff.mp hs'
    cases he
    refine ⟨?_, step_served hs hstep⟩
    rw [requests_snoc]
    exact ha.trans (step_answers hstep)

end Worker

/-! ### From the loop to the reply -/

section runs
variable {ω ρ : Type} {S : Setup} {W : Workload ω ρ} {workload : ω} {clock : ℤ}
  {h : History} {s : System ω}

/-- **Requests are accounted for.**  Of the `SEND_REQUEST`s put on a worker's queue, some are
still there, each of the others was sent or withheld or got the null request, but for one at most
that was dropped when the worker stopped.  Every request sent is in flight or was answered, exactly
once, and an idle worker has the reply of every request it sent. -/
theorem requests_accounted (hr : Reaches S W workload clock h s) (i : ℕ) :
    ∃ es dropped,
      (Worker.lts W).run (((start S workload clock).mem).workers i, []) (inputs i h) =
        some (s.mem.workers i, es) ∧
      (puts i h).countP Event.isSendRequest =
        (s.mem.scheduler.queues i).countP Event.isSendRequest +
          (es.countP Effect.isEstimate + es.countP Effect.isTerminate + dropped) ∧
      dropped + (s.mem.workers i).consuming.toNat ≤ 1 ∧
      es.countP Effect.isTerminate + (s.mem.workers i).running.toNat ≤ 1 ∧
      es.countP Effect.isSend ≤ es.countP Effect.isEstimate ∧
      (s.mem.workers i).sent = es.countP Effect.isSend ∧
      (es.filterMap Effect.answered ++ (s.mem.workers i).pending).Perm
        (List.range (s.mem.workers i).sent) ∧
      (es.filterMap Effect.uncaughtIn).Nodup ∧
      ((s.mem.workers i).hasMoreWork = false →
        (es.filterMap Effect.answered).Perm (List.range (s.mem.workers i).sent)) := by
  obtain ⟨es, hw⟩ := run_worker hr i
  obtain ⟨ha, hs⟩ := Worker.run_accounts (Worker.start_served _ _ _ _ _) hw
  obtain ⟨hhandled, hdropped, hwithheld, hstops, hends, hsends⟩ := ha
  have hfifo := congrArg (List.countP Event.isSendRequest) (run_fifo hr i)
  rw [List.countP_append, List.countP_append, takes_eq_filterMap] at hfifo
  change 0 + _ = Worker.requests _ + _ at hfifo
  change _ = 1 at hstops
  change _ ≤ 1 at hends
  refine ⟨es, Worker.requests (inputs i h) -
    (es.countP Effect.isEstimate + es.countP Effect.isTerminate), hw, by omega, by omega, hends,
    hwithheld, ?_, hs.pending, ?_, ?_⟩
  · rw [hsends]
    exact Nat.zero_add _
  · obtain ⟨l, hl, hsub⟩ := hs.openFutures
    have hnodup : l.Nodup := List.nodup_range.sublist hsub
    exact (List.nodup_append.mp (hl.nodup_iff.mp hnodup)).1
  · intro hidle
    have hout : (s.mem.workers i).inFlight.length = 0 := by
      have hlen := hs.wf.outstandingRequests
      rw [Worker.hasMoreWork, Bool.or_eq_false_iff, decide_eq_false_iff_not] at hidle
      omega
    have hpending := hs.pending
    rw [Worker.pending, List.length_eq_zero_iff.mp hout] at hpending
    rwa [List.map_nil, List.append_nil] at hpending

/-- One request, from the loop to its reply. -/
def answeredOnce : History :=
  opening ++ round 2 ++
    ([(.worker 0, .work 0 (.message .reset {}) false),
      (.worker 0, .work 0 (.message .sendRequest {}) false),
      (.worker 0, .work 0 (.completion (.reply 0 .value 1)) false)] : History)

theorem requests_accounted_answeredOnce :
    ∃ s, ∃ es : List (Effect Unit), Reaches (defaults 1) constantWorkload () 1 answeredOnce s ∧
      (puts 0 answeredOnce).countP Event.isSendRequest =
        0 + (es.countP Effect.isEstimate + es.countP Effect.isTerminate + 0) ∧
      (es.filterMap Effect.answered).Perm [0] := by
  have hrun : ((system (defaults 1) constantWorkload).run (start (defaults 1) () 1)
      answeredOnce).any (fun s => decide (s.mem.scheduler.queues 0 = []) &&
        (s.mem.workers 0).consuming && decide ((s.mem.workers 0).sent = 1) &&
        decide ((s.mem.workers 0).inFlight = [])) = true := by
    decide +kernel
  obtain ⟨s, hr, hs⟩ := (Option.any_eq_true _ _).mp hrun
  simp only [Bool.and_eq_true, decide_eq_true_eq] at hs
  obtain ⟨⟨⟨hqueue, hcons⟩, hsent⟩, hin⟩ := hs
  obtain ⟨es, dropped, -, hputs, hdropped, -, -, -, hpending, -⟩ := requests_accounted hr 0
  rw [hcons] at hdropped
  rw [hqueue, Nat.le_zero.mp (Nat.le_of_add_le_add_right hdropped)] at hputs
  rw [hsent, Worker.pending, hin, List.map_nil, List.append_nil] at hpending
  exact ⟨s, es, hr, hputs, hpending⟩

end runs

end Treadmill
