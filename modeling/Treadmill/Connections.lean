import Treadmill.KeyOrder
import Treadmill.Progress
import Treadmill.Report

/-! # The connections

`Connection<Service>::sendRequest` of the two services (`services/memcached/Connection.h`,
`services/sleep/Connection.h`) under a worker.  A connection takes a request, some time later
calls the target for it, and makes the reply of what the target answers; the reply settles the
promise of the workload, whose future the workload handed out directly, so both continuations of a
request run on one answer.

A worker with its connections (`attached`) is a worker whose completions come this way.  Every
exception is then counted in both statistics (`exceptions_counted_twice`), a memcached test
reports none at all (`memcached_reports_nothing`), and `SleepTime` has a sample for each request
whose reply is a value (`sleepTime_complete`).

Nothing is said about when a connection calls the target.  A memcached connection adds a task for
each request to its own `FiberManager`, so the requests that a worker hands to several connections
may reach the target in another order. -/

namespace Treadmill

/-! ### The services -/

/-- The requests that `AsyncMcClient::sendSync` takes. -/
inductive McRequest where
  | get (key : String)
  | set (key value : String)
  | delete (key : String)
deriving DecidableEq, Repr

/-- `SleepRequest`, of the one operation `SLEEP`. -/
structure SleepRequest where
  sleepTime : Int64
deriving DecidableEq, Repr

/-- `Workload<SleepService>` under this `--sleep_time`. -/
def sleepWorkload (sleepTime : Int64) : Workload Unit SleepRequest where
  reset := id
  getNextRequest _ w := (some ⟨sleepTime⟩, w)

/-- A specialisation of `Connection<Service>`: the call of the target that it has made for a
request, at once or later, and what it makes of an answer: the reply, and a sample for a statistic
of its own. -/
structure Connection (ρ γ α : Type) where
  call : ρ → γ
  reply : α → Reply
  sample : α → Option Int64

/-- `Connection<MemcachedService>`: the call is that of the task given to `addTask`, which does not
look at what `sendSync` returns. -/
def memcachedConnection (α : Type) : Connection MemcachedRequest McRequest α where
  call request :=
    match request.type with
    | .get => .get request.key
    | .set => .set request.key request.value
    | .delete => .delete request.key
  reply _ := .value
  sample _ := none

/-- `Connection<SleepService>`: `goSleep` returns the time slept, or fails with an exception of
this class, and only a time is added to `SleepTime`. -/
def sleepConnection : Connection SleepRequest Int64 (Except String Int64) where
  call := SleepRequest.sleepTime
  reply
    | .ok _ => .value
    | .error className => .exception className
  sample
    | .ok time => some time
    | .error _ => none

/-- What settling a promise with a reply makes of its future. -/
def Reply.error : Reply → Option String
  | .value => none
  | .exception className => some className

/-- An answer of the target to a request, and the reading of the clock when it arrives. -/
structure Answer (α : Type) where
  request : ℕ
  answer : α
  recvTime : ℤ
deriving Repr

namespace Connection

variable {ρ γ α : Type} (C : Connection ρ γ α)

/-- The continuation on the reply. -/
def replied (x : Answer α) : Completion := .reply x.request (C.reply x.answer) x.recvTime

/-- The continuation on the workload's future. -/
def ended (x : Answer α) : Completion := .future x.request (C.reply x.answer).error

/-- The continuations of answers that arrive while request `n` is being sent.  The future of that
request gets its continuation only afterwards. -/
def inline (n : ℕ) (xs : List (Answer α)) : List Completion :=
  (xs.flatMap fun x => if x.request = n then [C.replied x] else [C.replied x, C.ended x]) ++
    (xs.filter fun x => x.request = n).map C.ended

end Connection

/-! ### What completions do -/

/-- The reply that arrives. -/
def Completion.replied : Completion → Option (ℕ × Reply)
  | .reply request t _ => some (request, t)
  | .future _ _ => none

/-- The future that ends, and its error. -/
def Completion.ended : Completion → Option (ℕ × Option String)
  | .reply _ _ _ => none
  | .future request error => some (request, error)

namespace Effect

variable {ρ : Type}

/-- The reply whose continuation ran. -/
def replied : Effect ρ → Option (ℕ × Reply)
  | .reply request t => some (request, t)
  | _ => none

/-- The error that nobody caught. -/
def erred : Effect ρ → Option (ℕ × String)
  | .uncaught request className => some (request, className)
  | _ => none

/-- The request handed over, and the connection that gets it. -/
def handed : Effect ρ → Option (ℕ × ρ)
  | .sendRequest connection request => some (connection, request)
  | _ => none

theorem filterMap_handed {es : List (Effect ρ)} (h : es.filterMap request = []) :
    es.filterMap handed = [] := by
  rw [List.filterMap_eq_nil_iff] at h ⊢
  intro e he
  have hnone := h e he
  cases e <;> first | rfl | cases hnone

theorem map_handed (es : List (Effect ρ)) :
    (es.filterMap handed).map Prod.snd = es.filterMap request := by
  rw [List.map_filterMap]
  congr 1
  funext e
  cases e <;> rfl

end Effect

/-- A request whose future ended with an error. -/
def failure (e : ℕ × Option String) : Option (ℕ × String) :=
  e.2.map fun className => (e.1, className)

/-- What becomes of the workload's future on this reply. -/
def outcome (r : ℕ × Reply) : ℕ × Option String := (r.1, r.2.error)

namespace Worker

variable {ω ρ : Type} {w w' w'' : Worker ω} {es es' : List (Effect ρ)} {cs cs' : List Completion}

/-- What completions do to a worker. -/
structure Completes (cs : List Completion) (w w' : Worker ω) (es : List (Effect ρ)) : Prop where
  replied : es.filterMap Effect.replied = cs.filterMap Completion.replied
  erred : es.filterMap Effect.erred = (cs.filterMap Completion.ended).filterMap failure
  pending : ((cs.filterMap Completion.replied).map Prod.fst ++ w'.pending).Perm w.pending
  openFutures : ((cs.filterMap Completion.ended).map Prod.fst ++ w'.openFutures).Perm w.openFutures

theorem Completes.trans (h : Completes cs w w' es) (h' : Completes cs' w' w'' es') :
    Completes (cs ++ cs') w w'' (es ++ es') where
  replied := by
    rw [List.filterMap_append, List.filterMap_append, h.replied, h'.replied]
  erred := by
    rw [List.filterMap_append, List.filterMap_append, List.filterMap_append, h.erred, h'.erred]
  pending := by
    rw [List.filterMap_append, List.map_append, List.append_assoc]
    exact (h'.pending.append_left _).trans h.pending
  openFutures := by
    rw [List.filterMap_append, List.map_append, List.append_assoc]
    exact (h'.openFutures.append_left _).trans h.openFutures

theorem complete_completes {c : Completion} (hw : w.Wf) (h : w.complete c = some (w', es)) :
    Completes [c] w w' es := by
  have hsettles := complete_settles hw h
  cases c with
  | reply request t recvTime =>
      obtain ⟨sendTime, -, he⟩ := Option.map_eq_some_iff.mp h
      have hanswered : es.filterMap Effect.answered = [request] := by
        cases he
        rw [List.filterMap_append]
        split_ifs <;> rfl
      have hpending := hsettles.pending
      rw [hanswered] at hpending
      cases he
      refine ⟨?_, ?_, hpending, .refl _⟩
      · rw [List.filterMap_append]
        split_ifs <;> rfl
      · rw [List.filterMap_append]
        split_ifs <;> rfl
  | future request error =>
      obtain ⟨hmem, he⟩ := Option.ite_none_right_eq_some.mp h
      cases error with
      | none =>
          cases he
          exact ⟨rfl, rfl, .refl _, (List.perm_cons_erase hmem).symm⟩
      | some className =>
          cases he
          exact ⟨rfl, rfl, .refl _, (List.perm_cons_erase hmem).symm⟩

theorem completeAll_completes (hw : w.Wf) (h : w.completeAll cs = some (w', es)) :
    Completes cs w w' es := by
  induction cs generalizing w es with
  | nil =>
      cases h
      exact ⟨rfl, rfl, .refl _, .refl _⟩
  | cons c cs ih =>
      obtain ⟨⟨w₁, es₁⟩, hfirst, hrest⟩ := Option.bind_eq_some_iff.mp h
      obtain ⟨⟨w₂, es₂⟩, hlast, he⟩ := Option.map_eq_some_iff.mp hrest
      cases he
      exact (complete_completes hw hfirst).trans (ih (complete_wf hw hfirst) hlast)

/-- Every future that ends does so as the reply to its request says. -/
def Settling (cs : List Completion) : Prop :=
  (cs.filterMap Completion.ended).Perm ((cs.filterMap Completion.replied).map outcome)

/-- What happens to the worker is no request and no reply; its tallies are kept or emptied. -/
structure Idles (w w' : Worker ω) (es : List (Effect ρ)) : Prop where
  numberOfConnections : w'.numberOfConnections = w.numberOfConnections
  connIdx : w'.connIdx = w.connIdx
  sent : w'.sent = w.sent
  inFlight : w'.inFlight = w.inFlight
  outstandingRequests : w'.outstandingRequests = w.outstandingRequests
  openFutures : w'.openFutures = w.openFutures
  tallies : (w'.nExceptionsByType = w.nExceptionsByType ∧
      w'.nUncaughtExceptionsByType = w.nUncaughtExceptionsByType) ∨
    (w'.nExceptionsByType = .empty ∧ w'.nUncaughtExceptionsByType = .empty)
  effects : ∀ e ∈ es, e.replied = none ∧ e.erred = none ∧ e.request = none

theorem Idles.filterMap_eq_nil (h : Idles w w' es) : es.filterMap Effect.replied = [] ∧
    es.filterMap Effect.erred = [] ∧ es.filterMap Effect.request = [] := by
  refine ⟨?_, ?_, ?_⟩ <;> rw [List.filterMap_eq_nil_iff] <;> intro e he
  · exact (h.effects e he).1
  · exact (h.effects e he).2.1
  · exact (h.effects e he).2.2

theorem estimate_idles {t : ℤ} (h : w.estimate t = (w', es)) : Idles w w' es := by
  obtain ⟨hconf, -⟩ := estimate_confined h
  obtain ⟨hin, hopen⟩ := estimate_requests h
  obtain ⟨hexceptions, huncaught, -⟩ := Meter.estimate_effects h
  have hk := estimate_keeps h
  refine ⟨hk.numberOfConnections, hk.connIdx, hk.sent, hin, ?_, hopen,
    Or.inr ⟨hexceptions, huncaught⟩, ?_⟩
  · unfold estimate at h
    split at h
    rename_i w₁ samples hs
    unfold sample at hs
    dsimp only at hs
    split_ifs at hs <;> cases hs <;> cases h <;> rfl
  · intro e he
    have hkind := hconf.effects e he
    cases e <;> first | exact ⟨rfl, rfl, rfl⟩ | cases hkind

/-- A handler that sends nothing changes no more than this. -/
theorem idles_update (w : Worker ω) (workload : ω) (phase : String) (running consuming : Bool)
    (maxOutstandingRequests : Int32)
    (he : es = [] ∨ es = [.reset] ∨ es = [.stopConsuming] ∨
      es = [.getNextRequest, .terminateEarly]) :
    Idles w { w with
      workload := workload
      phase := phase
      running := running
      consuming := consuming
      maxOutstandingRequests := maxOutstandingRequests } es ∧ es.any Effect.isSend = false := by
  refine ⟨⟨rfl, rfl, rfl, rfl, rfl, rfl, Or.inl ⟨rfl, rfl⟩, ?_⟩, ?_⟩
  · rcases he with rfl | rfl | rfl | rfl <;> simp [Effect.replied, Effect.erred, Effect.request]
  · rcases he with rfl | rfl | rfl | rfl <;> rfl

/-- What the handler of a message does: it sends a request, and answers may arrive meanwhile, or no
request is sent. -/
theorem message_cases {W : Workload ω ρ} {event : Event} {env : SendEnv}
    (h : w.step W (.message event env) = some (w', es)) :
    (∃ workload request w₁ es₁ es₂,
      (w.issue workload env.sendTime).completeAll env.completions = some (w₁, es₁) ∧
      w₁.estimate env.now = (w', es₂) ∧
      es = .getNextRequest :: .sendRequest w.connIdx request :: (es₁ ++ es₂)) ∨
    Idles w w' es ∧ es.any Effect.isSend = false := by
  obtain ⟨-, h⟩ := Option.ite_none_right_eq_some.mp h
  unfold messageAvailable at h
  split_ifs at h with hstop
  · cases h
    exact Or.inr (idles_update _ _ _ _ _ _ (by simp))
  · obtain ⟨eventType, extraData⟩ := event
    cases eventType with
    | sendRequest =>
        rcases sendRequest_cases h with ⟨workload, request, w₁, es₁, es₂, -, hc, he, rfl⟩ |
          ⟨workload, -, rfl, rfl⟩ | he
        · exact Or.inl ⟨workload, request, w₁, es₁, es₂, hc, he, rfl⟩
        · exact Or.inr (idles_update _ _ _ _ _ _ (by simp))
        · refine Or.inr ⟨estimate_idles he, List.any_eq_false.mpr fun e hm => ?_⟩
          have hkind := (estimate_confined he).1.effects e hm
          cases e <;> first | exact Bool.false_ne_true | cases hkind
    | setMaxOutstanding =>
        cases extraData <;> cases h <;> exact Or.inr (idles_update _ _ _ _ _ _ (by simp))
    | setPhase =>
        cases extraData <;> cases h <;> exact Or.inr (idles_update _ _ _ _ _ _ (by simp))
    | stop => exact absurd (Or.inl rfl) hstop
    | reset =>
        cases h
        exact Or.inr (idles_update _ _ _ _ _ _ (by simp))

/-! ### The connections take turns -/

/-- The requests go to the `n` connections in turn. -/
structure Rotates (n : ℕ) (w : Worker ω) (es : List (Effect ρ)) : Prop where
  numberOfConnections : w.numberOfConnections = n
  connIdx : w.connIdx = (es.filterMap Effect.handed).length % n
  turns : (es.filterMap Effect.handed).map Prod.fst =
    (List.range (es.filterMap Effect.handed).length).map (· % n)

theorem Rotates.quiet {n : ℕ} (hw : Rotates n w es)
    (hn : w'.numberOfConnections = w.numberOfConnections) (hidx : w'.connIdx = w.connIdx)
    (hes : es'.filterMap Effect.request = []) : Rotates n w' (es ++ es') := by
  have hhanded : (es ++ es').filterMap Effect.handed = es.filterMap Effect.handed := by
    rw [List.filterMap_append, Effect.filterMap_handed hes, List.append_nil]
  constructor
  · rw [hn, hw.numberOfConnections]
  · rw [hidx, hhanded, hw.connIdx]
  · rw [hhanded, hw.turns]

theorem Rotates.issue {n : ℕ} (hw : Rotates n w es) (workload : ω) (sendTime : ℤ) (request : ρ) :
    Rotates n (w.issue workload sendTime)
      (es ++ [.getNextRequest, .sendRequest w.connIdx request]) := by
  have hhanded : (es ++ [Effect.getNextRequest, .sendRequest w.connIdx request]).filterMap
      Effect.handed = es.filterMap Effect.handed ++ [(w.connIdx, request)] :=
    List.filterMap_append
  constructor
  · exact hw.numberOfConnections
  · rw [hhanded, List.length_append, List.length_singleton]
    change (w.connIdx + 1) % w.numberOfConnections = _
    rw [hw.connIdx, hw.numberOfConnections, Nat.mod_add_mod]
  · rw [hhanded, List.map_append, hw.turns, List.length_append, List.length_singleton,
      List.range_succ, List.map_append, List.map_singleton, List.map_singleton, hw.connIdx]

theorem step_rotates {W : Workload ω ρ} {inp : Input} {n : ℕ} (hw : Rotates n w es)
    (h : w.step W inp = some (w', es')) : Rotates n w' (es ++ es') := by
  cases inp with
  | completion c =>
      have hk := complete_keeps h
      exact hw.quiet hk.numberOfConnections hk.connIdx
        (complete_leaves (complete_confined h)).requests
  | stop =>
      cases h
      exact hw.quiet rfl rfl rfl
  | message event env =>
      rcases message_cases h with ⟨workload, request, w₁, es₁, es₂, hc, he, rfl⟩ | ⟨hidle, -⟩
      · have hissue := hw.issue workload env.sendTime request
        have hk := completeAll_keeps hc
        have hmid := hissue.quiet hk.numberOfConnections hk.connIdx
          (complete_leaves (completeAll_confined hc)).requests
        have hlast := estimate_idles he
        have hall := hmid.quiet hlast.numberOfConnections hlast.connIdx
          hlast.filterMap_eq_nil.2.2
        simpa only [List.append_assoc, List.cons_append, List.nil_append] using hall
      · exact hw.quiet hidle.numberOfConnections hidle.connIdx hidle.filterMap_eq_nil.2.2

theorem run_rotates {W : Workload ω ρ} {ins : List Input} {n : ℕ} (hw : Rotates n w es)
    (hr : (lts W).run (w, es) ins = some (w', es')) : Rotates n w' es' := by
  refine Lts.invariant (m := lts W)
    (P := fun s : Worker ω × List (Effect ρ) => Rotates n s.1 s.2) ?_ hw hr
  rintro ⟨u, us⟩ inp ⟨u', _⟩ hu hs
  obtain ⟨⟨u'', es''⟩, hstep, he⟩ := Option.map_eq_some_iff.mp hs
  cases he
  exact step_rotates hu hstep

/-! ### Exceptions are counted twice -/

/-- The exceptions of the replies are the errors of the workload's futures, and the worker has
counted both. -/
structure Direct (w : Worker ω) (es : List (Effect ρ)) : Prop where
  served : Served w es
  futures : w.openFutures.Perm w.pending
  failures : (es.filterMap Effect.erred).Perm
    (((es.filterMap Effect.replied).map outcome).filterMap failure)
  tallies : ∀ className,
    w.nUncaughtExceptionsByType.count className = w.nExceptionsByType.count className

theorem countP_fails (es : List (Effect ρ)) (className : String) :
    es.countP ((Meter.exceptions (ω := ω)).fails className) =
        (((es.filterMap Effect.replied).map outcome).filterMap failure).countP
          (fun e => e.2 = className) ∧
      es.countP ((Meter.uncaughtExceptions (ω := ω)).fails className) =
        (es.filterMap Effect.erred).countP (fun e => e.2 = className) := by
  induction es with
  | nil => exact ⟨rfl, rfl⟩
  | cons e es ih =>
      obtain ⟨hx, hu⟩ := ih
      rw [List.countP_cons, List.countP_cons, hx, hu]
      cases e with
      | reply request t =>
          cases t with
          | value => exact ⟨rfl, rfl⟩
          | exception c =>
              have hreply : (((Effect.reply request (.exception c) :: es).filterMap
                  Effect.replied).map outcome).filterMap failure =
                (request, c) :: ((es.filterMap Effect.replied).map outcome).filterMap failure := rfl
              rw [hreply, List.countP_cons]
              exact ⟨by simp [Meter.exceptions], rfl⟩
      | uncaught request c =>
          have hfuture : (Effect.uncaught request c :: es).filterMap Effect.erred =
            (request, c) :: es.filterMap Effect.erred := rfl
          rw [hfuture, List.countP_cons]
          exact ⟨rfl, by simp [Meter.uncaughtExceptions]⟩
      | _ => exact ⟨rfl, rfl⟩

theorem countP_fails_eq (hf : (es.filterMap Effect.erred).Perm
    (((es.filterMap Effect.replied).map outcome).filterMap failure)) (className : String) :
    es.countP ((Meter.uncaughtExceptions (ω := ω)).fails className) =
      es.countP ((Meter.exceptions (ω := ω)).fails className) := by
  obtain ⟨hx, hu⟩ := countP_fails (ω := ω) es className
  rw [hx, hu]
  exact hf.countP_eq _

theorem Completes.failures (h : Completes cs w w' es) (hcs : Settling cs) :
    (es.filterMap Effect.erred).Perm
      (((es.filterMap Effect.replied).map outcome).filterMap failure) := by
  rw [h.erred, h.replied]
  exact hcs.filterMap failure

theorem Direct.completeAll (hd : Direct w es) (hcs : Settling cs)
    (h : w.completeAll cs = some (w', es')) : Direct w' (es ++ es') := by
  have hwf := hd.served.wf
  have hc := completeAll_completes hwf h
  have hfailures := hc.failures hcs
  constructor
  · exact hd.served.settle (completeAll_wf hwf h) (completeAll_settles hwf h)
  · have hanswered : ((cs.filterMap Completion.ended).map Prod.fst).Perm
        ((cs.filterMap Completion.replied).map Prod.fst) := by
      have := hcs.map Prod.fst
      rwa [List.map_map] at this
    have := hc.openFutures.trans (hd.futures.trans hc.pending.symm)
    exact (List.perm_append_left_iff _).mp ((hanswered.symm.append_right _).trans this)
  · rw [List.filterMap_append, List.filterMap_append, List.map_append, List.filterMap_append]
    exact hd.failures.append hfailures
  · intro className
    have hx := (Meter.lawful_exceptions.completeAll h).count className
    have hu := (Meter.lawful_uncaughtExceptions.completeAll h).count className
    have heq := countP_fails_eq (ω := ω) hfailures className
    have := hd.tallies className
    change w'.nExceptionsByType.count className = _ at hx
    change w'.nUncaughtExceptionsByType.count className = _ at hu
    rw [hx, hu, heq]
    exact congrArg (· + _) this

theorem Direct.idle (hd : Direct w es) (h : Idles w w' es') : Direct w' (es ++ es') := by
  obtain ⟨hreplied, herred, -⟩ := h.filterMap_eq_nil
  constructor
  · refine hd.served.of_eq h.sent h.inFlight h.outstandingRequests h.openFutures fun e he => ?_
    have hquiet := h.effects e he
    cases e with
    | reply request t => cases hquiet.1
    | uncaught request className => cases hquiet.2.1
    | _ => exact ⟨rfl, rfl⟩
  · rw [h.openFutures, Worker.pending, h.inFlight]
    exact hd.futures
  · rw [List.filterMap_append, List.filterMap_append, hreplied, herred, List.append_nil,
      List.append_nil]
    exact hd.failures
  · intro className
    rcases h.tallies with ⟨hx, hu⟩ | ⟨hx, hu⟩
    · rw [hx, hu]
      exact hd.tallies className
    · rw [hx, hu]

theorem Direct.issue (hd : Direct w es) (workload : ω) (sendTime : ℤ) (connection : ℕ)
    (request : ρ) :
    Direct (w.issue workload sendTime) (es ++ [.getNextRequest, .sendRequest connection request])
    where
  served := hd.served.issue workload sendTime connection request
  futures := by
    have hpending : (w.issue workload sendTime).pending = w.pending ++ [w.sent] := List.map_append
    rw [hpending]
    exact hd.futures.append_right _
  failures := by
    rw [List.filterMap_append, List.filterMap_append]
    change (_ ++ []).Perm (((_ ++ []).map outcome).filterMap failure)
    rw [List.append_nil, List.append_nil]
    exact hd.failures
  tallies := hd.tallies

end Worker

/-! ### Answers -/

namespace Connection

variable {ρ γ α : Type} (C : Connection ρ γ α)

/-- The reply made of an answer. -/
def settle (x : Answer α) : ℕ × Reply := (x.request, C.reply x.answer)

theorem inline_replied (n : ℕ) (xs : List (Answer α)) :
    (C.inline n xs).filterMap Completion.replied = xs.map C.settle := by
  have hlast : ∀ l : List (Answer α), (l.map C.ended).filterMap Completion.replied = [] := by
    intro l
    rw [List.filterMap_eq_nil_iff]
    intro c hc
    obtain ⟨x, -, rfl⟩ := List.mem_map.mp hc
    rfl
  rw [inline, List.filterMap_append, hlast, List.append_nil]
  induction xs with
  | nil => rfl
  | cons x xs ih =>
      rw [List.flatMap_cons, List.filterMap_append, ih, List.map_cons]
      split_ifs <;> rfl

theorem inline_settling (n : ℕ) (xs : List (Answer α)) : Worker.Settling (C.inline n xs) := by
  have hlast : ∀ l : List (Answer α), (l.map C.ended).filterMap Completion.ended =
      (l.map C.settle).map outcome := by
    intro l
    induction l with
    | nil => rfl
    | cons x l ih => exact congrArg (List.cons (outcome (C.settle x))) ih
  have hfirst : (xs.flatMap fun x => if x.request = n then [C.replied x]
      else [C.replied x, C.ended x]).filterMap Completion.ended =
        ((xs.filter fun x => ¬ x.request = n).map C.settle).map outcome := by
    induction xs with
    | nil => rfl
    | cons x xs ih =>
        rw [List.flatMap_cons, List.filterMap_append, ih]
        by_cases hx : x.request = n
        · rw [if_pos hx, List.filter_cons_of_neg (by simpa using hx)]
          rfl
        · rw [if_neg hx, List.filter_cons_of_pos (by simpa using hx)]
          rfl
  rw [Worker.Settling, inline_replied, inline, List.filterMap_append, hfirst, hlast]
  rw [← List.map_append, ← List.map_append]
  refine ((List.perm_append_comm.trans ?_).map C.settle).map outcome
  have hsplit := List.filter_append_perm (fun x : Answer α => decide (x.request = n)) xs
  simpa using hsplit

end Connection

/-! ### A worker with its connections -/

/-- What the connections of a worker have seen: what the worker did, the calls of the requests
handed over that have got no answer, whether they have been made or not, and the samples of the
connections' own statistic. -/
structure Wire (ρ γ : Type) where
  log : List (Effect ρ)
  calls : List (ℕ × γ)
  samples : List Int64

/-- A handler on the worker's event base, with the answers of the target that arrive in it, and the
number of the request that it sends. -/
inductive Handler (α : Type) where
  | message (event : Event) (request : ℕ) (sendTime : ℤ) (answers : List (Answer α)) (now : ℤ)
  | answer (x : Answer α)
  | stop

/-- The inputs of the worker in a handler. -/
def Handler.inputs {ρ γ α : Type} (C : Connection ρ γ α) : Handler α → List Worker.Input
  | .message event request sendTime xs now => [.message event ⟨sendTime, C.inline request xs, now⟩]
  | .answer x => [.completion (C.replied x), .completion (C.ended x)]
  | .stop => [.stop]

/-- The answers that arrive in a handler. -/
def Handler.answers {α : Type} : Handler α → List (Answer α)
  | .message _ _ _ xs _ => xs
  | .answer x => [x]
  | .stop => []

section attached
variable {ω ρ γ α : Type} (C : Connection ρ γ α) (W : Workload ω ρ)

/-- The connections after the effects `es` and these answers; the request sent has number `n`. -/
def Wire.move (l : Wire ρ γ) (n : ℕ) (es : List (Effect ρ)) (xs : List (Answer α)) : Wire ρ γ where
  log := l.log ++ es
  calls := (l.calls ++ (es.filterMap Effect.request).map fun r => (n, C.call r)).filter
    fun c => c.1 ∉ xs.map Answer.request
  samples := l.samples ++ xs.filterMap fun x => C.sample x.answer

/-- A handler of a worker with its connections. -/
def attachedStep (s : Worker ω × Wire ρ γ) : Handler α → Option (Worker ω × Wire ρ γ)
  | .message event request sendTime xs now =>
      if request = s.1.sent then
        (s.1.step W (.message event ⟨sendTime, C.inline request xs, now⟩)).bind fun (w, es) =>
          -- an answer arrives in a message only while a request is being sent
          if xs = [] ∨ es.any Effect.isSend then some (w, s.2.move C s.1.sent es xs) else none
      else none
  | .answer x =>
      if x.request ∈ s.2.calls.map Prod.fst then
        (s.1.completeAll [C.replied x, C.ended x]).map fun (w, es) =>
          (w, s.2.move C s.1.sent es [x])
      else none
  | .stop => (s.1.step W .stop).map fun (w, es) => (w, s.2.move C s.1.sent es [])

/-- The runs of a worker with its connections. -/
def attached : Lts (Worker ω × Wire ρ γ) (Handler α) := ⟨attachedStep C W⟩

/-- What a worker has handed to its connections, in this order: the connection and its call. -/
def Wire.handed (l : Wire ρ γ) : List (ℕ × γ) :=
  (l.log.filterMap Effect.handed).map (Prod.map id C.call)

variable {C W} {s s' : Worker ω × Wire ρ γ} {a : Handler α} {xs : List (Answer α)}

theorem run_completions (w : Worker ω) (l : List (Effect ρ)) (cs : List Completion) :
    (Worker.lts W).run (w, l) (cs.map .completion) =
      (w.completeAll cs).map fun (w', es) => (w', l ++ es) := by
  induction cs generalizing w l with
  | nil => simp [Worker.completeAll, Lts.run]
  | cons c cs ih =>
      rw [List.map_cons, Lts.run_cons]
      change ((w.complete c).map _).bind _ = _
      cases hc : w.complete c with
      | none => simp [Worker.completeAll, hc]
      | some p =>
          obtain ⟨w₁, es₁⟩ := p
          simp only [Worker.completeAll, hc, Option.map_some, Option.bind_some, ih]
          cases w₁.completeAll cs with
          | none => rfl
          | some q => simp [List.append_assoc]

/-- A handler is a run of the worker's own. -/
theorem attached_step_run (h : (attached C W).step s a = some s') :
    (Worker.lts W).run (s.1, s.2.log) (a.inputs C) = some (s'.1, s'.2.log) := by
  cases a with
  | message event request sendTime xs now =>
      obtain ⟨-, h⟩ := Option.ite_none_right_eq_some.mp h
      obtain ⟨⟨w, es⟩, hstep, h⟩ := Option.bind_eq_some_iff.mp h
      obtain ⟨-, h⟩ := Option.ite_none_right_eq_some.mp h
      cases h
      rw [Handler.inputs, Lts.run_singleton]
      exact Option.map_eq_some_iff.mpr ⟨_, hstep, rfl⟩
  | answer x =>
      obtain ⟨-, h⟩ := Option.ite_none_right_eq_some.mp h
      obtain ⟨⟨w, es⟩, hstep, h⟩ := Option.map_eq_some_iff.mp h
      cases h
      have hrun := run_completions (W := W) s.1 s.2.log [C.replied x, C.ended x]
      rw [hstep] at hrun
      exact hrun
  | stop =>
      simp only [attached, attachedStep] at h
      obtain ⟨⟨w, es⟩, hstep, h⟩ := Option.map_eq_some_iff.mp h
      cases h
      rw [Handler.inputs, Lts.run_singleton]
      change ((s.1.step W .stop).map fun p => (p.1, s.2.log ++ p.2)) = _
      rw [hstep]
      rfl

/-- What the connections have seen, with the answers `xs`, agrees with what the worker knows. -/
structure Sound (C : Connection ρ γ α) (xs : List (Answer α)) (s : Worker ω × Wire ρ γ) :
    Prop where
  direct : s.1.Direct s.2.log
  calls : (s.2.calls.map Prod.fst).Perm s.1.pending
  asked : ∀ c ∈ s.2.calls, ∃ r ∈ s.2.log.filterMap Effect.request, c.2 = C.call r
  replied : s.2.log.filterMap Effect.replied = xs.map C.settle
  samples : s.2.samples = xs.filterMap fun x => C.sample x.answer

theorem perm_map_filter {l : List (ℕ × γ)} {a b : List ℕ} (h : (a ++ b).Perm (l.map Prod.fst))
    (hd : (l.map Prod.fst).Nodup) : ((l.filter fun c => c.1 ∉ a).map Prod.fst).Perm b := by
  have hab := List.nodup_append.mp (h.nodup_iff.mpr hd)
  have hleft : a.filter (fun n => n ∉ a) = [] :=
    List.filter_eq_nil_iff.mpr fun n hn => by simpa using hn
  have hright : b.filter (fun n => n ∉ a) = b := List.filter_eq_self.mpr fun n hn => by
    simpa using fun hm => hab.2.2 n hm n hn rfl
  have hfilter := h.filter fun n => decide (n ∉ a)
  rw [List.filter_append, hleft, hright, List.nil_append, List.filter_map] at hfilter
  exact hfilter.symm

theorem Sound.move (hs : Sound C xs s) {w : Worker ω} {es : List (Effect ρ)}
    {ys : List (Answer α)} (hd : w.Direct (s.2.log ++ es))
    (hreplied : es.filterMap Effect.replied = ys.map C.settle)
    (hpending : (ys.map Answer.request ++ w.pending).Perm
      (s.1.pending ++ (es.filterMap Effect.request).map fun _ => s.1.sent))
    (hnodup : (s.1.pending ++ (es.filterMap Effect.request).map fun _ => s.1.sent).Nodup) :
    Sound C (xs ++ ys) (w, s.2.move C s.1.sent es ys) := by
  obtain ⟨-, hcalls, hasked, hxs, hsamples⟩ := hs
  have hmap : ((s.2.calls ++ (es.filterMap Effect.request).map fun r => (s.1.sent, C.call r)).map
      Prod.fst).Perm (s.1.pending ++ (es.filterMap Effect.request).map fun _ => s.1.sent) := by
    rw [List.map_append, List.map_map]
    exact hcalls.append_right _
  refine ⟨hd, ?_, ?_, ?_, ?_⟩
  · exact perm_map_filter (hpending.trans hmap.symm) (hmap.nodup_iff.mpr hnodup)
  · intro c hc
    have hc := List.mem_of_mem_filter hc
    simp only [Wire.move, List.filterMap_append, List.mem_append] at hc ⊢
    rcases hc with hc | hc
    · obtain ⟨r, hr, he⟩ := hasked c hc
      exact ⟨r, Or.inl hr, he⟩
    · obtain ⟨r, hr, rfl⟩ := List.mem_map.mp hc
      exact ⟨r, Or.inr hr, rfl⟩
  · simp only [Wire.move, List.filterMap_append, List.map_append, hxs, hreplied]
  · simp only [Wire.move, List.filterMap_append, hsamples]

theorem attached_step_sound (hs : Sound C xs s) (h : (attached C W).step s a = some s') :
    Sound C (xs ++ a.answers) s' := by
  have hd := hs.direct
  have hnodup : s.1.pending.Nodup := hd.served.wf.nodup
  cases a with
  | message event request sendTime ys now =>
      obtain ⟨-, h⟩ := Option.ite_none_right_eq_some.mp h
      obtain ⟨⟨w, es⟩, hstep, h⟩ := Option.bind_eq_some_iff.mp h
      obtain ⟨hys, h⟩ := Option.ite_none_right_eq_some.mp h
      cases h
      rcases Worker.message_cases hstep with ⟨workload, r, w₁, es₁, es₂, hc, he, rfl⟩ |
        ⟨hidle, hsend⟩
      · have hissue := hd.issue workload sendTime s.1.connIdx r
        have hcs := Worker.completeAll_completes hissue.served.wf hc
        have hlast := Worker.estimate_idles he
        have hmid := hissue.completeAll (C.inline_settling request ys) hc
        have hrequests : (Effect.getNextRequest :: Effect.sendRequest s.1.connIdx r ::
            (es₁ ++ es₂)).filterMap Effect.request = [r] := by
          have hnone := (Worker.complete_leaves (Worker.completeAll_confined hc)).requests
          change r :: (es₁ ++ es₂).filterMap Effect.request = _
          rw [List.filterMap_append, hnone, hlast.filterMap_eq_nil.2.2, List.append_nil]
        have hpending : (s.1.issue workload sendTime).pending = s.1.pending ++ [s.1.sent] :=
          List.map_append
        refine hs.move ?_ ?_ ?_ ?_
        · have := hmid.idle hlast
          simpa only [List.append_assoc, List.cons_append, List.nil_append] using this
        · change (es₁ ++ es₂).filterMap Effect.replied = _
          rw [List.filterMap_append, hcs.replied, hlast.filterMap_eq_nil.1, List.append_nil,
            C.inline_replied]
          rfl
        · have hp := hcs.pending
          rw [C.inline_replied, List.map_map, hpending] at hp
          rw [hrequests, Worker.pending, hlast.inFlight]
          exact hp
        · rw [hrequests]
          have := hissue.served.wf.nodup
          rwa [← Worker.pending, hpending] at this
      · have hnil : ys = [] := hys.resolve_right (by simp [hsend])
        obtain ⟨hreplied, -, hrequest⟩ := hidle.filterMap_eq_nil
        subst hnil
        refine hs.move (hd.idle hidle) hreplied ?_ ?_
        · rw [hrequest, Worker.pending, hidle.inFlight, List.map_nil, List.append_nil]
          exact .refl _
        · rw [hrequest, List.map_nil, List.append_nil]
          exact hnodup
  | answer x =>
      obtain ⟨-, h⟩ := Option.ite_none_right_eq_some.mp h
      obtain ⟨⟨w, es⟩, hc, h⟩ := Option.map_eq_some_iff.mp h
      cases h
      have hcs := Worker.completeAll_completes hd.served.wf hc
      have hrequest := (Worker.complete_leaves (Worker.completeAll_confined hc)).requests
      refine hs.move (hd.completeAll ?_ hc) hcs.replied ?_ ?_
      · exact .refl _
      · rw [hrequest, List.map_nil, List.append_nil]
        exact hcs.pending
      · rw [hrequest, List.map_nil, List.append_nil]
        exact hnodup
  | stop =>
      simp only [attached, attachedStep] at h
      obtain ⟨⟨w, es⟩, hstep, h⟩ := Option.map_eq_some_iff.mp h
      cases h
      cases hstep
      refine hs.move (hd.idle ⟨rfl, rfl, rfl, rfl, rfl, rfl, Or.inl ⟨rfl, rfl⟩, by simp⟩) rfl ?_ ?_
      · simp [Handler.answers, Worker.pending]
      · simpa using hnodup

theorem attached_run_sound {as : List (Handler α)} (hs : Sound C [] s)
    (hr : (attached C W).run s as = some s') : Sound C (as.flatMap Handler.answers) s' := by
  refine Lts.history_induction (m := attached C W)
    (P := fun as s => Sound C (as.flatMap Handler.answers) s) hs ?_ hr
  rintro as s a s' - ih hstep
  rw [List.flatMap_append, List.flatMap_singleton]
  exact attached_step_sound ih hstep

end attached

/-! ### The system with connections -/

/-- The system and the connections of its workers. -/
structure Site (ω ρ γ : Type) where
  sys : System ω
  wires : ℕ → Wire ρ γ

/-- A step of a thread, or a handler of a worker with the answers that its connections got. -/
inductive SiteOp (α : Type) where
  | thread (t : Tid) (o : Op)
  | handle (i : ℕ) (a : Handler α) (terminates : Bool)

/-- A handler on a worker's event base; `stop()` is a call of the runner. -/
def Op.isHandler : Op → Bool
  | .work _ .stop _ => false
  | .work _ _ _ => true
  | _ => false

section site
variable {ω ρ γ α : Type} (C : Connection ρ γ α) (S : Setup) (W : Workload ω ρ)

/-- What a step does in the system. -/
def SiteOp.system : SiteOp α → History
  | .thread t o => [(t, o)]
  | .handle i a terminates => (a.inputs C).map fun inp => (.worker i, .work i inp terminates)

/-- What a step does to worker `i`. -/
def SiteOp.handlers (i : ℕ) : SiteOp α → List (Handler α)
  | .thread _ o => (o.inputs i).map fun _ => .stop
  | .handle j a _ => if j = i then [a] else []

/-- The answers that worker `i` has got, in their order. -/
def answersTo (i : ℕ) (k : List (SiteOp α)) : List (Answer α) :=
  (k.flatMap (SiteOp.handlers i)).flatMap Handler.answers

/-- The interleavings of the system with the answers of the target. -/
def site : Lts (Site ω ρ γ) (SiteOp α) where
  step s
    | .thread t o =>
        if o.isHandler then none
        else ((system S W).step s.sys (t, o)).map fun sys => ⟨sys, s.wires⟩
    | .handle i a terminates =>
        (attachedStep C W (s.sys.mem.workers i, s.wires i) a).bind fun (_, wire) =>
          ((system S W).run s.sys ((SiteOp.handle i a terminates).system C)).map fun sys =>
            ⟨sys, Function.update s.wires i wire⟩

/-- The system with new connections. -/
def Site.start (workload : ω) (clock : ℤ) : Site ω ρ γ :=
  ⟨Treadmill.start S workload clock, fun _ => ⟨[], [], []⟩⟩

/-- The history `k` leads the system with its connections to `s`. -/
def Site.Reaches (workload : ω) (clock : ℤ) (k : List (SiteOp α)) (s : Site ω ρ γ) : Prop :=
  (site C S W).run (.start S workload clock) k = some s

variable {C S W} {workload : ω} {clock : ℤ} {k : List (SiteOp α)} {s s' : Site ω ρ γ}

/-- The system with its connections is the system. -/
theorem site_system (hr : (site C S W).run s k = some s') :
    (system S W).run s.sys (k.flatMap (SiteOp.system C)) = some s'.sys := by
  refine Lts.run_flatMap (m := site C S W) (system S W) Site.sys _ ?_ hr
  intro s a s' hs
  cases a with
  | thread t o =>
      obtain ⟨-, hs⟩ := Option.ite_none_left_eq_some.mp hs
      obtain ⟨sys, hstep, rfl⟩ := Option.map_eq_some_iff.mp hs
      rw [SiteOp.system, Lts.run_singleton]
      exact hstep
  | handle i a terminates =>
      obtain ⟨⟨w, wire⟩, -, hs⟩ := Option.bind_eq_some_iff.mp hs
      obtain ⟨sys, hrun, rfl⟩ := Option.map_eq_some_iff.mp hs
      exact hrun

theorem inputs_system (i j : ℕ) (a : Handler α) (terminates : Bool) :
    inputs i ((SiteOp.handle j a terminates).system C) = if j = i then a.inputs C else [] := by
  simp only [inputs, SiteOp.system, List.flatMap_map, Op.inputs]
  by_cases hj : j = i
  · simp [hj]
  · simp [hj]

/-- What a worker does is decided by its inputs, whatever has been logged. -/
theorem run_worker_unique {ins : List Worker.Input} {w w₁ w₂ : Worker ω}
    {l l' l₁ l₂ : List (Effect ρ)} (h₁ : (Worker.lts W).run (w, l) ins = some (w₁, l₁))
    (h₂ : (Worker.lts W).run (w, l') ins = some (w₂, l₂)) : w₁ = w₂ := by
  induction ins generalizing w l l' with
  | nil =>
      cases h₁
      cases h₂
      rfl
  | cons inp ins ih =>
      obtain ⟨u₁, hs₁, h₁⟩ := (Lts.run_cons_iff _).mp h₁
      obtain ⟨u₂, hs₂, h₂⟩ := (Lts.run_cons_iff _).mp h₂
      obtain ⟨⟨w', es⟩, hstep, rfl⟩ := Option.map_eq_some_iff.mp hs₁
      obtain ⟨⟨w'', es'⟩, hstep', rfl⟩ := Option.map_eq_some_iff.mp hs₂
      obtain ⟨rfl, -⟩ := Prod.mk.inj (Option.some.inj (hstep.symm.trans hstep'))
      exact ih h₁ h₂

theorem Op.inputs_eq_stop {o : Op} (ho : o.isHandler = false) {i : ℕ} {inp : Worker.Input}
    (hinp : o.inputs i = [inp]) : inp = .stop := by
  cases o with
  | work j inp' terminates =>
      simp only [inputs] at hinp
      split_ifs at hinp
      obtain rfl := List.singleton_inj.mp hinp
      cases inp' with
      | stop => rfl
      | _ => cases ho
  | _ => cases hinp

theorem attached_step_stop (w : Worker ω) (l : Wire ρ γ) :
    (attached C W).step (w, l) .stop = some ({ w with running := false }, l) := by
  simp [attached, attachedStep, Worker.step, Wire.move]

theorem site_attached (hr : (site C S W).run s k = some s') (i : ℕ) :
    (attached C W).run (s.sys.mem.workers i, s.wires i) (k.flatMap (SiteOp.handlers i)) =
      some (s'.sys.mem.workers i, s'.wires i) := by
  refine Lts.run_flatMap (m := site C S W) (attached C W)
    (fun s => (s.sys.mem.workers i, s.wires i)) _ ?_ hr
  intro s a s' hs
  cases a with
  | thread t o =>
      obtain ⟨ho, hs⟩ := Option.ite_none_left_eq_some.mp hs
      obtain ⟨sys, hstep, rfl⟩ := Option.map_eq_some_iff.mp hs
      rcases step_worker hstep i with ⟨inp, es, hinp, hw⟩ | ⟨hinp, hw⟩
      · obtain rfl := Op.inputs_eq_stop (Bool.eq_false_of_not_eq_true ho) hinp
        obtain ⟨hstop, -⟩ := Prod.mk.inj (Option.some.inj hw)
        rw [SiteOp.handlers, hinp, List.map_singleton, Lts.run_singleton, attached_step_stop, hstop]
      · rw [SiteOp.handlers, hinp, hw]
        rfl
  | handle j a terminates =>
      obtain ⟨⟨w, wire⟩, ha, hs⟩ := Option.bind_eq_some_iff.mp hs
      obtain ⟨sys, hrun, rfl⟩ := Option.map_eq_some_iff.mp hs
      obtain ⟨es, hw⟩ := run_worker hrun i
      rw [inputs_system] at hw
      by_cases hj : j = i
      · subst hj
        rw [if_pos rfl] at hw
        obtain rfl := run_worker_unique (attached_step_run ha) hw
        dsimp only
        rw [SiteOp.handlers, if_pos rfl, Lts.run_singleton, Function.update_self]
        exact ha
      · rw [if_neg hj] at hw
        obtain ⟨hw, -⟩ := Prod.mk.inj (Option.some.inj hw)
        dsimp only
        rw [SiteOp.handlers, if_neg hj, Function.update_of_ne (Ne.symm hj), ← hw]
        rfl

theorem Site.Reaches.sound (hr : Site.Reaches C S W workload clock k s) (i : ℕ) :
    Sound C (answersTo i k) (s.sys.mem.workers i, s.wires i) := by
  refine attached_run_sound ⟨⟨?_, .refl _, .refl _, fun _ => rfl⟩, .refl _, ?_, rfl, rfl⟩
    (site_attached hr i)
  · exact Worker.start_served _ _ _ _ _
  · exact fun c hc => absurd hc List.not_mem_nil

theorem Site.Reaches.log_run (hr : Site.Reaches C S W workload clock k s) (i : ℕ) :
    (Worker.lts W).run ((Treadmill.start S workload clock).mem.workers i, [])
      ((k.flatMap (SiteOp.handlers i)).flatMap (Handler.inputs C)) =
        some (s.sys.mem.workers i, (s.wires i).log) :=
  Lts.run_flatMap (m := attached C W) (Worker.lts W) (fun s => (s.1, s.2.log)) _
    (fun _ _ _ h => attached_step_run h) (site_attached hr i)

theorem Site.Reaches.agrees (hr : Site.Reaches C S W workload clock k s) (i : ℕ) :
    (Meter.exceptions (ω := ω)).Agrees (s.sys.mem.workers i) (s.wires i).log ∧
      (Meter.uncaughtExceptions (ω := ω)).Agrees (s.sys.mem.workers i) (s.wires i).log :=
  ⟨agrees_run Meter.lawful_exceptions rfl (hr.log_run i),
    agrees_run Meter.lawful_uncaughtExceptions rfl (hr.log_run i)⟩

/-- **Exceptions are counted twice.**  The workload's future is the one of the promise that the
worker settles, and nobody else handles its errors: whatever the target answers, the uncaught
exceptions of a worker are the exceptions of its replies, and it adds as many of each class to the
one statistic as to the other. -/
theorem exceptions_counted_twice (hr : Site.Reaches C S W workload clock k s) (i : ℕ) :
    ((s.wires i).log.filterMap Effect.erred).Perm
        ((((s.wires i).log.filterMap Effect.replied).map outcome).filterMap failure) ∧
      ∀ className,
        ((s.wires i).log.map (Meter.uncaughtExceptions (ω := ω).adds className)).sum =
            ((s.wires i).log.map (Meter.exceptions (ω := ω).adds className)).sum ∧
          (s.sys.mem.workers i).nUncaughtExceptionsByType.count className =
            (s.sys.mem.workers i).nExceptionsByType.count className := by
  obtain ⟨-, -, hfailures, htallies⟩ := (hr.sound i).direct
  dsimp only at hfailures htallies
  obtain ⟨hx, hu⟩ := hr.agrees i
  refine ⟨hfailures, fun className => ⟨?_, htallies className⟩⟩
  have htotal := hx.total className
  have htotal' := hu.total className
  have hfails := Worker.countP_fails_eq (ω := ω) hfailures className
  have htally := htallies className
  change _ + (s.sys.mem.workers i).nExceptionsByType.count className = _ at htotal
  change _ + (s.sys.mem.workers i).nUncaughtExceptionsByType.count className = _ at htotal'
  omega

/-! ### Answers are accepted -/

theorem completions_enabled {sys : System ω} {cs : List Completion} {w : Worker ω}
    {es : List (Effect ρ)} (hm : sys.mem.aborted = false) (hsender : sys.loc (.worker i) = [])
    (hc : (sys.mem.workers i).completeAll cs = some (w, es)) :
    ((system S W).run sys (cs.map fun c => (.worker i, .work i (.completion c) false))).isSome := by
  induction cs generalizing sys es with
  | nil => rfl
  | cons c cs ih =>
      obtain ⟨⟨w₁, es₁⟩, hfirst, hrest⟩ := Option.bind_eq_some_iff.mp hc
      obtain ⟨⟨w₂, es₂⟩, hlast, he⟩ := Option.map_eq_some_iff.mp hrest
      cases he
      have hquiet : es₁.any Effect.isTerminate = false := by
        rw [List.any_eq_false]
        intro e he
        have hkind := (Worker.complete_confined hfirst).effects e he
        cases e <;> first | exact Bool.false_ne_true | cases hkind
      have hwork : Memory.accessWorkers W sys.mem.workers (.work i (.completion c) false) =
          some (Function.update sys.mem.workers i w₁) := by
        have hstep : (sys.mem.workers i).step W (.completion c) = some (w₁, es₁) := hfirst
        simp only [Memory.accessWorkers, Memory.work, hstep, Option.bind_some]
        exact if_pos hquiet.symm
      let sys' : System ω :=
        ⟨{ sys.mem with workers := Function.update sys.mem.workers i w₁, aborted := false },
          Function.update sys.loc (.worker i) []⟩
      have hs : (system S W).step sys (.worker i, .work i (.completion c) false) = some sys' := by
        refine Threads.step_iff.mpr ⟨sys'.mem, [], ?_, ?_, rfl⟩
        · exact Memory.access_iff.mpr ⟨hm, rfl, rfl, hwork, rfl, rfl⟩
        · change senderStep i (sys.loc (.worker i)) _ = _
          rw [hsender]
          exact if_pos rfl
      have hworker : sys'.mem.workers i = w₁ := Function.update_self _ _ _
      rw [List.map_cons, Lts.run_cons, hs]
      exact ih rfl (Function.update_self _ _ _) (hworker ▸ hlast)

/-- **The connections and the worker agree.**  The system with its connections is the system; the
calls that the target has not answered are those of the requests in flight, whose futures are
open; and any answer to any of them can arrive whenever the sender is between two handlers. -/
theorem connections_agree (hr : Site.Reaches C S W workload clock k s) (i : ℕ) :
    Treadmill.Reaches S W workload clock (k.flatMap (SiteOp.system C)) s.sys ∧
      ((s.wires i).calls.map Prod.fst).Perm (s.sys.mem.workers i).pending ∧
      (s.sys.mem.workers i).openFutures.Perm (s.sys.mem.workers i).pending ∧
      (s.sys.mem.aborted = false → s.sys.loc (.worker i) = [] →
        ∀ x : Answer α, x.request ∈ (s.wires i).calls.map Prod.fst →
          ∃ s', (site C S W).step s (.handle i (.answer x) false) = some s') := by
  obtain ⟨hd, hcalls, -, -, -⟩ := hr.sound i
  refine ⟨site_system hr, hcalls, hd.futures, fun hm hsender x hx => ?_⟩
  have hpending : x.request ∈ (s.sys.mem.workers i).pending := hcalls.mem_iff.mp hx
  have hopen : x.request ∈ (s.sys.mem.workers i).openFutures := hd.futures.mem_iff.mpr hpending
  obtain ⟨sendTime, hlookup⟩ : ∃ t, (s.sys.mem.workers i).inFlight.lookup x.request = some t := by
    rw [← Option.isSome_iff_exists, List.lookup_isSome_iff]
    obtain ⟨e, he, hfst⟩ := List.mem_map.mp hpending
    exact ⟨e, he, by simp [hfst]⟩
  have hc : ((s.sys.mem.workers i).completeAll (ρ := ρ) [C.replied x, C.ended x]).isSome := by
    simp only [Worker.completeAll, Connection.replied, Connection.ended, Worker.complete, hlookup,
      Option.map_some, Option.bind_some, Worker.replyCallback, hopen, if_true]
    rfl
  obtain ⟨⟨w, es⟩, hc⟩ := Option.isSome_iff_exists.mp hc
  obtain ⟨sys, hrun⟩ := Option.isSome_iff_exists.mp
    (completions_enabled (S := S) (W := W) hm hsender hc)
  obtain ⟨wire, ha⟩ : ∃ wire, attachedStep C W (s.sys.mem.workers i, s.wires i) (.answer x) =
      some (w, wire) := by
    refine ⟨(s.wires i).move C (s.sys.mem.workers i).sent es [x], ?_⟩
    simp only [attachedStep, if_pos hx, hc, Option.map_some]
  refine ⟨⟨sys, Function.update s.wires i wire⟩, Option.bind_eq_some_iff.mpr ⟨_, ha, ?_⟩⟩
  exact Option.map_eq_some_iff.mpr ⟨sys, hrun, rfl⟩

end site

/-- A sleep test of one worker up to the call for its first request. -/
def firstSleep : List (SiteOp (Except String Int64)) :=
  (opening ++ round 2).map (fun a => .thread a.1 a.2) ++
    [.handle 0 (.message .reset 0 0 [] 0) false, .handle 0 (.message .sendRequest 0 0 [] 0) false]

theorem connections_agree_firstSleep :
    ∃ s s', Site.Reaches sleepConnection (defaults 1) (sleepWorkload 1000) () 1 firstSleep s ∧
      (site sleepConnection (defaults 1) (sleepWorkload 1000)).step s
        (.handle 0 (.answer ⟨0, .ok 1001, 1⟩) false) = some s' := by
  have hrun : ((site sleepConnection (defaults 1) (sleepWorkload 1000)).run
      (.start (defaults 1) () 1) firstSleep).any (fun s => !s.sys.mem.aborted &&
        (s.sys.loc (.worker 0)).isEmpty &&
        decide ((s.wires 0).calls.map Prod.fst = [0])) = true := by
    decide +kernel
  obtain ⟨s, hr, hs⟩ := (Option.any_eq_true _ _).mp hrun
  simp only [Bool.and_eq_true, decide_eq_true_eq, List.isEmpty_iff] at hs
  obtain ⟨⟨hm, hsender⟩, hcalls⟩ := hs
  obtain ⟨-, -, -, haccepts⟩ := connections_agree hr 0
  obtain ⟨s', hs'⟩ := haccepts (by simpa using hm) hsender ⟨0, .ok 1001, 1⟩ (by simp [hcalls])
  exact ⟨s, s', hr, hs'⟩

/-- The target fails. -/
def failedSleep : List (SiteOp (Except String Int64)) :=
  firstSleep ++ [.handle 0 (.answer ⟨0, .error "Timeout", 1⟩) false]

theorem exceptions_counted_twice_failedSleep :
    ∃ s, Site.Reaches sleepConnection (defaults 1) (sleepWorkload 1000) () 1 failedSleep s ∧
      (s.sys.mem.workers 0).nUncaughtExceptionsByType.count "Timeout" = 1 := by
  have hrun : ((site sleepConnection (defaults 1) (sleepWorkload 1000)).run
      (.start (defaults 1) () 1) failedSleep).any (fun s =>
        decide ((s.sys.mem.workers 0).nExceptionsByType.count "Timeout" = 1)) = true := by
    decide +kernel
  obtain ⟨s, hr, hs⟩ := (Option.any_eq_true _ _).mp hrun
  obtain ⟨-, htwice⟩ := exceptions_counted_twice hr 0
  exact ⟨s, hr, (htwice "Timeout").2.trans (of_decide_eq_true hs)⟩

/-! ### A memcached test -/

section memcached
variable {α : Type} {S : Setup} {clock : ℤ} {k : List (SiteOp α)} {n : ℕ}
  {s : Site MemcachedWorkload MemcachedRequest McRequest}

/-- **A memcached test reports no exception**, whatever the target answers; and what a worker
hands to its connections, in turn, is to set a key below `n` to itself, or to get one that it
handed over to be set before. -/
theorem memcached_reports_nothing (h1 : 1 ≤ n) (h2 : n ≤ 2 ^ 31 - 1)
    (hr : Site.Reaches (memcachedConnection α) S (memcachedWorkload (.ofNat n)) .new clock k s)
    (i : ℕ) :
    (∀ className,
      ((s.wires i).log.map (Meter.exceptions (ω := MemcachedWorkload).adds className)).sum = 0 ∧
      ((s.wires i).log.map
        (Meter.uncaughtExceptions (ω := MemcachedWorkload).adds className)).sum = 0) ∧
    ∀ l connection call r,
      (s.wires i).handed (memcachedConnection α) = l ++ (connection, call) :: r →
      connection = l.length % S.numberOfConnections ∧
      ∃ key < n, call = .set (toString key) (toString key) ∨
        (call = .get (toString key) ∧ .set (toString key) (toString key) ∈ l.map Prod.snd) := by
  obtain ⟨⟨-, -, hfailures, -⟩, -, -, hxs, -⟩ := hr.sound i
  dsimp only at hfailures hxs
  constructor
  · intro className
    have hnone :
        (((s.wires i).log.filterMap Effect.replied).map outcome).filterMap failure = [] := by
      rw [hxs, List.filterMap_eq_nil_iff]
      intro e he
      obtain ⟨r, hr, rfl⟩ := List.mem_map.mp he
      obtain ⟨x, -, rfl⟩ := List.mem_map.mp hr
      rfl
    obtain ⟨hx, hu⟩ := Worker.countP_fails (ω := MemcachedWorkload) (s.wires i).log className
    rw [hnone] at hx hfailures
    rw [hfailures.eq_nil] at hu
    obtain ⟨hagrees, hagrees'⟩ := hr.agrees i
    have htotal := hagrees.total className
    have htotal' := hagrees'.total className
    rw [hx, List.countP_nil] at htotal
    rw [hu, List.countP_nil] at htotal'
    omega
  · intro l connection call r hl
    have hreplays : Worker.Replays (.ofNat n) (s.sys.mem.workers i) (s.wires i).log :=
      Worker.run_replays ⟨rfl, rfl, rfl⟩ (hr.log_run i)
    have hrotates : Worker.Rotates S.numberOfConnections (s.sys.mem.workers i) (s.wires i).log :=
      Worker.run_rotates ⟨rfl, (Nat.zero_mod _).symm, rfl⟩ (hr.log_run i)
    obtain ⟨l', k', he, rfl, hk⟩ := List.map_eq_append_iff.mp hl
    obtain ⟨⟨connection', request⟩, r', rfl, hc, -⟩ := List.map_eq_cons_iff.mp hk
    cases hc
    constructor
    · have hturns := hrotates.turns
      rw [he] at hturns
      have hget := congrArg (·[l'.length]?) hturns
      simpa using hget
    · have hrequests : (s.wires i).log.filterMap Effect.request =
          l'.map Prod.snd ++ request :: r'.map Prod.snd := by
        rw [← Effect.map_handed, he, List.map_append, List.map_cons]
      rw [hreplays.requests] at hrequests
      obtain ⟨key, hkey, hrequest⟩ := MemcachedWorkload.issued_ordered h1 h2 hrequests
      refine ⟨key, hkey, ?_⟩
      rcases hrequest with rfl | ⟨rfl, hset⟩
      · exact Or.inl rfl
      · obtain ⟨e, he, hsnd⟩ := List.mem_map.mp hset
        refine Or.inr ⟨rfl, ?_⟩
        rw [List.map_map]
        exact List.mem_map.mpr ⟨e, he, by simp [hsnd, memcachedConnection]⟩

end memcached

/-- A memcached test of one worker with one key, and an answer of the target. -/
def firstSet : List (SiteOp String) :=
  (opening ++ round 2).map (fun a => .thread a.1 a.2) ++
    [.handle 0 (.message .reset 0 0 [] 0) false, .handle 0 (.message .sendRequest 0 0 [] 0) false,
      .handle 0 (.answer ⟨0, "connection refused", 1⟩) false]

theorem memcached_reports_nothing_firstSet :
    ∃ s, Site.Reaches (memcachedConnection String) (defaults 1) (memcachedWorkload (.ofNat 1))
        .new 1 firstSet s ∧
      ((s.wires 0).log.map
        (Meter.exceptions (ω := MemcachedWorkload).adds "connection refused")).sum = 0 := by
  have hrun : ((site (memcachedConnection String) (defaults 1) (memcachedWorkload (.ofNat 1))).run
      (.start (defaults 1) .new 1) firstSet).isSome = true := by
    decide +kernel
  obtain ⟨s, hr⟩ := Option.isSome_iff_exists.mp hrun
  obtain ⟨hnothing, -⟩ := memcached_reports_nothing (by decide) (by decide) hr 0
  exact ⟨s, hr, (hnothing "connection refused").1⟩

/-! ### A sleep test -/

section sleep
variable {S : Setup} {clock : ℤ} {k : List (SiteOp (Except String Int64))} {time : Int64}
  {s : Site Unit SleepRequest Int64}

theorem sleep_requests {ins : List Worker.Input} {w w' : Worker Unit}
    {es : List (Effect SleepRequest)}
    (hr : (Worker.lts (sleepWorkload time)).run (w, []) ins = some (w', es)) :
    ∀ r ∈ es.filterMap Effect.request, r = ⟨time⟩ := by
  refine Lts.invariant (m := Worker.lts (sleepWorkload time))
    (P := fun s : Worker Unit × List (Effect SleepRequest) =>
      ∀ r ∈ s.2.filterMap Effect.request, r = ⟨time⟩) ?_ (by simp) hr
  rintro ⟨u, us⟩ inp ⟨u', _⟩ hu hs
  obtain ⟨⟨u'', es'⟩, hstep, he⟩ := Option.map_eq_some_iff.mp hs
  cases he
  intro r hr
  rw [List.filterMap_append] at hr
  rcases List.mem_append.mp hr with hr | hr
  · exact hu r hr
  · rcases Worker.step_workload hstep with hl | ⟨-, rfl⟩ | ⟨request, hh⟩ | hnone
    · rw [hl.requests] at hr
      cases hr
    · cases hr
    · rw [hh.requests, List.mem_singleton] at hr
      obtain ⟨hrequest, -⟩ := Prod.mk.inj hh.workload
      rw [hr, ← Option.some.inj hrequest]
    · cases (Prod.mk.inj hnone).1

/-- The request of an answer that gives a sample, and the sample. -/
def Connection.sampled {ρ γ α : Type} (C : Connection ρ γ α) (x : Answer α) : Option (ℕ × Int64) :=
  (C.sample x.answer).map (Prod.mk x.request)

theorem map_sampled {ρ γ α : Type} (C : Connection ρ γ α) (xs : List (Answer α)) :
    (xs.filterMap C.sampled).map Prod.snd = xs.filterMap fun x => C.sample x.answer := by
  rw [List.map_filterMap]
  congr 1
  funext x
  rw [Connection.sampled, Option.map_map]
  exact Option.map_id'

theorem sampled_append_failures (xs : List (Answer (Except String Int64))) :
    ((xs.filterMap sleepConnection.sampled).map Prod.fst ++
      (((xs.map sleepConnection.settle).map outcome).filterMap failure).map Prod.fst).Perm
        (xs.map Answer.request) := by
  induction xs with
  | nil => exact .refl _
  | cons x xs ih =>
      obtain ⟨request, answer, recvTime⟩ := x
      cases answer with
      | ok time => exact ih.cons request
      | error className => exact List.perm_middle.trans (ih.cons request)

/-- **`SleepTime` is complete.**  The samples are the times that the target has answered, in this
order.  Every request that a worker of a sleep test has sent gave one of them, or is an uncaught
exception, or its call is not answered, and only one of these; and every call asks for
`--sleep_time`. -/
theorem sleepTime_complete
    (hr : Site.Reaches sleepConnection S (sleepWorkload time) () clock k s) (i : ℕ) :
    (s.wires i).samples = ((answersTo i k).filterMap sleepConnection.sampled).map Prod.snd ∧
      (((answersTo i k).filterMap sleepConnection.sampled).map Prod.fst ++
        ((s.wires i).log.filterMap Effect.erred).map Prod.fst ++
          (s.wires i).calls.map Prod.fst).Perm (List.range (s.sys.mem.workers i).sent) ∧
      (s.wires i).samples.length + ((s.wires i).log.filterMap Effect.erred).length +
        (s.wires i).calls.length = (s.sys.mem.workers i).sent ∧
      ∀ c ∈ (s.wires i).calls, c.2 = time := by
  obtain ⟨⟨hserved, -, hfailures, -⟩, hcalls, hasked, hxs, hsamples⟩ := hr.sound i
  dsimp only at hserved hfailures hcalls hasked hxs hsamples
  have hsampled : (s.wires i).samples =
      ((answersTo i k).filterMap sleepConnection.sampled).map Prod.snd := by
    rw [hsamples, map_sampled]
  have hperm : (((answersTo i k).filterMap sleepConnection.sampled).map Prod.fst ++
      ((s.wires i).log.filterMap Effect.erred).map Prod.fst ++
        (s.wires i).calls.map Prod.fst).Perm (List.range (s.sys.mem.workers i).sent) := by
    have hanswered : (s.wires i).log.filterMap Effect.answered =
        (answersTo i k).map Answer.request := by
      have hmap : (s.wires i).log.filterMap Effect.answered =
          ((s.wires i).log.filterMap Effect.replied).map Prod.fst := by
        rw [List.map_filterMap]
        congr 1
        funext e
        cases e <;> rfl
      rw [hmap, hxs, List.map_map]
      rfl
    rw [hxs] at hfailures
    have hfirst := ((hfailures.map Prod.fst).append_left _).trans
      (sampled_append_failures (answersTo i k))
    rw [← hanswered] at hfirst
    exact (hfirst.append hcalls).trans hserved.pending
  refine ⟨hsampled, hperm, ?_, fun c hc => ?_⟩
  · have hlen := hperm.length_eq
    rw [List.length_append, List.length_append, List.length_map, List.length_map, List.length_map,
      List.length_range] at hlen
    rw [hsampled, List.length_map]
    exact hlen
  · obtain ⟨r, hmem, he⟩ := hasked c hc
    rw [he, sleep_requests (hr.log_run i) r hmem]
    rfl

end sleep

theorem sleepTime_complete_failedSleep :
    ∃ s, Site.Reaches sleepConnection (defaults 1) (sleepWorkload 1000) () 1 failedSleep s ∧
      (((answersTo 0 failedSleep).filterMap sleepConnection.sampled).map Prod.fst ++
        ((s.wires 0).log.filterMap Effect.erred).map Prod.fst ++
          (s.wires 0).calls.map Prod.fst).Perm [0] ∧
      (s.wires 0).samples.length + ((s.wires 0).log.filterMap Effect.erred).length +
        (s.wires 0).calls.length = 1 := by
  have hrun : ((site sleepConnection (defaults 1) (sleepWorkload 1000)).run
      (.start (defaults 1) () 1) failedSleep).any (fun s =>
        decide ((s.sys.mem.workers 0).sent = 1)) = true := by
    decide +kernel
  obtain ⟨s, hr, hs⟩ := (Option.any_eq_true _ _).mp hrun
  have hsent : (s.sys.mem.workers 0).sent = 1 := of_decide_eq_true hs
  obtain ⟨-, hperm, hcount, -⟩ := sleepTime_complete hr 0
  rw [hsent] at hperm hcount
  exact ⟨s, hr, hperm, hcount⟩

end Treadmill
