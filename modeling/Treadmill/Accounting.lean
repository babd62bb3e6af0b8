import Treadmill.Lib.Lts
import Treadmill.System
import Treadmill.WorkerSteps

/-! # Outstanding requests and their limit

A worker with its queue and the scheduler's member `max_outstanding_requests_` (`Lane`):
messages of any other kind arrive in any order, calls of
`Scheduler::setMaxOutstandingRequests` come one at a time (the write of the member, its read
and the put are one step each), and continuations run at any time, also inside a handler.

The lane keeps a log of what happened.  `Books` are the facts that tie the worker's members
to the log; `Announced` follows a limit from the call through the member, the queue and the
event's `int64` to the worker. -/

namespace Treadmill

variable {ω ρ : Type}

/-! ### The lane -/

/-- What the log of a lane records: a message is taken from the queue (with the argument of
the `setMaxOutstandingRequests` call that put it, if one did), or a handler has an effect. -/
inductive Entry (ρ : Type) where
  | consume (e : Event) (call : Option Int32)
  | effect (e : Effect ρ)

/-- A call of `setMaxOutstandingRequests` in progress: its argument, and the member once it
has read it. -/
structure Announcement where
  maxOutstanding : Int32
  read : Option UInt32

/-- One worker, its queue and the scheduler's member.  The argument kept with a message is
not part of it. -/
structure Lane (ω ρ : Type) where
  worker : Worker ω
  queue : List (Event × Option Int32)
  maxOutstandingRequests : UInt32
  announcing : Option Announcement
  log : List (Entry ρ)

/-- A step of a lane. -/
inductive Lane.Move where
  /-- some other thread puts a message that is not `SET_MAX_OUTSTANDING` -/
  | post (e : Event)
  /-- `setMaxOutstandingRequests` begins and writes the member -/
  | store (maxOutstanding : Int32)
  /-- it reads the member -/
  | load
  /-- it puts the message, and returns -/
  | put
  /-- the worker handles the message at the front -/
  | deliver (env : SendEnv)
  | complete (c : Completion)
  | stop

namespace Lane

/-- A worker that starts with an empty queue. -/
def start (w : Worker ω) (maxOutstandingRequests : UInt32) : Lane ω ρ :=
  ⟨w, [], maxOutstandingRequests, none, []⟩

/-- The worker handles an input. -/
def handle (W : Workload ω ρ) (s : Lane ω ρ) (inp : Worker.Input) : Option (Lane ω ρ) :=
  (s.worker.step W inp).map fun (w, es) =>
    { s with worker := w, log := s.log ++ es.map .effect }

/-- The steps of a lane. -/
def step (W : Workload ω ρ) (s : Lane ω ρ) : Move → Option (Lane ω ρ)
  | .post e =>
      if e.eventType ≠ .setMaxOutstanding then some { s with queue := s.queue ++ [(e, none)] }
      else none
  | .store maxOutstanding =>
      match s.announcing with
      | none =>
          some { s with
            maxOutstandingRequests := maxOutstanding.toUInt32
            announcing := some ⟨maxOutstanding, none⟩ }
      | some _ => none
  | .load =>
      match s.announcing with
      | some ⟨m, none⟩ => some { s with announcing := some ⟨m, some s.maxOutstandingRequests⟩ }
      | _ => none
  | .put =>
      match s.announcing with
      | some ⟨m, some v⟩ =>
          some { s with
            queue := s.queue ++ [(Event.setMaxOutstanding v, some m)]
            announcing := none }
      | _ => none
  | .deliver env =>
      match s.queue with
      | [] => none
      | (e, call) :: queue =>
          handle W { s with queue := queue, log := s.log ++ [.consume e call] } (.message e env)
  | .complete c => s.handle W (.completion c)
  | .stop => s.handle W .stop

/-- The runs of a lane. -/
def lts (W : Workload ω ρ) : Lts (Lane ω ρ) Move := ⟨step W⟩

end Lane

/-! ### Reading the log -/

section log

def Entry.isAsk : Entry ρ → Bool
  | .effect e => e.isAsk
  | _ => false

def Entry.isSend : Entry ρ → Bool
  | .effect e => e.isSend
  | _ => false

/-- Requests sent. -/
def sends (l : List (Entry ρ)) : ℕ := l.countP Entry.isSend

/-- Requests completed. -/
def replies (l : List (Entry ρ)) : ℕ :=
  l.countP fun | .effect e => e.isReply | _ => false

/-- The limit in force: the argument of the `setMaxOutstandingRequests` call whose message
was consumed last, or the initial limit. -/
def limitInForce (initial : Int32) (l : List (Entry ρ)) : Int32 :=
  ((l.filterMap fun | .consume _ call => call | _ => none).getLast?).getD initial

/-- A request is sent only below the limit in force, and on the connection whose turn it
is. -/
def WithinLimit (initial : Int32) (n : ℕ) (l : List (Entry ρ)) : Entry ρ → Prop
  | .effect (.sendRequest connection _) =>
      (sends l : ℤ) - replies l < (limitInForce initial l).toInt ∧ connection = sends l % n
  | _ => True

/-- Whenever the workload is asked for a request, it is sent next, or it is the null request
that ends the run. -/
def Answered (l : List (Entry ρ)) : Prop :=
  ∀ l₁ l₂, l = l₁ ++ Entry.effect .getNextRequest :: l₂ →
    (∃ connection request l₃, l₂ = Entry.effect (.sendRequest connection request) :: l₃) ∨
    ∃ l₃, l₂ = Entry.effect .terminateEarly :: l₃ ∧ ∀ e ∈ l₃, e.isAsk = false ∧ e.isSend = false

end log

/-! ### The invariant of the log -/

section books
variable {W : Workload ω ρ} {initial : Int32} {n : ℕ} {w w' : Worker ω} {l k : List (Entry ρ)}
  {es : List (Effect ρ)}

theorem sends_append (l k : List (Entry ρ)) : sends (l ++ k) = sends l + sends k :=
  List.countP_append

theorem replies_append (l k : List (Entry ρ)) : replies (l ++ k) = replies l + replies k :=
  List.countP_append

theorem sends_effects (es : List (Effect ρ)) :
    sends (es.map Entry.effect) = es.countP Effect.isSend :=
  List.countP_map

theorem replies_effects (es : List (Effect ρ)) :
    replies (es.map Entry.effect) = es.countP Effect.isReply :=
  List.countP_map

theorem sends_of_quiet (hq : ∀ e ∈ es, e.Quiet) : sends (es.map Entry.effect) = 0 := by
  rw [sends_effects, List.countP_eq_zero]
  intro e he
  simp [(hq e he).2.1]

theorem limitInForce_effects (initial : Int32) (l : List (Entry ρ)) (es : List (Effect ρ)) :
    limitInForce initial (l ++ es.map Entry.effect) = limitInForce initial l := by
  have hnil : (es.map Entry.effect).filterMap
      (fun | .consume _ call => call | _ => none : Entry ρ → Option Int32) = [] := by
    rw [List.filterMap_map]
    exact List.filterMap_eq_nil_iff.mpr fun _ _ => rfl
  unfold limitInForce
  rw [List.filterMap_append, hnil, List.append_nil]

theorem Answered.append_quiet (ha : Answered l)
    (hk : ∀ e ∈ k, e.isAsk = false ∧ e.isSend = false) : Answered (l ++ k) := by
  intro l₁ l₂ he
  rcases append_eq_append_cons he with ⟨m, hl, rfl⟩ | ⟨m, rfl, -⟩
  · rcases ha l₁ m hl with ⟨connection, request, l₃, rfl⟩ | ⟨l₃, rfl, h₃⟩
    · exact Or.inl ⟨connection, request, l₃ ++ k, rfl⟩
    · refine Or.inr ⟨l₃ ++ k, rfl, fun e he => ?_⟩
      rcases List.mem_append.mp he with he | he
      · exact h₃ e he
      · exact hk e he
  · have := (hk (.effect .getNextRequest) (by simp)).1
    cases this

/-- What the log says about the worker. -/
structure Books (initial : Int32) (n : ℕ) (w : Worker ω) (l : List (Entry ρ)) : Prop where
  wf : w.Wf
  numberOfConnections : w.numberOfConnections = n
  outstandingRequests : w.outstandingRequests = sends l - replies l
  connIdx : w.connIdx = sends l % n
  withinLimit : Always (WithinLimit initial n) l
  answered : Answered l
  ended : Entry.effect .terminateEarly ∈ l → w.running = false

theorem withinLimit_of_not_isSend {e : Entry ρ} (he : e.isSend = false) (l : List (Entry ρ)) :
    WithinLimit initial n l e := by
  unfold WithinLimit
  split
  · cases he
  · trivial

theorem Answered.append (ha : Answered l) (hl : Entry.effect .terminateEarly ∉ l)
    (hk : Answered k) : Answered (l ++ k) := by
  intro l₁ l₂ he
  rcases append_eq_append_cons he with ⟨m, rfl, rfl⟩ | ⟨m, rfl, -⟩
  · rcases ha l₁ m rfl with ⟨connection, request, l₃, rfl⟩ | ⟨l₃, rfl, -⟩
    · exact Or.inl ⟨connection, request, l₃ ++ k, rfl⟩
    · exact absurd (by simp) hl
  · exact hk m l₂ rfl

/-- A question is answered by what comes next. -/
theorem answered_cons (hk : ∀ e ∈ k, e.isAsk = false)
    (hc : (∃ connection request l₃, k = .effect (.sendRequest connection request) :: l₃) ∨
      k = [.effect .terminateEarly]) : Answered (.effect .getNextRequest :: k) := by
  intro l₁ l₂ he
  cases l₁ with
  | nil =>
      rw [List.nil_append, List.cons.injEq] at he
      obtain ⟨-, rfl⟩ := he
      exact hc.imp_right fun h => ⟨[], h, by simp⟩
  | cons e l₁ =>
      rw [List.cons_append, List.cons.injEq] at he
      have := hk (.effect .getNextRequest) (by simp [he.2])
      cases this

theorem Books.quiet (hb : Books initial n w l) (hq : ∀ e ∈ es, e.Quiet) (hw : w'.Wf)
    (hn : w'.numberOfConnections = w.numberOfConnections) (hc : w'.connIdx = w.connIdx)
    (ho : w'.outstandingRequests + es.countP Effect.isReply = w.outstandingRequests)
    (hr : w'.running = true → w.running = true) :
    Books initial n w' (l ++ es.map .effect) := by
  have hq' : ∀ e ∈ es.map Entry.effect, e.isAsk = false ∧ e.isSend = false := by
    intro e he
    obtain ⟨e', he', rfl⟩ := List.mem_map.mp he
    exact ⟨(hq e' he').1, (hq e' he').2.1⟩
  constructor
  · exact hw
  · rw [hn, hb.numberOfConnections]
  · have h1 := hb.outstandingRequests
    rw [sends_append, replies_append, sends_of_quiet hq, replies_effects]
    omega
  · rw [hc, hb.connIdx, sends_append, sends_of_quiet hq, Nat.add_zero]
  · exact hb.withinLimit.append fun e he _ => withinLimit_of_not_isSend (hq' e he).2 _
  · exact hb.answered.append_quiet hq'
  · intro hm
    rcases List.mem_append.mp hm with hm | hm
    · have := hb.ended hm
      by_contra hrun
      rw [hr (by simpa using hrun)] at this
      cases this
    · obtain ⟨e, he, hee⟩ := List.mem_map.mp hm
      cases hee
      have := (hq _ he).2.2
      cases this

theorem Books.notMem_terminate (hb : Books initial n w l) (hm : w.maySend = true) :
    Entry.effect .terminateEarly ∉ l := by
  intro ht
  have := hb.ended ht
  simp [Worker.maySend, this] at hm

theorem Books.terminate (hb : Books initial n w l) (hm : w.maySend = true) (workload : ω) :
    Books initial n { w with workload := workload, running := false }
      (l ++ [.effect .getNextRequest, .effect .terminateEarly]) where
  wf := hb.wf.of_eq rfl rfl rfl
  numberOfConnections := hb.numberOfConnections
  outstandingRequests := by
    rw [sends_append, replies_append]
    exact hb.outstandingRequests
  connIdx := by
    rw [sends_append]
    exact hb.connIdx
  withinLimit := hb.withinLimit.append fun e he _ => by
    refine withinLimit_of_not_isSend ?_ _
    simp only [List.mem_cons, List.not_mem_nil, or_false] at he
    rcases he with rfl | rfl <;> rfl
  answered := by
    refine hb.answered.append (hb.notMem_terminate hm) (answered_cons ?_ (Or.inr rfl))
    intro e he
    obtain rfl := List.mem_singleton.mp he
    rfl
  ended _ := rfl

theorem Books.issue (hb : Books initial n w l) (hm : w.maySend = true)
    (hmax : w.maxOutstandingRequests = limitInForce initial l) (workload : ω) (sendTime : ℤ)
    (request : ρ) :
    Books initial n (w.issue workload sendTime)
      (l ++ [.effect .getNextRequest, .effect (.sendRequest w.connIdx request)]) where
  wf := Worker.issue_wf hb.wf workload sendTime
  numberOfConnections := hb.numberOfConnections
  outstandingRequests := by
    have h1 := hb.outstandingRequests
    rw [sends_append, replies_append]
    simp only [Worker.issue, sends, replies, List.countP_cons, List.countP_nil, Entry.isSend,
      Effect.isSend, Effect.isReply] at h1 ⊢
    push_cast
    simp
    omega
  connIdx := by
    have h1 := hb.connIdx
    have h2 := hb.numberOfConnections
    rw [sends_append]
    simp only [Worker.issue, h1, h2]
    exact Nat.mod_add_mod _ _ _
  withinLimit := by
    rw [List.append_cons]
    refine Always.snoc (Always.snoc hb.withinLimit trivial) ?_
    have hlim : limitInForce initial (l ++ [.effect .getNextRequest]) = limitInForce initial l :=
      limitInForce_effects initial l [.getNextRequest]
    have hout := hb.outstandingRequests
    have hidx := hb.connIdx
    simp only [Worker.maySend, Bool.and_eq_true, decide_eq_true_eq] at hm
    rw [hmax] at hm
    unfold WithinLimit
    rw [hlim, sends_append, replies_append]
    exact ⟨by simpa [sends, replies, Entry.isSend, Effect.isSend, Effect.isReply] using
      hout ▸ hm.1, hidx⟩
  answered := by
    refine hb.answered.append (hb.notMem_terminate hm)
      (answered_cons ?_ (Or.inl ⟨w.connIdx, request, [], rfl⟩))
    intro e he
    obtain rfl := List.mem_singleton.mp he
    rfl
  ended ht := by
    rcases List.mem_append.mp ht with ht | ht
    · exact absurd ht (hb.notMem_terminate hm)
    · simp at ht

/-- Every handler keeps the books, provided the worker knows the limit in force when it
sends. -/
theorem Books.handle (hb : Books initial n w l) {inp : Worker.Input}
    (h : w.step W inp = some (w', es))
    (hmax : (∃ e ∈ es, e.isSend = true) → w.maxOutstandingRequests = limitInForce initial l) :
    Books initial n w' (l ++ es.map .effect) := by
  have hwf := Worker.step_wf hb.wf h
  rcases Worker.step_cases h with ⟨env, workload, request, w₁, es₁, es₂, hm, hc, he, rfl⟩ |
    ⟨workload, hm, rfl, rfl⟩ | ⟨t, he⟩ | ⟨c, hc⟩ | hc
  · have hk := (Worker.completeAll_keeps hc).trans (Worker.estimate_keeps he)
    have hissue := hb.issue hm (hmax ⟨.sendRequest w.connIdx request, by simp, rfl⟩) workload
      env.sendTime request
    have := hissue.quiet hk.quiet hwf hk.numberOfConnections hk.connIdx hk.outstandingRequests
      (fun hr => hk.running ▸ hr)
    simpa using this
  · exact hb.terminate hm workload
  · have hk := Worker.estimate_keeps he
    exact hb.quiet hk.quiet hwf hk.numberOfConnections hk.connIdx hk.outstandingRequests
      (fun hr => hk.running ▸ hr)
  · have hk := Worker.complete_keeps hc
    exact hb.quiet hk.quiet hwf hk.numberOfConnections hk.connIdx hk.outstandingRequests
      (fun hr => hk.running ▸ hr)
  · have hq : (∀ e ∈ es, e.Quiet) ∧ es.countP Effect.isReply = 0 := by
      rcases hc.effects with rfl | rfl | rfl <;>
        simp [Effect.Quiet, Effect.isAsk, Effect.isSend, Effect.isTerminate, Effect.isReply]
    refine hb.quiet hq.1 hwf hc.numberOfConnections hc.connIdx ?_ hc.running
    rw [hq.2, hc.outstandingRequests]
    simp

end books

/-! ### The way of a limit -/

namespace Worker

variable {W : Workload ω ρ} {w w' : Worker ω} {es : List (Effect ρ)}

theorem step_isSend {inp : Input} (h : w.step W inp = some (w', es))
    (hs : ∃ e ∈ es, e.isSend = true) :
    w.running = true ∧ ∃ d env, inp = .message ⟨.sendRequest, d⟩ env := by
  obtain ⟨e, he, hs⟩ := hs
  cases inp with
  | completion c =>
      have := ((complete_keeps h).quiet e he).2.1
      rw [this] at hs
      cases hs
  | stop =>
      cases h
      cases he
  | message event env =>
      simp only [step] at h
      split_ifs at h
      unfold messageAvailable at h
      split_ifs at h with hstop
      · cases h
        obtain rfl := List.mem_singleton.mp he
        cases hs
      · obtain ⟨eventType, extraData⟩ := event
        cases eventType with
        | sendRequest => exact ⟨by simpa using hstop, extraData, env, rfl⟩
        | reset =>
            cases h
            obtain rfl := List.mem_singleton.mp he
            cases hs
        | stop =>
            cases h
            cases he
        | setPhase => cases extraData <;> cases h <;> cases he
        | setMaxOutstanding => cases extraData <;> cases h <;> cases he

end Worker

/-- A message carries what the call that put it was given. -/
def Tagged (e : Event) : Option Int32 → Prop
  | some m => e = Event.setMaxOutstanding m.toUInt32
  | none => e.eventType ≠ .setMaxOutstanding

/-- A limit on its way: the call in progress, the messages in the queue, and the worker agree
with the arguments of the calls. -/
structure Announced (initial : Int32) (s : Lane ω ρ) : Prop where
  member : ∀ m, s.announcing = some ⟨m, none⟩ → s.maxOutstandingRequests = m.toUInt32
  read : ∀ m v, s.announcing = some ⟨m, some v⟩ → v = m.toUInt32
  queue : ∀ p ∈ s.queue, Tagged p.1 p.2
  worker : s.worker.running = true →
    s.worker.maxOutstandingRequests = limitInForce initial s.log

section lane
variable {W : Workload ω ρ} {initial : Int32} {n : ℕ} {s s' : Lane ω ρ} {w : Worker ω}
  {l : List (Entry ρ)} {e : Event}

theorem limitInForce_consume (initial : Int32) (l : List (Entry ρ)) (e : Event)
    (call : Option Int32) :
    limitInForce initial (l ++ [.consume e call]) = call.getD (limitInForce initial l) := by
  unfold limitInForce
  rw [List.filterMap_append]
  cases call with
  | none => simp
  | some m => simp

theorem Books.consume (hb : Books initial n w l) (e : Event) (call : Option Int32) :
    Books initial n w (l ++ [.consume e call]) where
  wf := hb.wf
  numberOfConnections := hb.numberOfConnections
  outstandingRequests := by
    rw [sends_append, replies_append]
    exact hb.outstandingRequests
  connIdx := by
    rw [sends_append]
    exact hb.connIdx
  withinLimit := hb.withinLimit.snoc trivial
  answered := hb.answered.append_quiet (by simp [Entry.isAsk, Entry.isSend])
  ended hm := hb.ended (by simpa using hm)

theorem Tagged.limit {call : Option Int32} (ht : Tagged e call) (env : SendEnv) (m : Int32) :
    (Worker.Input.message e env).limit m = call.getD m := by
  cases call with
  | some m' =>
      obtain rfl : e = Event.setMaxOutstanding m'.toUInt32 := ht
      exact int32_round_trip m'
  | none => exact Event.limit_of_ne ht m

/-- A handler keeps the lane in order when its input leaves the worker with the limit that
the log calls for. -/
theorem handle_inv {inp : Worker.Input} (h : s.handle W inp = some s')
    (hb : Books initial n s.worker s.log) (hq : ∀ p ∈ s.queue, Tagged p.1 p.2)
    (hlimit : s.worker.running = true →
      inp.limit s.worker.maxOutstandingRequests = limitInForce initial s.log) :
    Books initial n s'.worker s'.log ∧ (∀ p ∈ s'.queue, Tagged p.1 p.2) ∧
      (s'.worker.running = true →
        s'.worker.maxOutstandingRequests = limitInForce initial s'.log) ∧
      s'.announcing = s.announcing ∧ s'.maxOutstandingRequests = s.maxOutstandingRequests := by
  obtain ⟨⟨w', es⟩, hs, rfl⟩ := Option.map_eq_some_iff.mp h
  refine ⟨hb.handle hs ?_, hq, fun hr => ?_, rfl, rfl⟩
  · intro hsend
    obtain ⟨hr, d, env, rfl⟩ := Worker.step_isSend hs hsend
    exact hlimit hr
  · rw [Worker.step_limit hs hr, hlimit (Worker.step_running hs hr), limitInForce_effects]

theorem Lane.step_inv {a : Lane.Move} (hb : Books initial n s.worker s.log)
    (ha : Announced initial s) (h : s.step W a = some s') :
    Books initial n s'.worker s'.log ∧ Announced initial s' := by
  cases a with
  | post e =>
      simp only [step] at h
      split_ifs at h with he
      cases h
      refine ⟨hb, ha.member, ha.read, fun p hp => ?_, ha.worker⟩
      rcases List.mem_append.mp hp with hp | hp
      · exact ha.queue p hp
      · obtain rfl := List.mem_singleton.mp hp
        exact he
  | store m =>
      simp only [step] at h
      split at h <;> cases h
      refine ⟨hb, fun m' hm => ?_, fun m' v hm => ?_, ha.queue, ha.worker⟩
      · cases hm
        rfl
      · cases hm
  | load =>
      simp only [step] at h
      split at h <;> cases h
      rename_i m hm
      refine ⟨hb, fun m' hm' => ?_, fun m' v hm' => ?_, ha.queue, ha.worker⟩
      · cases hm'
      · cases hm'
        exact ha.member m hm
  | put =>
      simp only [step] at h
      split at h <;> cases h
      rename_i m v hm
      refine ⟨hb, fun m' hm' => ?_, fun m' v hm' => ?_, fun p hp => ?_, ha.worker⟩
      · cases hm'
      · cases hm'
      · rcases List.mem_append.mp hp with hp | hp
        · exact ha.queue p hp
        · obtain rfl := List.mem_singleton.mp hp
          rw [ha.read m v hm]
          rfl
  | deliver env =>
      simp only [step] at h
      split at h
      · cases h
      · rename_i e call queue hqueue
        have htag : Tagged e call := ha.queue (e, call) (by simp [hqueue])
        obtain ⟨hb', hq, hw, hann, hmax⟩ := handle_inv h (hb.consume e call)
          (fun p hp => ha.queue p (by simp [hqueue, hp])) (fun hr => by
            rw [htag.limit, limitInForce_consume, ha.worker hr])
        refine ⟨hb', ?_, ?_, hq, hw⟩
        · rw [hann, hmax]
          exact ha.member
        · rw [hann]
          exact ha.read
  | complete c =>
      obtain ⟨hb', hq, hw, hann, hmax⟩ := handle_inv h hb ha.queue ha.worker
      refine ⟨hb', ?_, ?_, hq, hw⟩
      · rw [hann, hmax]
        exact ha.member
      · rw [hann]
        exact ha.read
  | stop =>
      obtain ⟨hb', hq, hw, hann, hmax⟩ := handle_inv h hb ha.queue ha.worker
      refine ⟨hb', ?_, ?_, hq, hw⟩
      · rw [hann, hmax]
        exact ha.member
      · rw [hann]
        exact ha.read

theorem start_inv (numberOfWorkers : ℤ) (n : ℕ) (initial : Int32) (workload : ω) (now : ℤ)
    (member : UInt32) :
    Books initial n (Worker.start numberOfWorkers n initial workload now) ([] : List (Entry ρ)) ∧
      Announced initial (Lane.start (Worker.start numberOfWorkers n initial workload now) member :
        Lane ω ρ) := by
  constructor
  · constructor
    · exact Worker.start_wf _ _ _ _ _
    · rfl
    · rfl
    · exact (Nat.zero_mod n).symm
    · exact Always.nil
    · intro l₁ l₂ he
      simp at he
    · simp
  · constructor <;> simp [Lane.start, Worker.start, limitInForce]

/-- **Accounting and cap of outstanding requests**: in every state of every run of a lane,
`outstanding_requests_` is what was sent less what was completed and not negative, every
request was sent below the limit in force and on the connection whose turn it was, and the
workload was never asked for a request in vain. -/
theorem outstanding_within_limit {numberOfWorkers : ℤ} {workload : ω} {now : ℤ}
    {member : UInt32} {h : List Lane.Move}
    (hr : (Lane.lts W).run
      (Lane.start (Worker.start numberOfWorkers n initial workload now) member) h = some s) :
    s.worker.outstandingRequests = sends s.log - replies s.log ∧
    0 ≤ s.worker.outstandingRequests ∧
    (∀ l₁ connection request l₂,
      s.log = l₁ ++ Entry.effect (.sendRequest connection request) :: l₂ →
      (sends l₁ : ℤ) - replies l₁ < (limitInForce initial l₁).toInt ∧
        connection = sends l₁ % n) ∧
    Answered s.log := by
  have hinv : Books initial n s.worker s.log ∧ Announced initial s := by
    refine Lts.invariant (m := Lane.lts W)
      (P := fun s => Books initial n s.worker s.log ∧ Announced initial s) ?_
      (start_inv numberOfWorkers n initial workload now member) hr
    rintro t a u ⟨hb, ha⟩ hs
    exact Lane.step_inv hb ha hs
  obtain ⟨hb, -⟩ := hinv
  refine ⟨hb.outstandingRequests, ?_, ?_, hb.answered⟩
  · have := hb.wf.outstandingRequests
    omega
  · intro l₁ connection request l₂ he
    exact hb.withinLimit l₁ _ l₂ he

end lane

/-- A limit of one is announced while a request is in flight, the next request waits for the
reply. -/
def limitedLane : List Lane.Move :=
  [.post .sendRequest, .deliver {}, .store 1, .load, .put, .post .sendRequest,
    .deliver {}, .deliver {}, .complete (.reply 0 .value 5), .post .sendRequest,
    .deliver { completions := [.reply 1 (.exception "Timeout") 9] }]

theorem outstanding_within_limit_two_connections :
    ∃ s, (Lane.lts constantWorkload).run
        (Lane.start (Worker.start 1 2 3 () 0) 3 : Lane Unit Unit) limitedLane = some s ∧
      sends s.log = 2 ∧ s.worker.outstandingRequests = sends s.log - replies s.log ∧
      0 ≤ s.worker.outstandingRequests ∧ Answered s.log := by
  have hrun : ((Lane.lts constantWorkload).run
      (Lane.start (Worker.start 1 2 3 () 0) 3 : Lane Unit Unit) limitedLane).any
      (fun s => decide (sends s.log = 2)) = true := by
    decide +kernel
  obtain ⟨s, hr, hs⟩ := (Option.any_eq_true _ _).mp hrun
  obtain ⟨hout, hnonneg, -, hanswered⟩ := outstanding_within_limit hr
  exact ⟨s, hr, of_decide_eq_true hs, hout, hnonneg, hanswered⟩

end Treadmill
