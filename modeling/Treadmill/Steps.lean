import Treadmill.System

/-! # What the steps do

Each fact about a step of the system is stated here once, for one part of the state: the
run state, the queues, the skeleton of the loop's control and what a client thread can do.
The invariants of the other modules follow from these and do not unfold the steps again.

* `RunState.step` is the life of `state_` on its own.
* `Loop.Transition` has a constructor for every branch of the loop (`Loop.step_iff`).
* `Stage` and `Moves` are the control flow of `Scheduler::loop` without its data: an
  automaton over the operations that the loop follows (`Loop.moves`).
* `view_induction` is the induction rule for facts about a history, the stage of the loop
  and the run state. -/

namespace Treadmill

/-! ### The run state -/

namespace RunState

/-- What an operation does to `state_`. -/
def step (v : RunState) : Op → Option RunState
  | .loadState w => if v = w then some v else none
  | .casPaused took =>
      if took = decide (v = .running) then some (if took then .paused else v) else none
  | .casRunning took =>
      if took = decide (v = .paused) then some (if took then .running else v) else none
  | .storeStopping => some .stopping
  | .checkPaused ok => if ok = decide (v = .paused) then some v else none
  | .checkStopping ok => if ok = decide (v = .stopping) then some v else none
  | _ => some v

variable {v v' w : RunState} {o : Op}

theorem step_loadState (h : v.step (.loadState w) = some v') : w = v ∧ v' = v := by
  simp only [step] at h
  split_ifs at h with hw
  cases h
  exact ⟨hw.symm, rfl⟩

theorem step_casPaused (h : v.step (.casPaused true) = some v') :
    v = .running ∧ v' = .paused := by
  simp only [step] at h
  split_ifs at h with hv
  cases h
  exact ⟨of_decide_eq_true hv.symm, rfl⟩

theorem step_casRunning (h : v.step (.casRunning true) = some v') :
    v = .paused ∧ v' = .running := by
  simp only [step] at h
  split_ifs at h with hv
  cases h
  exact ⟨of_decide_eq_true hv.symm, rfl⟩

theorem step_checkPaused {ok : Bool} (h : v.step (.checkPaused ok) = some v') :
    ok = decide (v = .paused) := by
  simp only [step] at h
  split_ifs at h with hv
  exact hv

theorem step_checkStopping {ok : Bool} (h : v.step (.checkStopping ok) = some v') :
    ok = decide (v = .stopping) := by
  simp only [step] at h
  split_ifs at h with hv
  exact hv

theorem step_eq_or (h : v.step o = some v') :
    v' = v ∨ (o = .casPaused true ∧ v' = .paused) ∨ (o = .casRunning true ∧ v' = .running) ∨
      (o = .storeStopping ∧ v' = .stopping) := by
  unfold step at h
  split at h
  case h_2 took =>
    split_ifs at h with h1 h2
    · cases h
      exact Or.inr (Or.inl ⟨by rw [h2], rfl⟩)
    · cases h
      exact Or.inl rfl
  case h_3 took =>
    split_ifs at h with h1 h2
    · cases h
      exact Or.inr (Or.inr (Or.inl ⟨by rw [h2], rfl⟩))
    · cases h
      exact Or.inl rfl
  case h_4 =>
    cases h
    exact Or.inr (Or.inr (Or.inr ⟨rfl, rfl⟩))
  case h_7 =>
    cases h
    exact Or.inl rfl
  all_goals
    split_ifs at h
    cases h
    exact Or.inl rfl

theorem step_stopping (h : step .stopping o = some v') : v' = .stopping := by
  rcases step_eq_or h with rfl | ⟨rfl, -⟩ | ⟨rfl, -⟩ | ⟨-, rfl⟩
  · rfl
  · cases (step_casPaused h).1
  · cases (step_casRunning h).1
  · rfl

end RunState

/-! ### The queues -/

/-- The messages that an operation puts on queue `i`. -/
def Op.puts (i : ℕ) : Op → List Event
  | .putMessage j e => if j = i then [e] else []
  | _ => []

/-- The messages that an operation takes from queue `i`. -/
def Op.takes (i : ℕ) : Op → List Event
  | .work j (.message e _) _ => if j = i then [e] else []
  | _ => []

/-- The messages put on queue `i` by any thread. -/
def puts (i : ℕ) (h : History) : List Event := h.flatMap fun a => a.2.puts i

/-- The messages taken from queue `i`. -/
def takes (i : ℕ) (h : History) : List Event := h.flatMap fun a => a.2.takes i

theorem puts_append (i : ℕ) (h k : History) : puts i (h ++ k) = puts i h ++ puts i k :=
  List.flatMap_append

theorem puts_snoc (i : ℕ) (h : History) (t : Tid) (o : Op) :
    puts i (h ++ [(t, o)]) = puts i h ++ o.puts i := by
  simp [puts]

theorem takes_snoc (i : ℕ) (h : History) (t : Tid) (o : Op) :
    takes i (h ++ [(t, o)]) = takes i h ++ o.takes i := by
  simp [takes]

namespace Scheduler

variable {S : Setup} {s s' : Scheduler} {o : Op} {i : ℕ} {e : Event}

theorem putMessage_iff : s.putMessage S i e = some s' ↔
    i < S.numberOfWorkers ∧
      s' = { s with queues := Function.update s.queues i (s.queues i ++ [e]) } := by
  unfold putMessage
  split_ifs with hi
  · simp [hi, eq_comm]
  · simp [hi]

theorem takeMessage_iff : s.takeMessage i e = some s' ↔
    (s.queues i).head? = some e ∧
      s' = { s with queues := Function.update s.queues i (s.queues i).tail } := by
  unfold takeMessage
  split_ifs with hi
  · simp [hi, eq_comm]
  · simp [hi]

theorem access_state (h : s.access S o = some s') : s.state.step o = some s'.state := by
  cases o with
  | putMessage i e =>
      obtain ⟨-, rfl⟩ := putMessage_iff.mp h
      rfl
  | work i inp terminates =>
      cases inp with
      | message e env =>
          obtain ⟨-, rfl⟩ := takeMessage_iff.mp h
          rfl
      | completion c =>
          cases h
          rfl
      | stop =>
          cases h
          rfl
  | casPaused took =>
      simp only [access] at h
      simp only [RunState.step]
      split_ifs at h with h1 h2 <;> cases h
      · rw [if_pos h1, if_pos h2]
      · rw [if_pos h1, if_neg h2]
  | casRunning took =>
      simp only [access] at h
      simp only [RunState.step]
      split_ifs at h with h1 h2 <;> cases h
      · rw [if_pos h1, if_pos h2]
      · rw [if_pos h1, if_neg h2]
  | _ =>
      simp only [access] at h
      simp only [RunState.step]
      first
        | cases h; rfl
        | split_ifs at h with h1; cases h; first | rw [if_pos h1] | rfl

/-- Queues are FIFO: what was there and what is put is taken or still there, in order. -/
theorem access_queues (h : s.access S o = some s') (i : ℕ) :
    s.queues i ++ o.puts i = o.takes i ++ s'.queues i := by
  cases o with
  | putMessage j e =>
      obtain ⟨-, rfl⟩ := putMessage_iff.mp h
      by_cases hj : j = i
      · subst hj
        simp [Op.puts, Op.takes]
      · simp [Op.puts, Op.takes, hj, Ne.symm hj]
  | work j inp terminates =>
      cases inp with
      | message e env =>
          obtain ⟨hh, rfl⟩ := takeMessage_iff.mp h
          by_cases hj : j = i
          · subst hj
            have := List.cons_head?_tail hh
            simp [Op.puts, Op.takes, this]
          · simp [Op.puts, Op.takes, hj, Ne.symm hj]
      | completion c =>
          cases h
          simp [Op.puts, Op.takes]
      | stop =>
          cases h
          simp [Op.puts, Op.takes]
  | casPaused took =>
      simp only [access] at h
      split_ifs at h <;> cases h <;> simp [Op.puts, Op.takes]
  | casRunning took =>
      simp only [access] at h
      split_ifs at h <;> cases h <;> simp [Op.puts, Op.takes]
  | _ =>
      simp only [access] at h
      first
        | cases h; simp [Op.puts, Op.takes]
        | split_ifs at h; cases h; simp [Op.puts, Op.takes]

end Scheduler

/-! ### The control of the loop -/

/-- Where the loop is, up to its data. -/
inductive Stage where
  /-- the `RESET`s, before queue `i` -/
  | reset (i : ℕ)
  /-- before the first `state_ == RUNNING` -/
  | prepare
  /-- `state_ == RUNNING` -/
  | check
  /-- from a successful check to the `SEND_REQUEST` -/
  | round
  /-- from the `SEND_REQUEST` to the next check -/
  | settle
  /-- `state_ == PAUSED` and `state_ != STOPPING` -/
  | pause
  /-- the `STOP`s, before queue `i` -/
  | stop (i : ℕ)
  | setValue
  | done
deriving DecidableEq, Repr

/-- The stage of a control point. -/
def Pc.stage : Pc → Stage
  | .reset i => .reset i
  | .loadRps | .drawFirst => .prepare
  | .checkRunning => .check
  | .readB | .waitStart | .waiting _ | .readA | .drawNext | .put => .round
  | .size | .compareRps | .reloadRps => .settle
  | .checkPaused | .pauseStart | .pausing _ | .checkStopping => .pause
  | .stop i => .stop i
  | .setValue => .setValue
  | .done => .done

namespace Stage

/-- The stage of `messageAllWorkers(Event(EventType::RESET))` that goes on at queue `i`. -/
def resetFrom (n i : ℕ) : Stage := if i < n then .reset i else .prepare

/-- The stage of `messageAllWorkers(Event(EventType::STOP))` that goes on at queue `i`. -/
def stopFrom (n i : ℕ) : Stage := if i < n then .stop i else .setValue

end Stage

/-- The moves of the loop over `n` queues. -/
inductive Moves (n : ℕ) : Stage → Op → Stage → Prop
  | reset (i : ℕ) : Moves n (.reset i) (.putMessage i .reset) (.resetFrom n (i + 1))
  | loadRps (v : UInt32) : Moves n .prepare (.loadRps v) .prepare
  | drawFirst (mean : ℤ) (x : ℚ) : Moves n .prepare (.draw mean x) .check
  | running : Moves n .check (.loadState .running) .round
  | notRunning {v : RunState} (hv : v ≠ .running) : Moves n .check (.loadState v) .pause
  | wait (t : ℤ) : Moves n .round (.nowNs t) .round
  | drawNext (mean : ℤ) (x : ℚ) : Moves n .round (.draw mean x) .round
  | send (i : ℕ) : Moves n .round (.putMessage i .sendRequest) .settle
  | size (i k : ℕ) : Moves n .settle (.size i k) .settle
  | changed (v : UInt32) : Moves n .settle (.loadRps v) .settle
  | again (v : UInt32) : Moves n .settle (.loadRps v) .check
  | paused (v : RunState) : Moves n .pause (.loadState v) .pause
  | spin (t : ℤ) : Moves n .pause (.nowNs t) .pause
  | restart {v : RunState} (hv : v ≠ .stopping) :
      Moves n .pause (.loadState v) (.resetFrom n 0)
  | halt : Moves n .pause (.loadState .stopping) (.stopFrom n 0)
  | stop (i : ℕ) : Moves n (.stop i) (.putMessage i .stop) (.stopFrom n (i + 1))
  | setValue : Moves n .setValue .setValue .done

theorem Moves.stage_of_send {n i : ℕ} {g g' : Stage}
    (hm : Moves n g (.putMessage i .sendRequest) g') : g = .round := by
  generalize ho : Op.putMessage i .sendRequest = o at hm
  cases hm <;> first | rfl | simp [Event.sendRequest, Event.reset, Event.stop] at ho

theorem Moves.to_round {n : ℕ} {g : Stage} {o : Op} (hm : Moves n g o .round) :
    o = .loadState .running ∨
      (g = .round ∧ ((∃ t, o = .nowNs t) ∨ ∃ mean x, o = .draw mean x)) := by
  generalize hg : Stage.round = g' at hm
  cases hm with
  | running => exact Or.inl rfl
  | wait t => exact Or.inr ⟨rfl, Or.inl ⟨t, rfl⟩⟩
  | drawNext mean x => exact Or.inr ⟨rfl, Or.inr ⟨mean, x, rfl⟩⟩
  | reset i =>
      unfold Stage.resetFrom at hg
      split_ifs at hg
  | restart hv =>
      unfold Stage.resetFrom at hg
      split_ifs at hg
  | stop i =>
      unfold Stage.stopFrom at hg
      split_ifs at hg
  | halt =>
      unfold Stage.stopFrom at hg
      split_ifs at hg
  | _ => cases hg

namespace Loop

/-- The transitions of the loop: one for each branch at each control point. -/
inductive Transition (S : Setup) (l : Loop) : Op → Loop → Prop
  | reset {i : ℕ} (hpc : l.pc = .reset i) :
      Transition S l (.putMessage i .reset) (l.resetFrom S (i + 1))
  | loadRps (hpc : l.pc = .loadRps) (v : UInt32) :
      Transition S l (.loadRps v) { l with
        pc := .drawFirst, next := 0, rps := v.toInt32, intervalNs := meanInterval v.toInt32 }
  | drawFirst (hpc : l.pc = .drawFirst) {x : ℚ} (hx : 0 ≤ x) :
      Transition S l (.draw l.intervalNs x) { l with
        pc := .checkRunning, a := 0, b := 0
        budget := truncate (randomExponentialInterval l.intervalNs x) }
  | running (hpc : l.pc = .checkRunning) :
      Transition S l (.loadState .running) { l with pc := .readB }
  | notRunning (hpc : l.pc = .checkRunning) {v : RunState} (hv : v ≠ .running) :
      Transition S l (.loadState v) { l with pc := .checkPaused }
  | readB (hpc : l.pc = .readB) (t : ℤ) :
      Transition S l (.nowNs t) { l with
        pc := .waitStart, b := t
        budget := if l.a ≠ 0 then l.budget - (t - l.a) else l.budget }
  | waitStart (hpc : l.pc = .waitStart) (t : ℤ) :
      Transition S l (.nowNs t) { l with pc := .waiting t }
  | waiting {start : ℤ} (hpc : l.pc = .waiting start) {t : ℤ}
      (ht : t - start < max l.budget 0) :
      Transition S l (.nowNs t) { l with pc := .waiting start }
  | waited {start : ℤ} (hpc : l.pc = .waiting start) {t : ℤ}
      (ht : max l.budget 0 ≤ t - start) :
      Transition S l (.nowNs t) { l with pc := .readA }
  | readA (hpc : l.pc = .readA) (t : ℤ) :
      Transition S l (.nowNs t) { l with pc := .drawNext, a := t }
  | drawNext (hpc : l.pc = .drawNext) {x : ℚ} (hx : 0 ≤ x) :
      Transition S l (.draw l.intervalNs x) { l with
        pc := .put
        budget := truncate
          (l.budget + (randomExponentialInterval l.intervalNs x - (l.a - l.b : ℤ))) }
  | put (hpc : l.pc = .put) :
      Transition S l (.putMessage l.next .sendRequest) { l with pc := .size }
  | size (hpc : l.pc = .size) (n : ℕ) : Transition S l (.size l.next n) (l.afterSize S n)
  | changed (hpc : l.pc = .compareRps) {v : UInt32} (hv : l.rps.toUInt32 ≠ v) :
      Transition S l (.loadRps v) { l with pc := .reloadRps }
  | unchanged (hpc : l.pc = .compareRps) :
      Transition S l (.loadRps l.rps.toUInt32) { l with pc := .checkRunning }
  | reloadRps (hpc : l.pc = .reloadRps) (v : UInt32) :
      Transition S l (.loadRps v) { l with
        pc := .checkRunning, rps := v.toInt32, intervalNs := meanInterval v.toInt32 }
  | paused (hpc : l.pc = .checkPaused) :
      Transition S l (.loadState .paused) { l with pc := .pauseStart }
  | notPaused (hpc : l.pc = .checkPaused) {v : RunState} (hv : v ≠ .paused) :
      Transition S l (.loadState v) { l with pc := .checkStopping }
  | pauseStart (hpc : l.pc = .pauseStart) (t : ℤ) :
      Transition S l (.nowNs t) { l with pc := .pausing t }
  | pausing {start : ℤ} (hpc : l.pc = .pausing start) {t : ℤ} (ht : t - start < 1000) :
      Transition S l (.nowNs t) { l with pc := .pausing start }
  | rested {start : ℤ} (hpc : l.pc = .pausing start) {t : ℤ} (ht : 1000 ≤ t - start) :
      Transition S l (.nowNs t) { l with pc := .checkPaused }
  | restart (hpc : l.pc = .checkStopping) {v : RunState} (hv : v ≠ .stopping) :
      Transition S l (.loadState v) (l.resetFrom S 0)
  | halt (hpc : l.pc = .checkStopping) :
      Transition S l (.loadState .stopping) (l.stopFrom S 0)
  | stop {i : ℕ} (hpc : l.pc = .stop i) :
      Transition S l (.putMessage i .stop) (l.stopFrom S (i + 1))
  | setValue (hpc : l.pc = .setValue) : Transition S l .setValue { l with pc := .done }

variable {S : Setup} {l l' : Loop} {o : Op}

/-- **The transitions are the steps.** -/
theorem step_iff : l.step S o = some l' ↔ Transition S l o l' := by
  constructor
  · intro h
    unfold step at h
    split at h <;> first | cases h; done | rename_i hpc
    · split_ifs at h with he
      obtain ⟨rfl, rfl⟩ := he
      cases h
      exact .reset hpc
    · cases h
      exact .loadRps hpc _
    · split_ifs at h with he
      obtain ⟨rfl, hx⟩ := he
      cases h
      exact .drawFirst hpc hx
    · cases h
      split_ifs with hv
      · subst hv
        exact .running hpc
      · exact .notRunning hpc hv
    · cases h
      exact .readB hpc _
    · cases h
      exact .waitStart hpc _
    · cases h
      split_ifs with ht
      · exact .waiting hpc ht
      · exact .waited hpc (not_lt.mp ht)
    · cases h
      exact .readA hpc _
    · split_ifs at h with he
      obtain ⟨rfl, hx⟩ := he
      cases h
      exact .drawNext hpc hx
    · split_ifs at h with he
      obtain ⟨rfl, rfl⟩ := he
      cases h
      exact .put hpc
    · split_ifs at h with he
      subst he
      cases h
      exact .size hpc _
    · cases h
      split_ifs with hv
      · exact .changed hpc hv
      · obtain rfl := not_not.mp hv
        exact .unchanged hpc
    · cases h
      exact .reloadRps hpc _
    · cases h
      split_ifs with hv
      · subst hv
        exact .paused hpc
      · exact .notPaused hpc hv
    · cases h
      exact .pauseStart hpc _
    · cases h
      split_ifs with ht
      · exact .pausing hpc ht
      · exact .rested hpc (not_lt.mp ht)
    · cases h
      split_ifs with hv
      · exact .restart hpc hv
      · obtain rfl := not_not.mp hv
        exact .halt hpc
    · split_ifs at h with he
      obtain ⟨rfl, rfl⟩ := he
      cases h
      exact .stop hpc
    · cases h
      exact .setValue hpc
  · intro h
    cases h with
    | waited hpc ht => simp only [step, hpc, if_neg (not_lt.mpr ht)]
    | _ hpc => simp [step, *]

/-- The loop turns to the next queue when it has looked at the size of the last one. -/
theorem step_next (h : l.step S o = some l') :
    l'.next = l.next ∨ (∃ v, o = .loadRps v) ∨ ∃ j n, o = .size j n := by
  cases step_iff.mp h with
  | loadRps hpc v => exact Or.inr (Or.inl ⟨v, rfl⟩)
  | size hpc n => exact Or.inr (Or.inr ⟨l.next, n, rfl⟩)
  | _ => exact Or.inl rfl

theorem step_send {i : ℕ} (h : l.step S (.putMessage i .sendRequest) = some l') : i = l.next := by
  generalize ho : Op.putMessage i .sendRequest = o at h
  cases step_iff.mp h with
  | put hpc =>
      cases ho
      rfl
  | _ => cases ho

theorem stage_resetFrom (S : Setup) (l : Loop) (i : ℕ) :
    (l.resetFrom S i).pc.stage = .resetFrom S.numberOfWorkers i := by
  unfold resetFrom Stage.resetFrom
  split_ifs <;> rfl

theorem stage_stopFrom (S : Setup) (l : Loop) (i : ℕ) :
    (l.stopFrom S i).pc.stage = .stopFrom S.numberOfWorkers i := by
  unfold stopFrom Stage.stopFrom
  split_ifs <;> rfl

/-- **The loop follows the moves.** -/
theorem moves (h : l.step S o = some l') :
    Moves S.numberOfWorkers l.pc.stage o l'.pc.stage := by
  cases step_iff.mp h with
  | reset hpc =>
      rw [hpc, stage_resetFrom]
      exact .reset _
  | restart hpc hv =>
      rw [hpc, stage_resetFrom]
      exact .restart hv
  | halt hpc =>
      rw [hpc, stage_stopFrom]
      exact .halt
  | stop hpc =>
      rw [hpc, stage_stopFrom]
      exact .stop _
  | notRunning hpc hv =>
      rw [hpc]
      exact .notRunning hv
  | _ hpc =>
      rw [hpc]
      constructor

end Loop

/-! ### The calls -/

/-- The events that clients put. -/
def Event.IsControl (e : Event) : Prop :=
  e.eventType = .setPhase ∨ e.eventType = .setMaxOutstanding

/-- The operations that are not the loop's alone. -/
def Op.IsForeign (o : Op) : Prop :=
  (∀ i e, o = .putMessage i e → e.IsControl) ∧ o ≠ .setValue

namespace Act

variable {S : Setup} {r r' : Response} {a : Act} {o : Op} {acts : List Act}

/-- The steps that take the place of a step: usually none. -/
theorem perform_acts (h : a.perform S r o = some (acts, r')) :
    acts = [] ∨
    (∃ v, a = .messageMax ∧ o = .loadMaxOutstandingRequests v ∧
      acts = Scheduler.messageAllWorkers S (Event.setMaxOutstanding v)) ∨
    (a = .gate ∧ o = .configurationEmpty false ∧ acts = Scheduler.resume) := by
  unfold perform at h
  split at h
  case h_11 v =>
    cases h
    exact Or.inr (Or.inl ⟨v, rfl, rfl, rfl⟩)
  case h_19 b =>
    split_ifs at h with hb
    · cases h
      exact Or.inl rfl
    · cases h
      exact Or.inr (Or.inr ⟨rfl, by simp_all, rfl⟩)
  all_goals
    first
      | cases h; exact Or.inl rfl
      | split_ifs at h; cases h; exact Or.inl rfl
      | cases h

theorem perform_putMessage {i : ℕ} {e : Event}
    (h : a.perform S r (.putMessage i e) = some (acts, r')) : a = .putMessage i e := by
  cases a with
  | putMessage j e' =>
      simp only [perform] at h
      split_ifs at h with he
      rw [he.1, he.2]
  | _ => simp [perform] at h

/-- The steps that decide what a call reports. -/
theorem perform_flag (h : a.perform S r o = some (acts, r')) :
    (a ≠ .readRunning ∧ r'.flag = r.flag ∧ (a = .gate → acts = Scheduler.resume)) ∨
    a = .disarmWatchdog ∨
    (a = .gate ∧ acts = [] ∧ r'.flag = some false) ∨
    (∃ v, a = .readRunning ∧ o = .loadState v ∧ acts = [] ∧
      r'.flag = some (decide (v = .running))) := by
  unfold perform at h
  split at h
  case h_3 v =>
    cases h
    exact Or.inr (Or.inr (Or.inr ⟨v, rfl, rfl, rfl, rfl⟩))
  case h_14 => exact Or.inr (Or.inl rfl)
  case h_19 b =>
    split_ifs at h with hb
    · cases h
      exact Or.inr (Or.inr (Or.inl ⟨rfl, rfl, rfl⟩))
    · cases h
      exact Or.inl ⟨by simp, rfl, fun _ => rfl⟩
  all_goals
    first
      | cases h; exact Or.inl ⟨by simp, rfl, by simp⟩
      | split_ifs at h; cases h; exact Or.inl ⟨by simp, rfl, by simp⟩
      | cases h

/-- A step that puts no message of the loop's. -/
def IsForeign (a : Act) : Prop := ∀ i e, a = .putMessage i e → e.IsControl

theorem isForeign_messageAllWorkers {e : Event} (he : e.IsControl) :
    ∀ b ∈ Scheduler.messageAllWorkers S e, b.IsForeign := by
  apply Scheduler.forall_messageAllWorkers
  intro i j e' h
  cases h
  exact he

theorem perform_isForeign (ha : a.IsForeign) (h : a.perform S r o = some (acts, r')) :
    o.IsForeign ∧ ∀ b ∈ acts, b.IsForeign := by
  refine ⟨⟨?_, ?_⟩, ?_⟩
  · rintro i e rfl
    exact ha i e (perform_putMessage h)
  · rintro rfl
    cases a <;> simp [perform] at h
  · rcases perform_acts h with rfl | ⟨v, -, -, rfl⟩ | ⟨-, -, rfl⟩
    · simp
    · exact isForeign_messageAllWorkers (Or.inr rfl)
    · simp [Scheduler.resume, IsForeign]

end Act

theorem Scheduler.setPhase_isForeign (S : Setup) (phaseName : String) :
    ∀ a ∈ Scheduler.setPhase S phaseName, a.IsForeign := by
  apply Scheduler.forall_setPhase
  · intro i e h
    cases h
  · intro i j e h
    cases h
    exact Or.inl rfl

theorem Rpc.body_isForeign (S : Setup) (r : Rpc) : ∀ a ∈ r.body S, a.IsForeign := by
  cases r with
  | resume2 req =>
      intro a ha
      simp only [body, TreadmillFB303.futureResume2, List.mem_append, List.mem_singleton] at ha
      rcases ha with (rfl | ha) | ha
      · intro i e h
        cases h
      · exact Scheduler.setPhase_isForeign S _ a ha
      · simp only [Scheduler.resume, List.mem_cons, List.not_mem_nil, or_false] at ha
        rcases ha with rfl | rfl <;> intro i e h <;> cases h
  | resume =>
      simp only [body, TreadmillFB303.resume]
      split_ifs <;> simp [Act.IsForeign, Scheduler.resume]
  | _ =>
      simp [body, Act.IsForeign, TreadmillFB303.pause, Scheduler.pause, TreadmillFB303.setRps,
        Scheduler.setRps, TreadmillFB303.setMaxOutstanding, Scheduler.setMaxOutstandingRequests,
        TreadmillFB303.futureGetRate, Scheduler.isRunning, Scheduler.getRps,
        Scheduler.getMaxOutstandingRequests, TreadmillFB303.futureGetConfiguration,
        TreadmillFB303.setConfiguration, TreadmillFB303.clearConfiguration]

theorem Call.body_isForeign (S : Setup) (c : Call) : ∀ a ∈ c.body S, a.IsForeign := by
  cases c with
  | setPhase phaseName => exact Scheduler.setPhase_isForeign S phaseName
  | rpc r => exact Rpc.body_isForeign S r
  | stopWorkers => simp [body, Act.IsForeign]
  | _ =>
      simp [body, Act.IsForeign, Scheduler.pause, Scheduler.resume, Scheduler.isRunning,
        Scheduler.getMaxOutstandingRequests, Scheduler.setMaxOutstandingRequests,
        Scheduler.stop, Scheduler.join, Scheduler.getRps, Scheduler.setRps]

/-- Clients and senders leave the loop's messages and the promise to the loop. -/
def LeavesLoop : (i : Tid) → Control i → Prop
  | .loop, _ => True
  | .client _, f => ∀ a ∈ f.todo, a.IsForeign
  | .worker _, _ => True

namespace Frame

variable {S : Setup} {f f' : Frame}

theorem step_begin {c : Call} (h : f.step S (.begin c) = some f') :
    f.call = none ∧ f' = ⟨some c, c.body S, {}⟩ := by
  rcases step_cases h with ⟨c', hc', hcall, rfl⟩ | ⟨c', hc', -⟩ |
    ⟨c', a, todo, acts, r, -, -, hp, -⟩
  · cases hc'
    exact ⟨hcall, rfl⟩
  · cases hc'
  · cases a <;> simp [Act.perform] at hp

theorem step_ret {r : Response} (h : f.step S (.ret r) = some f') :
    f.call.isSome ∧ f.todo = [] ∧ r = f.response ∧ f' = idle := by
  rcases step_cases h with ⟨c', hc', -⟩ | ⟨c', hc', hcall, htodo, rfl⟩ |
    ⟨c', a, todo, acts, r, -, -, hp, -⟩
  · cases hc'
  · cases hc'
    exact ⟨by simp [hcall], htodo, rfl, rfl⟩
  · cases a <;> simp [Act.perform] at hp

/-- What holds of every step of every call holds of the steps that are left. -/
theorem step_todo {P : Act → Prop} (hbody : ∀ c : Call, ∀ a ∈ c.body S, P a)
    (hacts : ∀ a r acts r', P a → a.perform S r o = some (acts, r') → ∀ b ∈ acts, P b)
    (hf : ∀ a ∈ f.todo, P a) (h : f.step S o = some f') : ∀ a ∈ f'.todo, P a := by
  rcases step_cases h with ⟨c, -, -, rfl⟩ | ⟨c, -, -, -, rfl⟩ |
    ⟨c, a, todo, acts, r, -, htodo, hp, rfl⟩
  · exact hbody c
  · simp [idle]
  · rw [htodo] at hf
    intro b hb
    rcases List.mem_append.mp hb with hb | hb
    · exact hacts a _ acts r (hf a List.mem_cons_self) hp b hb
    · exact hf b (List.mem_cons_of_mem _ hb)

theorem step_perform (h : f.step S o = some f') (hb : ∀ c, o ≠ .begin c)
    (hr : ∀ r, o ≠ .ret r) :
    ∃ a acts r, a ∈ f.todo ∧ a.perform S f.response o = some (acts, r) := by
  rcases step_cases h with ⟨c, ho, -⟩ | ⟨c, ho, -⟩ | ⟨c, a, todo, acts, r, -, htodo, hp, -⟩
  · exact absurd ho (hb c)
  · exact absurd ho (hr _)
  · exact ⟨a, acts, r, htodo ▸ List.mem_cons_self, hp⟩

end Frame

theorem Frame.step_isForeign {S : Setup} {f f' : Frame} {o : Op}
    (hf : ∀ a ∈ f.todo, a.IsForeign) (h : f.step S o = some f') :
    o.IsForeign ∧ ∀ a ∈ f'.todo, a.IsForeign := by
  refine ⟨?_, step_todo (Call.body_isForeign S)
    (fun a r acts r' ha hp => (Act.perform_isForeign ha hp).2) hf h⟩
  rcases Frame.step_cases h with ⟨c, rfl, -⟩ | ⟨c, rfl, -⟩ | ⟨c, a, todo, acts, r, -, htodo, hp, -⟩
  · exact ⟨by simp, by simp⟩
  · exact ⟨by simp, by simp⟩
  · exact (Act.perform_isForeign (hf a (htodo ▸ List.mem_cons_self)) hp).1

theorem senderStep_isForeign {i : ℕ} {todo todo' : List Act} {o : Op}
    (h : senderStep i todo o = some todo') : o.IsForeign := by
  unfold senderStep at h
  split at h <;> first | cases h; done | exact ⟨by simp, by simp⟩

/-! ### The system -/

section system
variable {ω ρ : Type} {S : Setup} {W : Workload ω ρ} {workload : ω} {clock : ℤ}

/-- `h` leads from the start to `s`. -/
def Reaches (S : Setup) (W : Workload ω ρ) (workload : ω) (clock : ℤ) (h : History)
    (s : System ω) : Prop :=
  (system S W).run (start S workload clock) h = some s

variable {h : History} {s s' : System ω} {t : Tid} {o : Op}

theorem step_access (hs : (system S W).step s (t, o) = some s') :
    s.mem.access S W t o = some s'.mem :=
  Threads.step_mem hs

theorem step_scheduler (hs : (system S W).step s (t, o) = some s') :
    s.mem.scheduler.access S o = some s'.mem.scheduler :=
  (Memory.access_iff.mp (step_access hs)).2.1

theorem step_runState (hs : (system S W).step s (t, o) = some s') :
    s.mem.scheduler.state.step o = some s'.mem.scheduler.state :=
  Scheduler.access_state (step_scheduler hs)

/-- The call a client is in after an operation of its own. -/
def Op.call (c : Option Call) : Op → Option Call
  | .begin c' => some c'
  | .ret _ => none
  | _ => c

/-- The call that client `k` is in after a history. -/
def openCall (k : ℕ) (h : History) : Option Call := (Threads.own (.client k) h).foldl Op.call none

theorem Frame.step_call {f f' : Frame} (h : f.step S o = some f') : f'.call = o.call f.call := by
  rcases Frame.step_cases h with ⟨c, rfl, -, rfl⟩ | ⟨c, rfl, -, -, rfl⟩ |
    ⟨c, a, todo, acts, r, hc, -, hp, rfl⟩
  · rfl
  · rfl
  · rw [hc]
    cases o with
    | «begin» c' => cases a <;> simp [Act.perform] at hp
    | ret r' => cases a <;> simp [Act.perform] at hp
    | _ => rfl

theorem Reaches.openCall (hr : Reaches S W workload clock h s) (k : ℕ) :
    (s.loc (.client k)).call = openCall k h :=
  Lts.run_foldl (m := (program S W).control (.client k)) Frame.call Op.call
    (fun _ _ _ hs => Frame.step_call hs) (Threads.thread_run (.client k) hr)

theorem begin_of_openCall {k : ℕ} {c : Call} (hc : Treadmill.openCall k h = some c) :
    (.client k, .begin c) ∈ h := by
  rw [← Threads.mem_own]
  unfold Treadmill.openCall at hc
  generalize Threads.own (.client k) h = l at hc
  induction l using List.reverseRecOn with
  | nil => cases hc
  | append_singleton l o ih =>
      rw [List.foldl_append, List.foldl_cons, List.foldl_nil] at hc
      cases o with
      | «begin» c' =>
          cases hc
          simp
      | ret r => cases hc
      | _ => exact List.mem_append_left _ (ih hc)

/-- The operations that only clients make. -/
def Op.isClient : Op → Bool
  | .loadState _ | .storeStopping | .loadRps _ | .putMessage _ _ | .size _ _ | .setValue
  | .nowNs _ | .draw _ _ | .work _ _ _ => false
  | _ => true

theorem client_of_isClient (ho : o.isClient = true)
    (hs : (system S W).step s (t, o) = some s') : ∃ k, t = .client k := by
  have hl := Threads.step_loc hs
  cases t with
  | client k => exact ⟨k, rfl⟩
  | loop =>
      have hm := Loop.moves hl
      generalize (s.loc .loop).pc.stage = g at hm
      generalize (s'.loc .loop).pc.stage = g' at hm
      cases hm <;> cases ho
  | worker i =>
      have hl : senderStep i (s.loc (.worker i)) o = some (s'.loc (.worker i)) := hl
      unfold senderStep at hl
      split at hl <;> first | cases ho | cases hl

theorem Reaches.leavesLoop (hr : Reaches S W workload clock h s) (i : Tid) :
    LeavesLoop i (s.loc i) := by
  refine Threads.forall_loc (P := LeavesLoop) ?_ ?_ hr i
  · rintro (_ | k | k) c o c' hc hs
    · trivial
    · exact (Frame.step_isForeign hc hs).2
    · trivial
  · rintro (_ | k | k)
    · trivial
    · simp [LeavesLoop, start, Frame.idle]
    · trivial

/-- A step of the system, as the loop sees it: a move of its own, or a foreign operation. -/
theorem Reaches.step_cases (hr : Reaches S W workload clock h s)
    (hs : (system S W).step s (t, o) = some s') :
    (t = .loop ∧ Moves S.numberOfWorkers (s.loc .loop).pc.stage o (s'.loc .loop).pc.stage) ∨
    (t ≠ .loop ∧ s'.loc .loop = s.loc .loop ∧ o.IsForeign) := by
  have hloc := Threads.step_loc hs
  cases t with
  | loop => exact Or.inl ⟨rfl, Loop.moves hloc⟩
  | client k =>
      have hf := hr.leavesLoop (.client k)
      exact Or.inr ⟨by simp, Threads.step_frame hs (by simp), (Frame.step_isForeign hf hloc).1⟩
  | worker k =>
      exact Or.inr ⟨by simp, Threads.step_frame hs (by simp), senderStep_isForeign hloc⟩

/-- Induction over what the loop and `state_` do: a fact about the history, the stage of the
loop and the run state holds in every run if the loop's moves and the foreign operations
keep it. -/
theorem view_induction {P : History → Stage → RunState → Prop}
    (h0 : P [] (.resetFrom S.numberOfWorkers 0) (Scheduler.new S).state)
    (hloop : ∀ h g v o g' v', P h g v → Moves S.numberOfWorkers g o g' → v.step o = some v' →
      P (h ++ [(Tid.loop, o)]) g' v')
    (hother : ∀ h g v t o v', P h g v → t ≠ .loop → o.IsForeign → v.step o = some v' →
      P (h ++ [(t, o)]) g v')
    (hr : Reaches S W workload clock h s) :
    P h (s.loc .loop).pc.stage s.mem.scheduler.state := by
  refine Lts.history_induction (P := fun h s => P h (s.loc .loop).pc.stage s.mem.scheduler.state)
    ?_ ?_ hr
  · have : ((start S workload clock).loc .loop).pc.stage = .resetFrom S.numberOfWorkers 0 :=
      Loop.stage_resetFrom S _ 0
    rw [this]
    exact h0
  · rintro h s ⟨t, o⟩ s' hr hP hs
    have hv := step_runState hs
    rcases Reaches.step_cases hr hs with ⟨rfl, hm⟩ | ⟨ht, hl, ho⟩
    · exact hloop h _ _ o _ _ hP hm hv
    · rw [hl]
      exact hother h _ _ t o _ hP ht ho hv

end system

end Treadmill
