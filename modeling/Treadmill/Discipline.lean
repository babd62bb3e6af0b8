import Mathlib.Computability.Language
import Treadmill.Steps

/-! # Message discipline and the finality of stop

* After `stop()` has stored `STOPPING`, the run state is final (`stopping_run`): the
  `CHECK` of `join` holds and a `resume` that begins later returns `false`.
* `Written i g` is what the loop may have put on queue `i` when it is at stage `g`; the
  languages are nested in the prefixes of `(RESET SEND_REQUEST*)+ STOP` (`discipline`).
* When the loop has ended, every queue has one `STOP`, and the promise was fulfilled once,
  after the last of them. -/

open Computability

namespace Treadmill

/-! ### The grammar of a queue -/

/-- `RESET SEND_REQUEST*`. -/
def block : Language Event := {[Event.reset]} * {[Event.sendRequest]}∗

/-- `(RESET SEND_REQUEST*)+ STOP`. -/
def discipline : Language Event := block * block∗ * {[Event.stop]}

theorem mem_kstar_of_mem_kstar_mul {l : Language Event} {w : List Event} (hw : w ∈ l∗ * l) :
    w ∈ l∗ := by
  rw [← Language.one_add_kstar_mul_self_eq_kstar]
  exact (Language.mem_add _ _ _).mpr (Or.inr hw)

theorem reset_mem_block : [Event.reset] ∈ block :=
  Language.append_mem_mul (a := [Event.reset]) rfl (Language.nil_mem_kstar _)

theorem append_sendRequest_mem_block {w : List Event} (hw : w ∈ block) :
    w ++ [Event.sendRequest] ∈ block := by
  obtain ⟨a, ha, b, hb, rfl⟩ := Language.mem_mul.mp hw
  rw [List.append_assoc]
  apply Language.append_mem_mul ha
  exact mem_kstar_of_mem_kstar_mul (Language.append_mem_mul hb rfl)

theorem append_sendRequest_mem {w : List Event} (hw : w ∈ block∗ * block) :
    w ++ [Event.sendRequest] ∈ block∗ * block := by
  obtain ⟨a, ha, b, hb, rfl⟩ := Language.mem_mul.mp hw
  rw [List.append_assoc]
  exact Language.append_mem_mul ha (append_sendRequest_mem_block hb)

theorem stop_notMem_block {w : List Event} (hw : w ∈ block) : Event.stop ∉ w := by
  obtain ⟨a, rfl, b, hb, rfl⟩ := Language.mem_mul.mp hw
  obtain ⟨L, rfl, hL⟩ := Language.mem_kstar.mp hb
  intro hm
  rcases List.mem_append.mp hm with hm | hm
  · revert hm
    decide
  · obtain ⟨l, hl, hm⟩ := List.mem_flatten.mp hm
    obtain rfl := hL l hl
    revert hm
    decide

theorem stop_notMem_blocks {w : List Event} (hw : w ∈ block∗ * block) : Event.stop ∉ w := by
  obtain ⟨L, rfl, hL⟩ := Language.mem_kstar.mp (mem_kstar_of_mem_kstar_mul hw)
  intro hm
  obtain ⟨l, hl, hm⟩ := List.mem_flatten.mp hm
  exact stop_notMem_block (hL l hl) hm

/-! ### What the loop has put on a queue -/

/-- The messages the loop put on queue `i`. -/
def loopPuts (i : ℕ) (h : History) : List Event := (Threads.own .loop h).flatMap (Op.puts i)

/-- What the loop may have put on queue `i` when it is at a stage. -/
def Written (i : ℕ) : Stage → Language Event
  | .reset j => if j ≤ i then block∗ else block∗ * block
  | .stop j => if j ≤ i then block∗ * block else block∗ * block * {[Event.stop]}
  | .setValue | .done => block∗ * block * {[Event.stop]}
  | _ => block∗ * block

section written
variable {n i : ℕ} {g g' : Stage} {o : Op} {w : List Event}

theorem written_resetFrom (hi : i < n) (j : ℕ) :
    Written i (.resetFrom n j) = if j ≤ i then block∗ else block∗ * block := by
  unfold Stage.resetFrom
  by_cases hj : j < n
  · rw [if_pos hj]
    rfl
  · rw [if_neg hj, if_neg (by omega)]
    rfl

theorem written_stopFrom (hi : i < n) (j : ℕ) :
    Written i (.stopFrom n j) =
      if j ≤ i then block∗ * block else block∗ * block * {[Event.stop]} := by
  unfold Stage.stopFrom
  by_cases hj : j < n
  · rw [if_pos hj]
    rfl
  · rw [if_neg hj, if_neg (by omega)]
    rfl

/-- A move of the loop extends what it has put on a queue as the stages allow. -/
theorem Moves.written (hi : i < n) (hm : Moves n g o g') (hw : w ∈ Written i g) :
    w ++ o.puts i ∈ Written i g' := by
  cases hm with
  | reset j =>
      rw [written_resetFrom hi]
      rcases lt_trichotomy j i with hj | rfl | hj
      · simp only [Op.puts, if_neg hj.ne, List.append_nil, if_pos (show j + 1 ≤ i from hj)]
        simpa only [Written, if_pos hj.le] using hw
      · simp only [Written, le_refl, if_true] at hw
        simp only [Op.puts, if_true, if_neg (show ¬ j + 1 ≤ j by omega)]
        exact Language.append_mem_mul hw reset_mem_block
      · simp only [Op.puts, if_neg hj.ne', List.append_nil, if_neg (show ¬ j + 1 ≤ i by omega)]
        simpa only [Written, if_neg (show ¬ j ≤ i by omega)] using hw
  | stop j =>
      rw [written_stopFrom hi]
      rcases lt_trichotomy j i with hj | rfl | hj
      · simp only [Op.puts, if_neg hj.ne, List.append_nil, if_pos (show j + 1 ≤ i from hj)]
        simpa only [Written, if_pos hj.le] using hw
      · simp only [Written, le_refl, if_true] at hw
        simp only [Op.puts, if_true, if_neg (show ¬ j + 1 ≤ j by omega)]
        exact Language.append_mem_mul hw rfl
      · simp only [Op.puts, if_neg hj.ne', List.append_nil, if_neg (show ¬ j + 1 ≤ i by omega)]
        simpa only [Written, if_neg (show ¬ j ≤ i by omega)] using hw
  | send j =>
      by_cases hj : j = i
      · subst hj
        simpa [Op.puts, Written] using append_sendRequest_mem hw
      · simpa [Op.puts, Written, hj] using hw
  | restart hv =>
      rw [written_resetFrom hi, if_pos (Nat.zero_le i)]
      simpa [Op.puts] using mem_kstar_of_mem_kstar_mul hw
  | halt =>
      rw [written_stopFrom hi, if_pos (Nat.zero_le i)]
      simpa [Op.puts, Written] using hw
  | _ => simpa [Op.puts, Written] using hw

theorem Moves.eq_setValue (hm : Moves n g o g') (hg : g' = .done) : o = .setValue := by
  cases hm with
  | setValue => rfl
  | reset j =>
      unfold Stage.resetFrom at hg
      split_ifs at hg
  | restart hv =>
      unfold Stage.resetFrom at hg
      split_ifs at hg
  | stop j =>
      unfold Stage.stopFrom at hg
      split_ifs at hg
  | halt =>
      unfold Stage.stopFrom at hg
      split_ifs at hg
  | _ => cases hg

/-- What the loop has put on a queue is always a prefix of a word of the discipline. -/
theorem written_prefix (hw : w ∈ Written i g) : ∃ d ∈ discipline, w <+: d := by
  have hstop : ∀ w ∈ block∗ * block, w ++ [Event.stop] ∈ discipline := by
    intro w hw
    rw [Language.mul_self_kstar_comm] at hw
    exact Language.append_mem_mul hw rfl
  have hopen : ∀ w ∈ block∗ * block, ∃ d ∈ discipline, w <+: d := fun w hw =>
    ⟨_, hstop w hw, List.prefix_append _ _⟩
  have hfresh : ∀ w ∈ block∗, ∃ d ∈ discipline, w <+: d := fun w hw =>
    ⟨_, hstop _ (Language.append_mem_mul hw reset_mem_block), by
      rw [List.append_assoc]
      exact List.prefix_append _ _⟩
  have hclosed : ∀ w ∈ block∗ * block * {[Event.stop]}, ∃ d ∈ discipline, w <+: d := by
    intro w hw
    rw [Language.mul_self_kstar_comm] at hw
    exact ⟨w, hw, List.prefix_refl _⟩
  cases g with
  | reset j =>
      simp only [Written] at hw
      split_ifs at hw
      · exact hfresh w hw
      · exact hopen w hw
  | stop j =>
      simp only [Written] at hw
      split_ifs at hw
      · exact hopen w hw
      · exact hclosed w hw
  | setValue => exact hclosed w hw
  | done => exact hclosed w hw
  | _ => exact hopen w hw

end written

theorem Op.IsForeign.isControl {o : Op} (ho : o.IsForeign) {i : ℕ} {e : Event}
    (he : e ∈ o.puts i) : e.IsControl := by
  cases o with
  | putMessage j e' =>
      simp only [Op.puts] at he
      split_ifs at he with hj
      · obtain rfl := List.mem_singleton.mp he
        exact ho.1 j e rfl
      · cases he
  | _ => cases he

section runs
variable {ω ρ : Type} {S : Setup} {W : Workload ω ρ} {workload : ω} {clock : ℤ}
  {h : History} {s : System ω}

theorem loopPuts_snoc_loop (i : ℕ) (h : History) (o : Op) :
    loopPuts i (h ++ [(Tid.loop, o)]) = loopPuts i h ++ o.puts i := by
  simp [loopPuts, Threads.own_append]

theorem loopPuts_snoc_of_ne (i : ℕ) (h : History) {t : Tid} (ht : t ≠ .loop) (o : Op) :
    loopPuts i (h ++ [(t, o)]) = loopPuts i h := by
  simp [loopPuts, Threads.own_append, Threads.own_singleton_of_ne o ht]

theorem Reaches.written (hr : Reaches S W workload clock h s) {i : ℕ}
    (hi : i < S.numberOfWorkers) : loopPuts i h ∈ Written i (s.loc .loop).pc.stage := by
  refine view_induction (P := fun h g _ => loopPuts i h ∈ Written i g) ?_ ?_ ?_ hr
  · rw [written_resetFrom hi, if_pos (Nat.zero_le i)]
    exact Language.nil_mem_kstar _
  · intro h g v o g' v' hP hm _
    rw [loopPuts_snoc_loop]
    exact hm.written hi hP
  · intro h g v t o v' hP ht _ _
    rw [loopPuts_snoc_of_ne i h ht]
    exact hP

/-! ### The end of the loop -/

/-- The loop fulfils the promise once, and puts nothing afterwards. -/
def Fulfilled (h : History) : Prop :=
  ∃ h₁ h₂, h = h₁ ++ (Tid.loop, Op.setValue) :: h₂ ∧ (∀ a ∈ h₁, a.2 ≠ .setValue) ∧
    ∀ a ∈ h₂, a.2.IsForeign

theorem Reaches.fulfilled (hr : Reaches S W workload clock h s) :
    ((s.loc .loop).pc.stage ≠ .done → ∀ a ∈ h, a.2 ≠ .setValue) ∧
      ((s.loc .loop).pc.stage = .done → Fulfilled h) := by
  refine view_induction (P := fun h g _ =>
    (g ≠ .done → ∀ a ∈ h, a.2 ≠ .setValue) ∧ (g = .done → Fulfilled h)) ?_ ?_ ?_ hr
  · refine ⟨by simp, fun hg => ?_⟩
    unfold Stage.resetFrom at hg
    split_ifs at hg
  · rintro h g v o g' v' ⟨hne, -⟩ hm -
    have hopen : g ≠ .done := by
      rintro rfl
      cases hm
    by_cases ho : o = .setValue
    · subst ho
      cases hm
      exact ⟨fun hg => absurd rfl hg, fun _ => ⟨h, [], rfl, hne hopen, by simp⟩⟩
    · constructor
      · intro _ a ha
        rcases List.mem_append.mp ha with ha | ha
        · exact hne hopen a ha
        · obtain rfl := List.mem_singleton.mp ha
          exact ho
      · intro hg
        exact absurd (hm.eq_setValue hg) ho
  · rintro h g v t o v' ⟨hne, hdone⟩ - ho -
    constructor
    · intro hg a ha
      rcases List.mem_append.mp ha with ha | ha
      · exact hne hg a ha
      · obtain rfl := List.mem_singleton.mp ha
        exact ho.2
    · intro hg
      obtain ⟨h₁, h₂, rfl, h1, h2⟩ := hdone hg
      refine ⟨h₁, h₂ ++ [(t, o)], by simp, h1, fun a ha => ?_⟩
      rcases List.mem_append.mp ha with ha | ha
      · exact h2 a ha
      · obtain rfl := List.mem_singleton.mp ha
        exact ho

theorem Reaches.count_puts (hr : Reaches S W workload clock h s) (i : ℕ) {e : Event}
    (he : ¬ e.IsControl) : (puts i h).count e = (loopPuts i h).count e := by
  refine view_induction (P := fun h _ _ => (puts i h).count e = (loopPuts i h).count e)
    rfl ?_ ?_ hr
  · intro h g v o g' v' hP _ _
    rw [puts_snoc, loopPuts_snoc_loop, List.count_append, List.count_append, hP]
  · intro h g v t o v' hP ht ho _
    have h0 : (o.puts i).count e = 0 :=
      List.count_eq_zero.mpr fun hm => he (ho.isControl hm)
    rw [puts_snoc, loopPuts_snoc_of_ne i h ht, List.count_append, h0, hP, Nat.add_zero]

theorem stop_not_isControl : ¬ Event.stop.IsControl := by
  rintro (h | h) <;> cases h

/-- Exactly one `STOP` is on each queue when the loop has ended, the loop's last message. -/
theorem Reaches.stops (hr : Reaches S W workload clock h s) (hd : (s.loc .loop).pc = .done)
    {i : ℕ} (hi : i < S.numberOfWorkers) :
    (puts i h).count .stop = 1 ∧ (loopPuts i h).getLast? = some .stop := by
  have hw := hr.written hi
  rw [hd] at hw
  obtain ⟨w, hw, -, rfl, he⟩ := Language.mem_mul.mp hw
  have h0 : w.count Event.stop = 0 := List.count_eq_zero.mpr (stop_notMem_blocks hw)
  rw [hr.count_puts i stop_not_isControl, ← he, List.count_append, h0]
  exact ⟨rfl, by simp⟩

/-! ### The finality of stop -/

/-- A call that asks the scheduler to resume and reports whether it runs. -/
def Call.resumes : Call → Bool
  | .resume | .rpc .resume | .rpc (.resume2 _) => true
  | _ => false

/-- A frame of such a call that can only return `false` once the scheduler is stopping. -/
structure Frame.Refused (f : Frame) : Prop where
  inCall : f.call.isSome
  noDisarm : Act.disarmWatchdog ∉ f.todo
  refused : f.response.flag = some false ∨ Act.readRunning ∈ f.todo ∨ Act.gate ∈ f.todo

theorem Frame.Refused.step {f f' : Frame} {o : Op} (hf : f.Refused)
    (hload : ∀ v, o = .loadState v → v = .stopping) (hret : ∀ r, o ≠ .ret r)
    (h : f.step S o = some f') : f'.Refused := by
  rcases Frame.step_cases h with ⟨c, -, hcall, -⟩ | ⟨c, rfl, -⟩ |
    ⟨c, a, todo, acts, r, hcall, htodo, hp, rfl⟩
  · have := hf.inCall
    simp [hcall] at this
  · exact absurd rfl (hret _)
  · have hdis := hf.noDisarm
    have href := hf.refused
    rw [htodo] at hdis href
    have ha : a ≠ .disarmWatchdog := fun ha => hdis (by simp [ha])
    have htodo : Act.disarmWatchdog ∉ todo := fun hm => hdis (by simp [hm])
    refine ⟨rfl, ?_, ?_⟩
    · intro hm
      rcases List.mem_append.mp hm with hm | hm
      · rcases Act.perform_acts hp with rfl | ⟨v, -, -, rfl⟩ | ⟨-, -, rfl⟩
        · cases hm
        · simp [Scheduler.messageAllWorkers] at hm
        · simp [Scheduler.resume] at hm
      · exact htodo hm
    · rcases Act.perform_flag hp with ⟨hne, hflag, hgate⟩ | rfl | ⟨-, -, hflag⟩ |
        ⟨v, -, ho, -, hflag⟩
      · rw [hflag]
        rcases href with href | href | href
        · exact Or.inl href
        · have := (List.mem_cons.mp href).resolve_left (Ne.symm hne)
          exact Or.inr (Or.inl (List.mem_append_right _ this))
        · rcases List.mem_cons.mp href with rfl | href
          · refine Or.inr (Or.inl (List.mem_append_left _ ?_))
            rw [hgate rfl]
            simp [Scheduler.resume]
          · exact Or.inr (Or.inr (List.mem_append_right _ href))
      · exact absurd rfl ha
      · exact Or.inl hflag
      · obtain rfl := hload v ho
        exact Or.inl hflag

theorem Call.body_refused (S : Setup) {c : Call} (hc : c.resumes) :
    Frame.Refused ⟨some c, c.body S, {}⟩ := by
  refine ⟨rfl, ?_, Or.inr ?_⟩
  · intro hm
    unfold resumes at hc
    split at hc
    · simp [body, Scheduler.resume] at hm
    · simp only [body, Rpc.body, TreadmillFB303.resume] at hm
      split_ifs at hm <;> simp [Scheduler.resume] at hm
    · simp only [body, Rpc.body, TreadmillFB303.futureResume2, Scheduler.setPhase] at hm
      split_ifs at hm <;> simp [Scheduler.resume, Scheduler.messageAllWorkers] at hm
    · cases hc
  · unfold resumes at hc
    split at hc
    · simp [body, Scheduler.resume]
    · simp only [body, Rpc.body, TreadmillFB303.resume]
      split_ifs <;> simp [Scheduler.resume]
    · simp [body, Rpc.body, TreadmillFB303.futureResume2, Scheduler.resume]
    · cases hc

theorem stopping_run {s s' : System ω} {k : History} (hs : s.mem.scheduler.state = .stopping)
    (hr : (system S W).run s k = some s') : s'.mem.scheduler.state = .stopping := by
  refine Lts.invariant (P := fun s : System ω => s.mem.scheduler.state = .stopping) ?_ hs hr
  rintro t ⟨i, o⟩ u ht hs
  have hv := step_runState hs
  rw [ht] at hv
  exact RunState.step_stopping hv

/-- Nothing takes the scheduler out of `STOPPING`, and `join` finds it there. -/
theorem stopping_forall {s s' : System ω} {k : History}
    (hs : s.mem.scheduler.state = .stopping) (hr : (system S W).run s k = some s') :
    ∀ a ∈ k, a.2 ≠ .casPaused true ∧ a.2 ≠ .casRunning true ∧ a.2 ≠ .checkStopping false := by
  rintro ⟨t, o⟩ ha
  obtain ⟨k₁, k₂, rfl⟩ := List.append_of_mem ha
  obtain ⟨u, u', hu, hstep, -⟩ := Lts.run_split _ hr
  have hv := step_runState hstep
  rw [stopping_run hs hu] at hv
  refine ⟨?_, ?_, ?_⟩
  · rintro rfl
    cases (RunState.step_casPaused hv).1
  · rintro rfl
    cases (RunState.step_casRunning hv).1
  · rintro rfl
    cases RunState.step_checkStopping hv

theorem resume_refused {s s' : System ω} {k : ℕ} {c : Call} {r : Response} {g : History}
    (hc : c.resumes) (hs : s.mem.scheduler.state = .stopping)
    (hg : ∀ r', (Tid.client k, Op.ret r') ∉ g)
    (hr : (system S W).run s ((.client k, .begin c) :: g ++ [(Tid.client k, Op.ret r)]) = some s') :
    r.flag = some false := by
  obtain ⟨u, hu, hret⟩ := (Lts.run_snoc_iff _).mp hr
  obtain ⟨t, ht, hu⟩ := (Lts.run_cons_iff _).mp hu
  have hbegin : (t.loc (.client k)).Refused := by
    obtain ⟨-, he⟩ := Frame.step_begin (Threads.step_loc ht)
    rw [he]
    exact Call.body_refused S hc
  have hstop : t.mem.scheduler.state = .stopping := by
    have hv := step_runState ht
    rw [hs] at hv
    exact RunState.step_stopping hv
  have hP : u.mem.scheduler.state = .stopping ∧ (u.loc (.client k)).Refused := by
    refine Lts.invariant_on (Q := fun a => ∀ r', a ≠ (Tid.client k, Op.ret r'))
      (P := fun s : System ω => s.mem.scheduler.state = .stopping ∧ (s.loc (.client k)).Refused)
      ?_ ⟨hstop, hbegin⟩ (fun a ha r' he => hg r' (he ▸ ha)) hu
    rintro s ⟨i, o⟩ s' hQ ⟨hv, hf⟩ hs
    have hv' := step_runState hs
    rw [hv] at hv'
    refine ⟨RunState.step_stopping hv', ?_⟩
    by_cases hi : i = .client k
    · subst hi
      refine hf.step ?_ (fun r' he => hQ r' (by rw [he])) (Threads.step_loc hs)
      rintro v rfl
      exact (RunState.step_loadState hv').1
    · rw [Threads.step_frame hs (Ne.symm hi)]
      exact hf
  obtain ⟨-, htodo, rfl, -⟩ := Frame.step_ret (Threads.step_loc hret)
  simpa [htodo] using hP.2.refused

/-- Once `stop()` has stored `STOPPING`, it stays, the `CHECK` of `join` holds and every
resuming call that begins later returns `false`. -/
def StopIsFinal (h : History) (s : System ω) : Prop :=
  ∀ h₁ t h₂, h = h₁ ++ (t, Op.storeStopping) :: h₂ →
    s.mem.scheduler.state = .stopping ∧
    (∀ a ∈ h₂, a.2 ≠ .casPaused true ∧ a.2 ≠ .casRunning true ∧ a.2 ≠ .checkStopping false) ∧
    ∀ g₁ k c g₂ r g₃, h₂ = g₁ ++ (Tid.client k, Op.begin c) :: g₂ ++ (.client k, .ret r) :: g₃ →
      c.resumes → (∀ r', (.client k, .ret r') ∉ g₂) → r.flag = some false

theorem Reaches.stopIsFinal (hr : Reaches S W workload clock h s) : StopIsFinal h s := by
  rintro h₁ t h₂ rfl
  obtain ⟨u, u', -, hstore, hr₂⟩ := Lts.run_split _ hr
  have hstop : u'.mem.scheduler.state = .stopping := by
    have hv := step_runState hstore
    exact (Option.some.inj hv).symm
  refine ⟨stopping_run hstop hr₂, stopping_forall hstop hr₂, ?_⟩
  rintro g₁ k c g₂ r g₃ rfl hc hg
  rw [List.append_assoc, ← List.singleton_append (l := g₃), ← List.append_assoc _ _ g₃] at hr₂
  obtain ⟨v, hv, hr₂⟩ := (Lts.run_append_iff _).mp hr₂
  obtain ⟨v', hv', -⟩ := (Lts.run_append_iff _).mp hr₂
  exact resume_refused hc (stopping_run hstop hv) hg hv'

/-- **Message discipline and finality of stop**: the run state is final after `stop()`, the
loop's messages on every queue are a prefix of `(RESET SEND_REQUEST*)+ STOP`, and when the
loop has ended every queue has one `STOP`, the loop's last message there, and the promise
was fulfilled once, after all of them. -/
theorem stop_is_final_and_queues_disciplined (hr : Reaches S W workload clock h s) :
    StopIsFinal h s ∧
    (∀ i < S.numberOfWorkers, ∃ d ∈ discipline, loopPuts i h <+: d) ∧
    ((s.loc .loop).pc = .done →
      (∀ i < S.numberOfWorkers,
        (puts i h).count .stop = 1 ∧ (loopPuts i h).getLast? = some .stop) ∧
      ∃ h₁ h₂, h = h₁ ++ (Tid.loop, Op.setValue) :: h₂ ∧ (∀ a ∈ h₁ ++ h₂, a.2 ≠ .setValue) ∧
        ∀ t i, (t, .putMessage i .stop) ∉ h₂) := by
  refine ⟨hr.stopIsFinal, fun i hi => written_prefix (hr.written hi), fun hd => ?_⟩
  refine ⟨fun i hi => hr.stops hd hi, ?_⟩
  obtain ⟨h₁, h₂, rfl, h1, h2⟩ := hr.fulfilled.2 (by rw [hd]; rfl)
  refine ⟨h₁, h₂, rfl, ?_, ?_⟩
  · intro a ha
    rcases List.mem_append.mp ha with ha | ha
    · exact h1 a ha
    · exact (h2 a ha).2
  · intro t i hm
    exact stop_not_isControl ((h2 _ hm).1 i _ rfl)

end runs

/-- One round of one worker, a stop, a resume that comes late, and the end of the loop. -/
def stoppedRun : History :=
  opening ++ round 2 ++
    ([(.client 0, .begin .stop), (.client 0, .storeStopping), (.client 0, .ret {}),
      (.client 1, .begin .resume), (.client 1, .casRunning false),
      (.client 1, .loadState .stopping), (.client 1, .ret { flag := some false }),
      (.loop, .loadState .stopping), (.loop, .loadState .stopping),
      (.loop, .loadState .stopping), (.loop, .putMessage 0 .stop), (.loop, .setValue)] : History)

theorem stop_is_final_and_queues_disciplined_one_worker :
    ∃ s, Reaches (defaults 1) constantWorkload () 1 stoppedRun s ∧
      (s.loc .loop).pc = .done ∧ StopIsFinal stoppedRun s ∧
      loopPuts 0 stoppedRun = [.reset, .sendRequest, .stop] ∧
      (puts 0 stoppedRun).count .stop = 1 := by
  have hrun : ((system (defaults 1) constantWorkload).run (start (defaults 1) () 1)
      stoppedRun).any (fun s => decide ((s.loc .loop).pc = .done)) = true := by
    decide +kernel
  obtain ⟨s, hr, hd⟩ := (Option.any_eq_true _ _).mp hrun
  have hd := of_decide_eq_true hd
  obtain ⟨hfinal, -, hend⟩ := stop_is_final_and_queues_disciplined hr
  exact ⟨s, hr, hd, hfinal, by decide, ((hend hd).1 0 (by decide)).1⟩

end Treadmill
