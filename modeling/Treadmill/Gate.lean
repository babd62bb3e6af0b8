import Treadmill.Steps

/-! # The configuration gate

With `require_configuration_on_resume` set, `TreadmillFB303::resume` resumes the scheduler
only after it has found the configuration non-empty under the read lock, and it keeps the
lock while it resumes.  `future_resume2` has no such gate (`resume2_not_gated`).

The locking discipline is checked like a type: a `Grip` is what a client knows about the
lock and the configuration, `Grip.after` is what a step needs and leaves, and every call
checks from the empty grip (`Call.body_checks`).  `Frame.Checked` says that the memory is as
the grip has it, which every step of every thread keeps. -/

namespace Treadmill

/-! ### Grips -/

/-- What a client may rely on. -/
inductive Grip where
  | none
  /-- it is a reader -/
  | shared
  /-- it is a reader, and the configuration is not empty -/
  | configured
  /-- it is the writer -/
  | exclusive
deriving DecidableEq, Repr

namespace Grip

/-- What a step needs and leaves; `ungated` says that the call may resume without the
gate. -/
def after (ungated : Bool) : Grip → Act → Option Grip
  | .none, .lockShared => some .shared
  | .shared, .unlockShared => some .none
  | .configured, .unlockShared => some .none
  | .none, .lock => some .exclusive
  | .exclusive, .unlock => some .none
  | .shared, .gate => some .shared
  | .configured, .gate => some .configured
  | .exclusive, .insertOrAssign _ _ => some .exclusive
  | .exclusive, .clearConfiguration => some .exclusive
  | _, .lockShared => Option.none
  | _, .unlockShared => Option.none
  | _, .lock => Option.none
  | _, .unlock => Option.none
  | _, .gate => Option.none
  | _, .insertOrAssign _ _ => Option.none
  | _, .clearConfiguration => Option.none
  | g, .casRunning => if ungated = true ∨ g = .configured then some g else Option.none
  | g, _ => some g

/-- The steps can be made from this grip. -/
def checks (ungated : Bool) : Grip → List Act → Bool
  | _, [] => true
  | g, a :: todo =>
      match g.after ungated a with
      | some g' => g'.checks ungated todo
      | Option.none => false

/-- The memory is as the grip has it. -/
def Holds (i : Tid) (f : TreadmillFB303) : Grip → Prop
  | .none => True
  | .shared => i ∈ f.mutex.readers
  | .configured => i ∈ f.mutex.readers ∧ f.configuration.entries ≠ []
  | .exclusive => f.mutex.writer = some i

variable {ungated : Bool} {g g' : Grip} {a : Act} {todo : List Act}

theorem checks_cons (h : g.checks ungated (a :: todo) = true) :
    ∃ g', g.after ungated a = some g' ∧ g'.checks ungated todo = true := by
  unfold checks at h
  split at h
  · rename_i g' hg
    exact ⟨g', hg, h⟩
  · cases h

theorem checks_append_of_neutral {acts : List Act}
    (hn : ∀ b ∈ acts, ∀ g : Grip, g.after ungated b = some g) (g : Grip) :
    g.checks ungated (acts ++ todo) = g.checks ungated todo := by
  induction acts with
  | nil => rfl
  | cons b acts ih =>
      rw [List.cons_append, checks, hn b List.mem_cons_self g]
      exact ih fun c hc => hn c (List.mem_cons_of_mem _ hc)

theorem after_putMessage (i : ℕ) (e : Event) (g : Grip) :
    g.after ungated (.putMessage i e) = some g := by
  cases g <;> rfl

theorem checks_messageAllWorkers (S : Setup) (e : Event) (g : Grip) :
    g.checks ungated (Scheduler.messageAllWorkers S e ++ todo) = g.checks ungated todo := by
  refine checks_append_of_neutral (fun b hb => ?_) g
  obtain ⟨i, -, rfl⟩ := List.mem_map.mp hb
  exact after_putMessage i e

theorem checks_setPhase (S : Setup) (phaseName : String) (g : Grip) :
    g.checks ungated (Scheduler.setPhase S phaseName ++ todo) = g.checks ungated todo := by
  unfold Scheduler.setPhase
  rw [List.append_assoc]
  split_ifs
  · rw [List.singleton_append, checks]
    cases g <;> exact checks_messageAllWorkers S _ _
  · exact checks_messageAllWorkers S _ g

/-- Knowing that there is a configuration does no harm. -/
theorem checks_configured :
    ∀ {todo : List Act}, checks ungated .shared todo = true →
      checks ungated .configured todo = true
  | [], _ => rfl
  | a :: todo, h => by
      obtain ⟨g', hg, h'⟩ := checks_cons h
      have hstep : after ungated .configured a = some g' ∨
          (g' = .shared ∧ after ungated .configured a = some .configured) := by
        cases a <;> simp_all [after]
      rcases hstep with hs | ⟨rfl, hs⟩
      · rw [checks, hs]
        exact h'
      · rw [checks, hs]
        exact checks_configured h'

end Grip

/-- The calls that resume without the gate. -/
def Call.ungated : Call → Bool
  | .resume | .rpc (.resume2 _) => true
  | _ => false

/-- Every call keeps the locking discipline. -/
theorem Call.body_checks {S : Setup} (hflag : S.requireConfigurationOnResume = true) (c : Call) :
    Grip.checks c.ungated .none (c.body S) = true := by
  cases c with
  | rpc r =>
      cases r with
      | resume =>
          simp only [body, Rpc.body, TreadmillFB303.resume, if_pos hflag]
          rfl
      | resume2 req =>
          simp only [body, Rpc.body, TreadmillFB303.futureResume2,
            List.singleton_append, ungated]
          exact Grip.checks_setPhase S _ _
      | _ => rfl
  | setPhase phaseName =>
      have hbody : Grip.checks false .none (Scheduler.setPhase S phaseName ++ []) = true :=
        Grip.checks_setPhase S phaseName .none
      rw [List.append_nil] at hbody
      exact hbody
  | stopWorkers =>
      have hn : ∀ b ∈ (List.range S.numberOfWorkers).map Act.stopWorker, ∀ g : Grip,
          g.after false b = some g := by
        intro b hb g
        obtain ⟨i, -, rfl⟩ := List.mem_map.mp hb
        cases g <;> rfl
      have hbody : Grip.checks false .none
          ((List.range S.numberOfWorkers).map Act.stopWorker ++ []) = true :=
        Grip.checks_append_of_neutral hn .none
      rw [List.append_nil] at hbody
      exact hbody
  | _ => rfl

/-! ### The memory keeps to the grips -/

/-- The operations on the lock and the configuration. -/
def Op.touchesLock : Op → Bool
  | .lockShared | .unlockShared | .lock | .unlock | .clearConfiguration => true
  | .insertOrAssign _ _ => true
  | _ => false

theorem Op.configuration_ne_nil {o : Op} {c : AList fun _ : String => String}
    (hc : c.entries ≠ []) (ho : o ≠ .clearConfiguration) : (o.configuration c).entries ≠ [] := by
  unfold configuration
  split
  · rw [AList.entries_insert]
    simp
  · exact absurd rfl ho
  · exact hc

theorem Op.of_touchesLock {o : Op} (ho : o.touchesLock = false)
    (c : AList fun _ : String => String) : o.isLock = false ∧ o.configuration c = c := by
  cases o <;> first | exact ⟨rfl, rfl⟩ | cases ho

theorem Act.perform_touchesLock {S : Setup} {r r' : Response} {a : Act} {o : Op}
    {acts : List Act} (h : a.perform S r o = some (acts, r')) (ho : o.touchesLock = true) :
    a = .lockShared ∨ a = .unlockShared ∨ a = .lock ∨ a = .unlock ∨
      (∃ key value, a = .insertOrAssign key value) ∨ a = .clearConfiguration := by
  unfold Op.touchesLock at ho
  split at ho <;> first | cases ho; done | cases a <;> simp [perform] at h ⊢

section memory
variable {S : Setup} {i j : Tid} {f f' : TreadmillFB303} {g g' : Grip} {o : Op} {a : Act}
  {r r' : Response} {acts : List Act} {ungated : Bool}

/-- What a client relies on, no other thread takes away. -/
theorem Grip.holds_frame (hij : i ≠ j) (hg : g.Holds i f) (h : f.access S j o = some f')
    (hclear : o = .clearConfiguration → f.mutex.writer = some j) : g.Holds i f' := by
  have hacc := TreadmillFB303.access_spec h
  cases g with
  | none => trivial
  | shared => exact hacc.mutex.mem_readers hij hg
  | exclusive => exact hacc.mutex.writer hij hg
  | configured =>
      refine ⟨hacc.mutex.mem_readers hij hg.1, ?_⟩
      rw [hacc.configuration]
      exact Op.configuration_ne_nil hg.2 fun ho =>
        SharedMutex.writer_ne_some hg.1 (hclear ho)

theorem Grip.Holds.congr (hg : g.Holds i f) (ho : o.touchesLock = false)
    (h : f.access S i o = some f') : g.Holds i f' := by
  obtain ⟨hlock, hconf⟩ := Op.of_touchesLock ho f.configuration
  have hm := (TreadmillFB303.access_spec h).mutex_eq hlock
  have hc := (TreadmillFB303.access_spec h).configuration.trans hconf
  cases g with
  | none => trivial
  | shared =>
      unfold Holds at hg ⊢
      rw [hm]
      exact hg
  | configured =>
      unfold Holds at hg ⊢
      rw [hm, hc]
      exact hg
  | exclusive =>
      unfold Holds at hg ⊢
      rw [hm]
      exact hg

theorem Grip.holds_after (hga : g.after ungated a = some g') (hg : g.Holds i f)
    (hp : a.perform S r o = some (acts, r')) (h : f.access S i o = some f') : g'.Holds i f' := by
  cases a with
  | lockShared =>
      have ho : o = .lockShared := by cases o <;> simp [Act.perform] at hp ⊢
      subst ho
      obtain ⟨l, hl, rfl⟩ := Option.map_eq_some_iff.mp h
      cases g <;> cases hga
      rw [Holds, (SharedMutex.lockShared_spec hl).2.1]
      exact List.mem_cons_self
  | lock =>
      have ho : o = .lock := by cases o <;> simp [Act.perform] at hp ⊢
      subst ho
      obtain ⟨l, hl, rfl⟩ := Option.map_eq_some_iff.mp h
      cases g <;> cases hga
      exact (SharedMutex.lock_spec hl).2.2
  | unlockShared =>
      cases g <;> cases hga <;> trivial
  | unlock =>
      cases g <;> cases hga
      trivial
  | insertOrAssign key value =>
      have ho : ∃ key value, o = .insertOrAssign key value := by
        cases o <;> simp [Act.perform] at hp ⊢
      obtain ⟨key', value', rfl⟩ := ho
      cases h
      cases g <;> cases hga
      exact hg
  | clearConfiguration =>
      have ho : o = .clearConfiguration := by cases o <;> simp [Act.perform] at hp ⊢
      subst ho
      cases h
      cases g <;> cases hga
      exact hg
  | _ =>
      have hgg : g' = g := by
        cases g <;> simp [after] at hga <;> simp [hga]
      subst hgg
      have ho : o.touchesLock = false := by
        by_contra ho
        have := Act.perform_touchesLock hp (by simpa using ho)
        simp at this
      exact hg.congr ho h

/-- The gate is passed only with a configuration. -/
theorem Grip.configured_of_gate (hga : g.after ungated .gate = some g') (hg : g.Holds i f)
    (h : f.access S i (.configurationEmpty false) = some f') : Grip.configured.Holds i f' := by
  have hne : f.configuration.entries ≠ [] := by
    simp only [TreadmillFB303.access] at h
    split_ifs at h with hb
    intro he
    rw [he] at hb
    cases hb
  have hm : i ∈ f.mutex.readers := by
    cases g <;> cases hga
    · exact hg
    · exact hg.1
  exact Holds.congr (g := .configured) ⟨hm, hne⟩ rfl h

end memory

/-! ### Clients -/

/-- A client has a grip from which the rest of its call checks. -/
def Frame.Checked (i : Tid) (f : TreadmillFB303) (c : Frame) : Prop :=
  ∃ g : Grip, g.checks (c.call.any Call.ungated) c.todo = true ∧ g.Holds i f

section frames
variable {S : Setup} {i : Tid} {f f' : TreadmillFB303} {c c' : Frame} {o : Op}

theorem Frame.Checked.step (hflag : S.requireConfigurationOnResume = true)
    (hc : c.Checked i f) (hs : c.step S o = some c') (h : f.access S i o = some f') :
    c'.Checked i f' := by
  rcases Frame.step_cases hs with ⟨call, rfl, -, rfl⟩ | ⟨call, rfl, -, -, rfl⟩ |
    ⟨call, a, todo, acts, r, hcall, htodo, hp, rfl⟩
  · exact ⟨.none, Call.body_checks hflag call, trivial⟩
  · exact ⟨.none, rfl, trivial⟩
  · obtain ⟨g, hg, hholds⟩ := hc
    rw [htodo, hcall] at hg
    obtain ⟨g', hga, hchecks⟩ := Grip.checks_cons hg
    rcases Act.perform_acts hp with rfl | ⟨v, -, -, rfl⟩ | ⟨rfl, rfl, rfl⟩
    · exact ⟨g', hchecks, Grip.holds_after hga hholds hp h⟩
    · refine ⟨g', ?_, Grip.holds_after hga hholds hp h⟩
      rw [Grip.checks_messageAllWorkers]
      exact hchecks
    · -- past the gate, the configuration is known to be there
      refine ⟨.configured, ?_, Grip.configured_of_gate hga hholds h⟩
      have hrest : Grip.checks (Option.any Call.ungated (some call)) .configured todo = true := by
        cases g <;> cases hga
        · exact Grip.checks_configured hchecks
        · exact hchecks
      simpa [Scheduler.resume, Grip.checks, Grip.after] using hrest

theorem Frame.Checked.writer (hc : c.Checked i f) (hs : c.step S .clearConfiguration = some c') :
    f.mutex.writer = some i := by
  rcases Frame.step_cases hs with ⟨call, ho, -⟩ | ⟨call, ho, -⟩ |
    ⟨call, a, todo, acts, r, -, htodo, hp, -⟩
  · cases ho
  · cases ho
  · have ha : a = .clearConfiguration := by cases a <;> simp [Act.perform] at hp ⊢
    obtain ⟨g, hg, hholds⟩ := hc
    rw [htodo, ha] at hg
    obtain ⟨g', hga, -⟩ := Grip.checks_cons hg
    cases g <;> cases hga
    exact hholds

/-- A client that resumes the scheduler has passed the gate, or is in a call without one. -/
theorem Frame.Checked.resume (hc : c.Checked i f)
    (hs : c.step S (.casRunning true) = some c') :
    f.configuration.entries ≠ [] ∨ ∃ call, c.call = some call ∧ call.ungated = true := by
  rcases Frame.step_cases hs with ⟨call, ho, -⟩ | ⟨call, ho, -⟩ |
    ⟨call, a, todo, acts, r, hcall, htodo, hp, -⟩
  · cases ho
  · cases ho
  · have ha : a = .casRunning := by cases a <;> simp [Act.perform] at hp ⊢
    obtain ⟨g, hg, hholds⟩ := hc
    rw [htodo, ha, hcall] at hg
    obtain ⟨g', hga, -⟩ := Grip.checks_cons hg
    by_cases hu : call.ungated = true
    · exact Or.inr ⟨call, hcall, hu⟩
    · cases g <;> simp [Grip.after, hu] at hga
      exact Or.inl hholds.2

end frames

section runs
variable {ω ρ : Type} {S : Setup} {W : Workload ω ρ} {workload : ω} {clock : ℤ}
  {h : History} {s s' : System ω} {t : Tid} {o : Op}

theorem Reaches.checked (hflag : S.requireConfigurationOnResume = true)
    (hr : Reaches S W workload clock h s) (k : ℕ) :
    (s.loc (.client k)).Checked (.client k) s.mem.fb303 := by
  revert k
  refine Lts.invariant (P := fun s : System ω =>
    ∀ k, (s.loc (.client k)).Checked (.client k) s.mem.fb303) ?_ ?_ hr
  · rintro s ⟨t, o⟩ s' hall hs k
    have hf := (Memory.access_iff.mp (step_access hs)).2.2.1
    by_cases ht : t = .client k
    · subst ht
      exact (hall k).step hflag (Threads.step_loc hs) hf
    · obtain ⟨g, hg, hholds⟩ := hall k
      rw [Threads.step_frame hs (Ne.symm ht)]
      refine ⟨g, hg, Grip.holds_frame (Ne.symm ht) hholds hf fun ho => ?_⟩
      subst ho
      obtain ⟨j, rfl⟩ := client_of_isClient rfl hs
      exact (hall j).writer (Threads.step_loc hs)
  · intro k
    exact ⟨.none, rfl, trivial⟩

/-! ### The history of the configuration -/

/-- A step of `setConfiguration` that stores a value. -/
def isInsert : Tid × Op → Bool
  | (_, .insertOrAssign _ _) => true
  | _ => false

/-- The configuration is not empty after a history: a `setConfiguration` came after the last
`clearConfiguration`. -/
def configured (h : History) : Bool :=
  (sinceLast (fun a => a.2 = .clearConfiguration) h).any isInsert

theorem Reaches.configured (hr : Reaches S W workload clock h s) :
    s.mem.fb303.configuration.entries ≠ [] ↔ configured h = true := by
  refine Lts.history_induction (P := fun h s =>
    s.mem.fb303.configuration.entries ≠ [] ↔ Treadmill.configured h = true) ?_ ?_ hr
  · simp [start, TreadmillFB303.new, Treadmill.configured]
  · rintro h s ⟨t, o⟩ s' - ih hs
    have hf := (Memory.access_iff.mp (step_access hs)).2.2.1
    rw [(TreadmillFB303.access_spec hf).configuration]
    unfold Treadmill.configured at ih ⊢
    by_cases hclear : o = .clearConfiguration
    · subst hclear
      rw [sinceLast_snoc_of_pos _ (by simp)]
      simp [Op.configuration]
    · rw [sinceLast_snoc_of_neg _ (by simp [hclear]), List.any_append, Bool.or_eq_true, ← ih]
      unfold Op.configuration
      split
      · simp [isInsert]
      · exact absurd rfl hclear
      · rename_i hins _
        have hno : isInsert (t, o) = false := by
          unfold isInsert
          split
          · rename_i key value ho
            cases ho
            exact absurd rfl (hins key value)
          · rfl
        simp [hno]

/-! ### The gate -/

/-- Every resume that takes effect happens with a configuration. -/
def Gated (S : Setup) (W : Workload ω ρ) (workload : ω) (clock : ℤ) (h : History) : Prop :=
  ∀ h₁ t h₂ s, h = h₁ ++ (t, Op.casRunning true) :: h₂ → Reaches S W workload clock h₁ s →
    s.mem.fb303.configuration.entries ≠ []

/-- **The configuration gate**: with `require_configuration_on_resume` set, every resume
that takes effect happens with a configuration exactly when those of `resume2` do. -/
theorem gated_iff_resume2_configured (hflag : S.requireConfigurationOnResume = true)
    (hr : Reaches S W workload clock h s)
    (hrpc : ∀ k, (Tid.client k, Op.begin .resume) ∉ h) :
    Gated S W workload clock h ↔
      ∀ h₁ k h₂ req, h = h₁ ++ (Tid.client k, Op.casRunning true) :: h₂ →
        openCall k h₁ = some (.rpc (.resume2 req)) → configured h₁ = true := by
  constructor
  · rintro hg h₁ k h₂ req rfl -
    obtain ⟨u, u', hu, -, -⟩ := Lts.run_split _ hr
    exact (Reaches.configured hu).mp (hg h₁ _ h₂ u rfl hu)
  · rintro hc h₁ t h₂ u rfl hu
    obtain ⟨v, v', hv, hstep, -⟩ := Lts.run_split _ hr
    obtain rfl : v = u := Option.some.inj (hv.symm.trans hu)
    obtain ⟨k, rfl⟩ := client_of_isClient rfl hstep
    rcases (Reaches.checked hflag hu k).resume (Threads.step_loc hstep) with
      hne | ⟨call, hcall, hungated⟩
    · exact hne
    · rw [Reaches.openCall hu] at hcall
      unfold Call.ungated at hungated
      split at hungated
      · exact absurd (List.mem_append_left _ (begin_of_openCall hcall)) (hrpc k)
      · rename_i req
        exact (Reaches.configured hu).mpr (hc h₁ k h₂ req rfl hcall)
      · cases hungated

end runs

/-- One worker that waits for the runner, and a configuration is required. -/
def gatedSetup : Setup :=
  { defaults 1 with waitForRunnerReady := true, requireConfigurationOnResume := true }

/-- A `resume2` on a service that has never been configured, up to its compare-exchange. -/
def unconfiguredResume2 : History :=
  [(.client 0, .begin (.rpc (.resume2 (some "p")))), (.client 0, .watchdogUpdate 1000),
    (.client 0, .checkPaused true), (.client 0, .putMessage 0 (Event.setPhase "p"))]

/-- `resume2` starts the test without a configuration. -/
theorem resume2_not_gated :
    ∃ s, Reaches gatedSetup constantWorkload () 1
        (unconfiguredResume2 ++ [(Tid.client 0, Op.casRunning true)]) s ∧
      ¬ Gated gatedSetup constantWorkload () 1
        (unconfiguredResume2 ++ [(Tid.client 0, Op.casRunning true)]) := by
  have hrun : ((system gatedSetup constantWorkload).run (start gatedSetup () 1)
      (unconfiguredResume2 ++ [(Tid.client 0, Op.casRunning true)])).isSome = true := by
    decide +kernel
  have hbefore : ((system gatedSetup constantWorkload).run (start gatedSetup () 1)
      unconfiguredResume2).any (fun s => s.mem.fb303.configuration.entries.isEmpty) = true := by
    decide +kernel
  obtain ⟨s, hr⟩ := Option.isSome_iff_exists.mp hrun
  obtain ⟨u, hu, hempty⟩ := (Option.any_eq_true _ _).mp hbefore
  refine ⟨s, hr, fun hg => ?_⟩
  have hne := hg unconfiguredResume2 (.client 0) [] u rfl hu
  exact hne (List.isEmpty_iff.mp hempty)

/-- A `setConfiguration`, then a `resume` that passes the gate. -/
def configuredResume : History :=
  [(.client 0, .begin (.rpc (.setConfiguration "key" "value"))),
    (.client 0, .watchdogUpdate 1000), (.client 0, .lock),
    (.client 0, .insertOrAssign "key" "value"), (.client 0, .armWatchdog "key" "value"),
    (.client 0, .unlock), (.client 0, .ret {}),
    (.client 1, .begin (.rpc .resume)), (.client 1, .watchdogUpdate 1001),
    (.client 1, .lockShared), (.client 1, .configurationEmpty false),
    (.client 1, .casRunning true), (.client 1, .loadState .running),
    (.client 1, .unlockShared), (.client 1, .ret { flag := some true })]

theorem gated_iff_resume2_configured_resume :
    ∃ s, Reaches gatedSetup constantWorkload () 1 configuredResume s ∧
      Gated gatedSetup constantWorkload () 1 configuredResume := by
  have hrun : ((system gatedSetup constantWorkload).run (start gatedSetup () 1)
      configuredResume).isSome = true := by
    decide +kernel
  obtain ⟨s, hr⟩ := Option.isSome_iff_exists.mp hrun
  have hrpc : ∀ k, (Tid.client k, Op.begin .resume) ∉ configuredResume := by
    intro k
    simp [configuredResume]
  refine ⟨s, hr, (gated_iff_resume2_configured rfl hr hrpc).mpr ?_⟩
  -- no `resume2` call was begun at all
  intro h₁ k h₂ req he hcall
  have hin : (Tid.client k, Op.begin (.rpc (.resume2 req))) ∈ configuredResume := by
    rw [he]
    exact List.mem_append_left _ (begin_of_openCall hcall)
  simp [configuredResume] at hin

end Treadmill
