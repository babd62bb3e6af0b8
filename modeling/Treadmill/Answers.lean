import Mathlib.Data.List.Chain
import Treadmill.Discipline

/-! # What a resuming call answers

`Scheduler::resume` exchanges `PAUSED` for `RUNNING` and then reads `state_` again, and other
threads may pause or stop in between.  `Answering` says how far a call of `resume` or `resume2` has
got and what it has seen; so a call that answers `true` saw the scheduler run, and one that answers
`false` was refused by the gate, or the scheduler had been stopped, or another thread paused it
after the exchange and before the read (`resume_answers`). -/

namespace Treadmill

/-- The call of a function begins. -/
def Op.isBegin : Op → Bool
  | .begin _ => true
  | _ => false

/-- What happened since client `k` began its last call. -/
def inCall (k : ℕ) (h : History) : History :=
  sinceLast (fun a => decide (a.1 = .client k) && a.2.isBegin) h

/-- In its call the client read `RUNNING`. -/
def SawRunning (k : ℕ) (h : History) : Prop := (.client k, .loadState .running) ∈ inCall k h

/-- In its call the client found the configuration empty. -/
def WasRefused (k : ℕ) (h : History) : Prop := (.client k, .configurationEmpty true) ∈ inCall k h

/-- In its call the client has exchanged `PAUSED` for `RUNNING`, or found another state, and
then the other threads made the steps `g`. -/
def Exchanged (k : ℕ) (h g : History) : Prop :=
  ∃ g' took, inCall k h = g' ++ (.client k, .casRunning took) :: g ∧ ∀ o, (.client k, o) ∉ g

/-- In its call, after the exchange and before its next step, the read of `PAUSED`, somebody else
paused the scheduler. -/
def WasOvertaken (k : ℕ) (h : History) : Prop :=
  ∃ g' took g g'' t,
    inCall k h =
        g' ++ (.client k, .casRunning took) :: g ++ (.client k, .loadState .paused) :: g'' ∧
      (∀ o, (.client k, o) ∉ g) ∧ (t, .casPaused true) ∈ g

section calls
variable {k : ℕ} {h g : History} {t : Tid} {o : Op}

theorem inCall_snoc (ho : t = .client k → o.isBegin = false) :
    inCall k (h ++ [(t, o)]) = inCall k h ++ [(t, o)] := by
  refine sinceLast_snoc_of_neg _ ?_
  rw [Bool.and_eq_false_iff, decide_eq_false_iff_not]
  by_cases ht : t = .client k
  · exact Or.inr (ho ht)
  · exact Or.inl ht

theorem SawRunning.snoc (hs : SawRunning k h) (ho : t = .client k → o.isBegin = false) :
    SawRunning k (h ++ [(t, o)]) := by
  rw [SawRunning, inCall_snoc ho]
  exact List.mem_append_left _ hs

theorem WasRefused.snoc (hs : WasRefused k h) (ho : t = .client k → o.isBegin = false) :
    WasRefused k (h ++ [(t, o)]) := by
  rw [WasRefused, inCall_snoc ho]
  exact List.mem_append_left _ hs

theorem Exchanged.snoc (hg : Exchanged k h g) (ht : t ≠ .client k) :
    Exchanged k (h ++ [(t, o)]) (g ++ [(t, o)]) := by
  obtain ⟨g', took, he, hother⟩ := hg
  refine ⟨g', took, ?_, fun o' hm => ?_⟩
  · rw [inCall_snoc fun h => absurd h ht, he, List.append_assoc, List.cons_append]
  · rcases List.mem_append.mp hm with hm | hm
    · exact hother o' hm
    · exact ht (congrArg Prod.fst (List.mem_singleton.mp hm)).symm

theorem WasOvertaken.snoc (hs : WasOvertaken k h) (ho : t = .client k → o.isBegin = false) :
    WasOvertaken k (h ++ [(t, o)]) := by
  obtain ⟨g', took, g, g'', t', he, hother, hm⟩ := hs
  refine ⟨g', took, g, g'' ++ [(t, o)], t', ?_, hother, hm⟩
  rw [inCall_snoc ho, he, List.append_assoc, List.cons_append]

/-- The read comes next after the exchange and finds `PAUSED`. -/
theorem Exchanged.overtaken (hg : Exchanged k h g) (hm : (t, .casPaused true) ∈ g) :
    WasOvertaken k (h ++ [(.client k, .loadState .paused)]) := by
  obtain ⟨g', took, he, hother⟩ := hg
  refine ⟨g', took, g, [], t, ?_, hother, hm⟩
  rw [inCall_snoc fun _ => rfl, he]

end calls

/-! ### A resuming call -/

/-- The result is read right after the exchange. -/
def Act.Follows (a b : Act) : Prop := b = .readRunning → a = .casRunning

/-- What client `k` has done of a resuming call when `state_` is `v`. -/
structure Answering (k : ℕ) (h : History) (v : RunState) (f : Frame) : Prop where
  follows : f.todo.IsChain Act.Follows
  noDisarm : Act.disarmWatchdog ∉ f.todo
  answers : f.response.flag.isSome ∨ Act.readRunning ∈ f.todo ∨ Act.gate ∈ f.todo
  yes : f.response.flag = some true → SawRunning k h
  no : f.response.flag = some false → WasRefused k h ∨ v = .stopping ∨ WasOvertaken k h
  /-- between the exchange and the read -/
  exchanged : f.todo.head? = some .readRunning → ∃ g, Exchanged k h g ∧
    (v = .running ∨ v = .stopping ∨ ∃ t, (t, .casPaused true) ∈ g)

section steps
variable {S : Setup} {k : ℕ} {h : History} {v v' : RunState} {f f' : Frame} {t : Tid} {o : Op}
  {c : Call}

theorem RunState.step_on (hv : v.step o = some v') (hon : v = .running ∨ v = .stopping) :
    v' = .running ∨ v' = .stopping ∨ o = .casPaused true := by
  rcases RunState.step_eq_or hv with rfl | ⟨rfl, -⟩ | ⟨-, rfl⟩ | ⟨-, rfl⟩
  · exact hon.imp_right Or.inl
  · exact Or.inr (Or.inr rfl)
  · exact Or.inl rfl
  · exact Or.inr (Or.inl rfl)

theorem RunState.step_casRunning_on {took : Bool} (hv : v.step (.casRunning took) = some v') :
    v' = .running ∨ v' = .stopping := by
  cases v <;> cases took <;> first | cases hv; simp | cases hv

theorem Answering.other (ha : Answering k h v f) (ht : t ≠ .client k) (hv : v.step o = some v') :
    Answering k (h ++ [(t, o)]) v' f where
  follows := ha.follows
  noDisarm := ha.noDisarm
  answers := ha.answers
  yes hflag := (ha.yes hflag).snoc fun he => absurd he ht
  no hflag := by
    rcases ha.no hflag with hno | rfl | hno
    · exact Or.inl (hno.snoc fun he => absurd he ht)
    · exact Or.inr (Or.inl (RunState.step_stopping hv))
    · exact Or.inr (Or.inr (hno.snoc fun he => absurd he ht))
  exchanged hhead := by
    obtain ⟨g, hg, hon⟩ := ha.exchanged hhead
    refine ⟨g ++ [(t, o)], hg.snoc ht, ?_⟩
    have hpaused :
        (∃ t', (t', Op.casPaused true) ∈ g) → ∃ t', (t', .casPaused true) ∈ g ++ [(t, o)] :=
      fun ⟨t', hm⟩ => ⟨t', List.mem_append_left _ hm⟩
    rcases hon with hon | hon | hon
    · rcases RunState.step_on hv (Or.inl hon) with hv' | hv' | rfl
      · exact Or.inl hv'
      · exact Or.inr (Or.inl hv')
      · exact Or.inr (Or.inr ⟨t, by simp⟩)
    · rcases RunState.step_on hv (Or.inr hon) with hv' | hv' | rfl
      · exact Or.inl hv'
      · exact Or.inr (Or.inl hv')
      · exact Or.inr (Or.inr ⟨t, by simp⟩)
    · exact Or.inr (Or.inr (hpaused hon))

/-- Steps that read no result may stand before anything that does not begin with the read. -/
theorem Act.follows_append {l r : List Act} (hl : Act.readRunning ∉ l) (hr : r.IsChain Follows)
    (hhead : r.head? ≠ some .readRunning) : (l ++ r).IsChain Follows := by
  refine List.isChain_append.mpr ⟨?_, hr, ?_⟩
  · refine List.Pairwise.isChain (List.pairwise_of_forall_mem_list fun a _ b hb hread => ?_)
    exact absurd (hread ▸ hb) hl
  · intro a _ b hb hread
    exact absurd (hread ▸ hb) hhead

theorem Scheduler.follows_resume {l : List Act} (hl : l.IsChain Act.Follows)
    (hhead : l.head? ≠ some .readRunning) : (resume ++ l).IsChain Act.Follows := by
  refine List.isChain_append.mpr ⟨?_, hl, ?_⟩
  · exact List.isChain_pair.mpr fun _ => rfl
  · intro a _ b hb hread
    exact absurd (hread ▸ hb) hhead

theorem Call.body_answering (S : Setup) (hc : c.resumes) (h : History) (v : RunState) :
    Answering k h v ⟨some c, c.body S, {}⟩ := by
  have hresume : Scheduler.resume.IsChain Act.Follows := List.isChain_pair.mpr fun _ => rfl
  have hfollows : (c.body S).IsChain Act.Follows ∧ (c.body S).head? ≠ some .readRunning := by
    unfold resumes at hc
    split at hc
    · exact ⟨hresume, by simp [body, Scheduler.resume]⟩
    · refine ⟨?_, by simp [body, Rpc.body, TreadmillFB303.resume]⟩
      have hunlock : ([.unlockShared] : List Act).IsChain Act.Follows := List.isChain_singleton _
      simp only [body, Rpc.body, TreadmillFB303.resume]
      rw [List.append_assoc]
      split_ifs
      · refine Act.follows_append (by simp) ?_ (by simp)
        exact Act.follows_append (by simp) hunlock (by simp)
      · refine Act.follows_append (by simp) (Scheduler.follows_resume hunlock (by simp)) ?_
        simp [Scheduler.resume]
    · refine ⟨?_, by simp [body, Rpc.body, TreadmillFB303.futureResume2]⟩
      refine Act.follows_append ?_ hresume (by simp [Scheduler.resume])
      intro hm
      rcases List.mem_append.mp hm with hm | hm
      · simp at hm
      · exact Scheduler.forall_setPhase (P := fun a => a ≠ .readRunning) (by simp) (by simp) _
          hm rfl
    · cases hc
  obtain ⟨-, hdisarm, hrefused⟩ := Call.body_refused S hc
  refine ⟨hfollows.1, hdisarm, hrefused.imp_left ?_, ?_, ?_, fun hhead => absurd hhead hfollows.2⟩
  · intro hflag
    cases hflag
  · intro hflag
    cases hflag
  · intro hflag
    cases hflag

/-- The steps that remain keep the order; the read is next only after the exchange. -/
theorem Act.follows_perform {a : Act} {todo acts : List Act} {r r' : Response}
    (hfollows : (a :: todo).IsChain Follows) (hp : a.perform S r o = some (acts, r')) :
    (acts ++ todo).IsChain Follows ∧
      ((acts ++ todo).head? = some .readRunning → a = .casRunning) := by
  obtain ⟨hhead, htail⟩ := List.isChain_cons.mp hfollows
  have hnext : todo.head? = some .readRunning → a = .casRunning := fun h => hhead _ h rfl
  rcases perform_acts hp with rfl | ⟨v, rfl, -, rfl⟩ | ⟨rfl, -, rfl⟩
  · exact ⟨htail, hnext⟩
  · have hne : todo.head? ≠ some .readRunning := fun h => by cases hnext h
    have hputs : Act.readRunning ∉ Scheduler.messageAllWorkers S (Event.setMaxOutstanding v) :=
      fun hm => Scheduler.forall_messageAllWorkers (P := fun b => b ≠ .readRunning)
        (fun i h => by cases h) _ hm rfl
    refine ⟨follows_append hputs htail hne, fun h => ?_⟩
    cases hl : Scheduler.messageAllWorkers S (Event.setMaxOutstanding v) with
    | nil =>
        rw [hl, List.nil_append] at h
        exact absurd h hne
    | cons b l =>
        rw [hl, List.cons_append, List.head?_cons] at h
        exact absurd (Option.some.inj h ▸ hl ▸ List.mem_cons_self) hputs
  · have hne : todo.head? ≠ some .readRunning := fun h => by cases hnext h
    exact ⟨Scheduler.follows_resume htail hne, fun h => by cases h⟩

theorem Act.perform_isBegin {a : Act} {acts : List Act} {r r' : Response}
    (hp : a.perform S r o = some (acts, r')) : o.isBegin = false := by
  cases o with
  | «begin» c => cases a <;> simp [perform] at hp
  | _ => rfl

theorem Act.perform_casRunning {acts : List Act} {r r' : Response}
    (hp : casRunning.perform S r o = some (acts, r')) : ∃ took, o = .casRunning took := by
  cases o with
  | casRunning took => exact ⟨took, rfl⟩
  | _ => simp [perform] at hp

theorem Act.perform_gate {r r' : Response} (hp : gate.perform S r o = some ([], r')) :
    o = .configurationEmpty true := by
  cases o with
  | configurationEmpty b =>
      cases b with
      | true => rfl
      | false => simp [perform, Scheduler.resume] at hp
  | _ => simp [perform] at hp

theorem Answering.perform (ha : Answering k h v f) {a : Act} {todo acts : List Act} {r : Response}
    (htodo : f.todo = a :: todo) (hp : a.perform S f.response o = some (acts, r))
    (hv : v.step o = some v') :
    Answering k (h ++ [(.client k, o)]) v' ⟨some c, acts ++ todo, r⟩ := by
  obtain ⟨hfollows, hdisarm, hanswers, hyes, hno, hexchanged⟩ := ha
  rw [htodo] at hfollows hdisarm hanswers hexchanged
  have ho : Tid.client k = .client k → o.isBegin = false := fun _ => Act.perform_isBegin hp
  obtain ⟨hrest, hread⟩ := Act.follows_perform hfollows hp
  have hne : a ≠ .disarmWatchdog := fun h => hdisarm (h ▸ List.mem_cons_self)
  have hlast : (.client k, o) ∈ inCall k (h ++ [(Tid.client k, o)]) := by simp [inCall_snoc ho]
  have hflag := Act.perform_flag hp
  refine ⟨hrest, ?_, ?_, ?_, ?_, ?_⟩
  · intro hm
    rcases List.mem_append.mp hm with hm | hm
    · rcases Act.perform_acts hp with rfl | ⟨w, -, -, rfl⟩ | ⟨-, -, rfl⟩
      · cases hm
      · simp [Scheduler.messageAllWorkers] at hm
      · simp [Scheduler.resume] at hm
    · exact hdisarm (List.mem_cons_of_mem _ hm)
  · rcases hflag with ⟨hnread, hsame, hgate⟩ | hdis | ⟨-, -, hset⟩ | ⟨w, -, -, -, hset⟩
    · rw [hsame]
      rcases hanswers with hans | hans | hans
      · exact Or.inl hans
      · have := (List.mem_cons.mp hans).resolve_left hnread.symm
        exact Or.inr (Or.inl (List.mem_append_right _ this))
      · rcases List.mem_cons.mp hans with rfl | hans
        · refine Or.inr (Or.inl (List.mem_append_left _ ?_))
          rw [hgate rfl]
          simp [Scheduler.resume]
        · exact Or.inr (Or.inr (List.mem_append_right _ hans))
    · exact absurd hdis hne
    · exact Or.inl (by rw [hset]; rfl)
    · exact Or.inl (by rw [hset]; rfl)
  · intro htrue
    rcases hflag with ⟨-, hsame, -⟩ | hdis | ⟨-, -, hset⟩ | ⟨w, -, ho', -, hset⟩
    · exact (hyes (hsame ▸ htrue)).snoc ho
    · exact absurd hdis hne
    · cases hset.symm.trans htrue
    · have hw : w = .running := of_decide_eq_true (Option.some.inj (hset.symm.trans htrue))
      rw [ho', hw] at hlast ⊢
      exact hlast
  · intro hfalse
    rcases hflag with ⟨-, hsame, -⟩ | hdis | ⟨rfl, rfl, -⟩ | ⟨w, rfl, rfl, -, hset⟩
    · rcases hno (hsame ▸ hfalse) with hno | rfl | hno
      · exact Or.inl (hno.snoc ho)
      · exact Or.inr (Or.inl (RunState.step_stopping hv))
      · exact Or.inr (Or.inr (hno.snoc ho))
    · exact absurd hdis hne
    · obtain rfl := Act.perform_gate hp
      exact Or.inl hlast
    · -- the read finds another state than `RUNNING`, although the call just made the exchange
      obtain ⟨rfl, -⟩ := RunState.step_loadState hv
      have hother : w ≠ .running := of_decide_eq_false (Option.some.inj (hset.symm.trans hfalse))
      obtain ⟨g, hg, hon⟩ := hexchanged rfl
      cases w with
      | running => exact absurd rfl hother
      | stopping => exact Or.inr (Or.inl (RunState.step_stopping hv))
      | paused =>
          obtain ⟨t, ht⟩ := (hon.resolve_left (by simp)).resolve_left (by simp)
          exact Or.inr (Or.inr (hg.overtaken ht))
  · intro hhead
    obtain rfl := hread hhead
    obtain ⟨took, rfl⟩ := Act.perform_casRunning hp
    refine ⟨[], ⟨inCall k h, took, inCall_snoc ho, by simp⟩, ?_⟩
    rcases RunState.step_casRunning_on hv with hon | hon
    · exact Or.inl hon
    · exact Or.inr (Or.inl hon)

end steps

/-! ### Every run -/

section runs
variable {ω ρ : Type} {S : Setup} {W : Workload ω ρ} {workload : ω} {clock : ℤ}
  {h : History} {s : System ω}

theorem Reaches.storeStopping_mem (hr : Reaches S W workload clock h s)
    (hstop : s.mem.scheduler.state = .stopping) : ∃ t, (t, .storeStopping) ∈ h := by
  refine Lts.history_induction (P := fun h (s : System ω) =>
    s.mem.scheduler.state = .stopping → ∃ t, (t, Op.storeStopping) ∈ h) ?_ ?_ hr hstop
  · intro hstate
    simp only [start, Scheduler.new] at hstate
    split_ifs at hstate
  · rintro h s ⟨t, o⟩ s' - ih hs hstate
    rcases RunState.step_eq_or (step_runState hs) with hv | ⟨-, hv⟩ | ⟨-, hv⟩ | ⟨rfl, -⟩
    · obtain ⟨t', hm⟩ := ih (hv ▸ hstate)
      exact ⟨t', List.mem_append_left _ hm⟩
    · cases hv.symm.trans hstate
    · cases hv.symm.trans hstate
    · exact ⟨t, by simp⟩

theorem Reaches.answering (hr : Reaches S W workload clock h s) {k : ℕ} {c : Call}
    (hcall : (s.loc (.client k)).call = some c) (hc : c.resumes) :
    Answering k h s.mem.scheduler.state (s.loc (.client k)) := by
  refine Lts.history_induction (P := fun h (s : System ω) =>
    ∀ c, (s.loc (.client k)).call = some c → c.resumes →
      Answering k h s.mem.scheduler.state (s.loc (.client k))) ?_ ?_ hr c hcall hc
  · intro c hc
    cases hc
  · rintro h s ⟨t, o⟩ s' - ih hs c hc hresumes
    have hv := step_runState hs
    by_cases ht : t = .client k
    · subst ht
      rcases Frame.step_cases (Threads.step_loc hs) with ⟨c', rfl, -, hf⟩ | ⟨c', -, -, -, hf⟩ |
        ⟨c', a, todo, acts, r, hcall, htodo, hp, hf⟩
      · rw [hf] at hc ⊢
        cases hc
        exact Call.body_answering S hresumes _ _
      · rw [hf] at hc
        cases hc
      · rw [hf] at hc ⊢
        cases hc
        exact (ih c hcall hresumes).perform htodo hp hv
    · have hloc := Threads.step_frame hs (Ne.symm ht)
      rw [hloc] at hc ⊢
      exact (ih c hc hresumes).other ht hv

/-- **What a resuming call answers**: `true` only when it read `RUNNING` in the call, and `false`
only when it was refused for want of a configuration, or somebody had stopped the scheduler, or
somebody else paused it between the call's exchange and its read. -/
theorem resume_answers (hr : Reaches S W workload clock h s) :
    ∀ h₁ k r h₂ c, h = h₁ ++ (.client k, .ret r) :: h₂ → openCall k h₁ = some c → c.resumes →
      (r.flag = some true ∧ SawRunning k h₁) ∨
      (r.flag = some false ∧
        (WasRefused k h₁ ∨ (∃ t, (t, .storeStopping) ∈ h₁) ∨ WasOvertaken k h₁)) := by
  rintro h₁ k r h₂ c rfl hopen hresumes
  obtain ⟨u, u', hu, hret, -⟩ := Lts.run_split _ hr
  have hu : Reaches S W workload clock h₁ u := hu
  obtain ⟨-, htodo, rfl, -⟩ := Frame.step_ret (Threads.step_loc hret)
  have ha := hu.answering ((hu.openCall k).trans hopen) hresumes
  have hsome := ha.answers
  rw [htodo] at hsome
  obtain ⟨b, hb⟩ := Option.isSome_iff_exists.mp (hsome.resolve_right (by simp))
  cases b with
  | true => exact Or.inl ⟨hb, ha.yes hb⟩
  | false => exact Or.inr ⟨hb, (ha.no hb).imp_right (Or.imp_left hu.storeStopping_mem)⟩

end runs

/-- A client pauses, and pauses again between the exchange of another's `resume` and its read. -/
def overtakenRun : History :=
  [(.client 0, .begin .pause), (.client 0, .casPaused true), (.client 0, .ret {}),
    (.client 1, .begin .resume), (.client 1, .casRunning true),
    (.client 0, .begin .pause), (.client 0, .casPaused true), (.client 0, .ret {}),
    (.client 1, .loadState .paused)]

theorem resume_answers_overtaken : WasOvertaken 1 overtakenRun := by
  have hrun : ((system (defaults 1) constantWorkload).run (start (defaults 1) () 1)
      (overtakenRun ++ [(.client 1, .ret { flag := some false })])).isSome = true := by
    decide +kernel
  obtain ⟨s, hr⟩ := Option.isSome_iff_exists.mp hrun
  rcases resume_answers hr overtakenRun 1 { flag := some false } [] .resume rfl rfl rfl with
    ⟨hflag, -⟩ | ⟨-, hrefused | ⟨t, hstop⟩ | hovertaken⟩
  · cases hflag
  · exact absurd hrefused (by unfold WasRefused; decide)
  · simp [overtakenRun] at hstop
  · exact hovertaken

end Treadmill
