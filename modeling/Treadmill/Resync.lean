import Treadmill.Steps

/-! # Re-synchronisation after a pause

A `RESET` on every queue should separate the requests sent before an effective pause from
those sent after the resume that follows it (`Resynchronised`).  The loop looks at `state_`
only at the end of a round, so a pause and a resume that both fall between two looks pass
unnoticed (`resume_unnoticed`).

`NoticedPauses` is the condition under which this does not happen: a resume that takes
effect when queue `i` is `Exposed` (a request, then a pause, and no `RESET` in between)
finds that the loop has seen `state_` different from `RUNNING` since its last `RESET` on
that queue.  The invariant is `Resync`: while the loop may send, no queue is `Stale`, and
an exposed queue means that the scheduler does not run. -/

namespace Treadmill

/-! ### Labels and histories -/

/-- The label puts this event on queue `i`. -/
def isPut (i : ℕ) (e : Event) (a : Tid × Op) : Bool := a.2 = .putMessage i e

/-- A pause that takes effect. -/
def isPause (a : Tid × Op) : Bool := a.2 = .casPaused true

/-- A resume that takes effect. -/
def isResume (a : Tid × Op) : Bool := a.2 = .casRunning true

/-- The loop finds `state_` different from `RUNNING`. -/
def seesNotRunning (a : Tid × Op) : Bool :=
  match a with
  | (.loop, .loadState v) => v ≠ .running
  | _ => false

/-- What happened after the last `RESET` on queue `i`. -/
def sinceReset (i : ℕ) (h : History) : History := sinceLast (isPut i .reset) h

/-- Queue `i` has a request from before a pause and no `RESET` after it. -/
def Exposed (i : ℕ) (h : History) : Prop :=
  inOrder [isPut i .sendRequest, isPause] (sinceReset i h) = true

/-- Queue `i` has a request from before a pause and a resume, and no `RESET` after it. -/
def Stale (i : ℕ) (h : History) : Prop :=
  inOrder [isPut i .sendRequest, isPause, isResume] (sinceReset i h) = true

instance (i : ℕ) : DecidablePred (Exposed i) := fun h => by unfold Exposed; infer_instance

section labels
variable {i : ℕ} {h : History} {a : Tid × Op}

theorem sinceReset_snoc_of_ne (ha : isPut i .reset a = false) :
    sinceReset i (h ++ [a]) = sinceReset i h ++ [a] :=
  sinceLast_snoc_of_neg h ha

theorem exposed_snoc (ha : isPut i .reset a = false) (he : Exposed i (h ++ [a])) :
    Exposed i h ∨ isPause a = true := by
  unfold Exposed at he ⊢
  rw [sinceReset_snoc_of_ne ha] at he
  have hs := inOrder_snoc isPause a [isPut i .sendRequest] (sinceReset i h)
  rw [List.singleton_append] at hs
  rw [hs, Bool.or_eq_true, Bool.and_eq_true] at he
  exact he.imp_right And.right

theorem stale_snoc (ha : isPut i .reset a = false) (hs : Stale i (h ++ [a])) :
    Stale i h ∨ (Exposed i h ∧ isResume a = true) := by
  unfold Stale at hs ⊢
  rw [sinceReset_snoc_of_ne ha] at hs
  have he := inOrder_snoc isResume a [isPut i .sendRequest, isPause] (sinceReset i h)
  rw [List.cons_append, List.singleton_append] at he
  rwa [he, Bool.or_eq_true, Bool.and_eq_true] at hs

end labels

/-! ### The invariant -/

/-- Every resume that takes effect finds each exposed queue with a loop that has seen the
pause. -/
def NoticedPauses (n : ℕ) (h : History) : Prop :=
  Always (fun h₁ a => isResume a = true → ∀ i < n, Exposed i h₁ →
    (sinceReset i h₁).any seesNotRunning = true) h

instance (n : ℕ) : DecidablePred (NoticedPauses n) := fun h => by
  unfold NoticedPauses
  infer_instance

/-- Nothing was sent on queue `i` since its last `RESET`, and the loop was not told to stop
sending. -/
def Clean (i : ℕ) (h : History) : Prop :=
  ∀ a ∈ sinceReset i h, isPut i .sendRequest a = false ∧ seesNotRunning a = false

/-- What holds while the loop may send on queue `i`. -/
structure Fresh (i : ℕ) (v : RunState) (h : History) : Prop where
  unseen : (sinceReset i h).any seesNotRunning = false
  notStale : ¬ Stale i h
  exposed : Exposed i h → v ≠ .running

/-- The invariant of queue `i`. -/
def Resync (i : ℕ) (h : History) : Stage → RunState → Prop
  | .reset j, _ => i < j → Clean i h
  | .prepare, _ => Clean i h
  | .check, v | .round, v | .settle, v => Fresh i v h
  | _, _ => True

section invariant
variable {n i : ℕ} {h : History} {t : Tid} {o : Op} {g g' : Stage} {v v' : RunState}

theorem Clean.snoc (hc : Clean i h) {a : Tid × Op} (ha : isPut i .reset a = false)
    (hsend : isPut i .sendRequest a = false) (hsees : seesNotRunning a = false) :
    Clean i (h ++ [a]) := by
  unfold Clean
  rw [sinceReset_snoc_of_ne ha]
  intro b hb
  rcases List.mem_append.mp hb with hb | hb
  · exact hc b hb
  · obtain rfl := List.mem_singleton.mp hb
    exact ⟨hsend, hsees⟩

theorem Clean.fresh (hc : Clean i h) : Fresh i v h := by
  have hsend : ∀ a ∈ sinceReset i h, isPut i .sendRequest a = false := fun a ha => (hc a ha).1
  refine ⟨?_, ?_, ?_⟩
  · rw [List.any_eq_false]
    intro a ha
    simp [(hc a ha).2]
  · unfold Stale
    rw [inOrder_of_forall hsend]
    simp
  · unfold Exposed
    rw [inOrder_of_forall hsend]
    simp

/-- Sending goes on freshly as long as no `RESET` is due, the loop sees nothing else than
`RUNNING`, and a resume is noticed. -/
theorem Fresh.snoc (hf : Fresh i v h) (hi : i < n) (hn : NoticedPauses n (h ++ [(t, o)]))
    (hput : isPut i .reset (t, o) = false) (hsees : seesNotRunning (t, o) = false)
    (hv : v.step o = some v') : Fresh i v' (h ++ [(t, o)]) := by
  have hresume : isResume (t, o) = true → ¬ Exposed i h := by
    intro hr he
    have := hn.last hr i hi he
    rw [hf.unseen] at this
    cases this
  refine ⟨?_, ?_, ?_⟩
  · rw [sinceReset_snoc_of_ne hput, List.any_append, hf.unseen]
    simp [hsees]
  · intro hs
    rcases stale_snoc hput hs with hs | ⟨he, hr⟩
    · exact hf.notStale hs
    · exact hresume hr he
  · intro he hrun
    subst hrun
    rcases RunState.step_eq_or hv with hv' | ⟨-, hv'⟩ | ⟨rfl, -⟩ | ⟨-, hv'⟩
    · rcases exposed_snoc hput he with he | hp
      · exact hf.exposed he hv'.symm
      · have hp : o = .casPaused true := by simpa [isPause] using hp
        rw [hp] at hv
        cases (RunState.step_casPaused hv).2
    · cases hv'
    · rcases exposed_snoc hput he with he | hp
      · exact hresume (by simp [isResume]) he
      · simp [isPause] at hp
    · cases hv'

theorem resync_resetFrom (hi : i < n) (j : ℕ) (hc : i < j → Clean i h) :
    Resync i h (.resetFrom n j) v := by
  unfold Stage.resetFrom
  by_cases hj : j < n
  · rw [if_pos hj]
    exact hc
  · rw [if_neg hj]
    exact hc (by omega)

theorem Moves.resync (hm : Moves n g o g') (hi : i < n) (hv : v.step o = some v')
    (hn : NoticedPauses n (h ++ [(Tid.loop, o)])) (hP : Resync i h g v) :
    Resync i (h ++ [(Tid.loop, o)]) g' v' := by
  cases hm with
  | reset j =>
      apply resync_resetFrom hi (j + 1)
      intro hlt
      by_cases hj : j = i
      · subst hj
        unfold Clean sinceReset
        rw [sinceLast_snoc_of_pos _ (by simp [isPut])]
        simp
      · have hlt : i < j := by omega
        exact (hP hlt).snoc (by simp [isPut, hj]) (by simp [isPut, hj]) rfl
  | loadRps w => exact Clean.snoc hP (by simp [isPut]) (by simp [isPut]) rfl
  | drawFirst mean x =>
      exact (Clean.snoc hP (by simp [isPut]) (by simp [isPut]) rfl).fresh
  | restart hw =>
      apply resync_resetFrom hi 0
      intro hlt
      omega
  | halt =>
      unfold Stage.stopFrom
      split_ifs <;> trivial
  | stop j =>
      unfold Stage.stopFrom
      split_ifs <;> trivial
  | running => exact Fresh.snoc hP hi hn (by simp [isPut]) rfl hv
  | wait t => exact Fresh.snoc hP hi hn (by simp [isPut]) rfl hv
  | drawNext mean x => exact Fresh.snoc hP hi hn (by simp [isPut]) rfl hv
  | send j =>
      exact Fresh.snoc hP hi hn (by simp [isPut, Event.sendRequest, Event.reset]) rfl hv
  | size j k => exact Fresh.snoc hP hi hn (by simp [isPut]) rfl hv
  | changed w => exact Fresh.snoc hP hi hn (by simp [isPut]) rfl hv
  | again w => exact Fresh.snoc hP hi hn (by simp [isPut]) rfl hv
  | _ => trivial

theorem Op.IsForeign.isPut_eq_false {e : Event} (ho : o.IsForeign) (he : ¬ e.IsControl) :
    isPut i e (t, o) = false := by
  unfold isPut
  rw [decide_eq_false_iff_not]
  rintro rfl
  exact he (ho.1 i e rfl)

theorem reset_not_isControl : ¬ Event.reset.IsControl := by
  rintro (h | h) <;> cases h

theorem sendRequest_not_isControl : ¬ Event.sendRequest.IsControl := by
  rintro (h | h) <;> cases h

theorem Op.IsForeign.resync (ho : o.IsForeign) (ht : t ≠ .loop) (hi : i < n)
    (hv : v.step o = some v') (hn : NoticedPauses n (h ++ [(t, o)])) (hP : Resync i h g v) :
    Resync i (h ++ [(t, o)]) g v' := by
  have hreset := ho.isPut_eq_false (t := t) (i := i) reset_not_isControl
  have hsend := ho.isPut_eq_false (t := t) (i := i) sendRequest_not_isControl
  have hsees : seesNotRunning (t, o) = false := by
    unfold seesNotRunning
    split
    · rename_i he
      cases he
      exact absurd rfl ht
    · rfl
  cases g with
  | reset j => exact fun hlt => (hP hlt).snoc hreset hsend hsees
  | prepare => exact Clean.snoc hP hreset hsend hsees
  | check => exact Fresh.snoc hP hi hn hreset hsees hv
  | round => exact Fresh.snoc hP hi hn hreset hsees hv
  | settle => exact Fresh.snoc hP hi hn hreset hsees hv
  | _ => trivial

end invariant

/-! ### The runs -/

/-- Requests on a queue from before an effective pause and from after an effective resume
that follows it are separated by a `RESET`. -/
def Resynchronised (h : History) : Prop :=
  ∀ i h₀ t₀ h₁ t₁ h₂ t₂ h₃ t₃ h₄,
    h = h₀ ++ (t₀, Op.putMessage i .sendRequest) :: h₁ ++ (t₁, Op.casPaused true) :: h₂ ++
      (t₂, Op.casRunning true) :: h₃ ++ (t₃, Op.putMessage i .sendRequest) :: h₄ →
    ∃ t, (t, Op.putMessage i .reset) ∈ h₁ ++ h₂ ++ h₃

section runs
variable {ω ρ : Type} {S : Setup} {W : Workload ω ρ} {workload : ω} {clock : ℤ}
  {h : History} {s : System ω}

theorem Reaches.resync (hr : Reaches S W workload clock h s)
    (hn : NoticedPauses S.numberOfWorkers h) {i : ℕ} (hi : i < S.numberOfWorkers) :
    Resync i h (s.loc .loop).pc.stage s.mem.scheduler.state := by
  revert hn
  refine view_induction
    (P := fun h g v => NoticedPauses S.numberOfWorkers h → Resync i h g v) ?_ ?_ ?_ hr
  · exact fun _ => resync_resetFrom hi 0 fun hlt => by omega
  · intro h g v o g' v' hP hm hv hn
    exact hm.resync hi hv hn (hP hn.prefix)
  · intro h g v t o v' hP ht ho hv hn
    exact ho.resync ht hi hv hn (hP hn.prefix)

/-- A request that no `RESET` separates from a pause and a resume makes its queue stale. -/
theorem stale_of_split {i : ℕ} {t₀ t₁ t₂ : Tid} {h₀ h₁ h₂ h₃ : History}
    (hno : ∀ t, (t, Op.putMessage i .reset) ∉ h₁ ++ h₂ ++ h₃) :
    Stale i (h₀ ++ (t₀, Op.putMessage i .sendRequest) :: h₁ ++ (t₁, Op.casPaused true) :: h₂ ++
      (t₂, Op.casRunning true) :: h₃) := by
  have hno : ∀ a ∈ (t₀, Op.putMessage i .sendRequest) :: h₁ ++ (t₁, Op.casPaused true) :: h₂ ++
      (t₂, Op.casRunning true) :: h₃, isPut i .reset a = false := by
    rintro ⟨t, o⟩ ha
    unfold isPut
    rw [decide_eq_false_iff_not]
    rintro rfl
    apply hno t
    simpa [Event.reset, Event.sendRequest, or_assoc] using ha
  unfold Stale sinceReset
  rw [List.append_assoc, List.append_assoc, ← List.append_assoc _ _ ((t₂, _) :: h₃),
    sinceLast_append_of_forall _ hno, List.append_assoc]
  refine inOrder_append_left ?_ _
  have hresume : inOrder [isResume] ((t₂, Op.casRunning true) :: h₃) = true :=
    inOrder_split (by simp [isResume]) [] (inOrder_nil _)
  have hpause : inOrder [isPause, isResume]
      (h₁ ++ (t₁, Op.casPaused true) :: (h₂ ++ (t₂, Op.casRunning true) :: h₃)) = true :=
    inOrder_split (by simp [isPause]) h₁ (inOrder_append_left hresume h₂)
  simpa using inOrder_split (p := isPut i .sendRequest) (by simp [isPut]) [] hpause

/-- **Re-synchronisation after a pause**: in a run in which every pause is noticed, the
requests before a pause and after the resume that follows it are separated by a `RESET`. -/
theorem resynchronised_of_noticedPauses (hr : Reaches S W workload clock h s)
    (hn : NoticedPauses S.numberOfWorkers h) : Resynchronised h := by
  rintro i h₀ t₀ h₁ t₁ h₂ t₂ h₃ t₃ h₄ rfl
  by_contra hno
  rw [not_exists] at hno
  obtain ⟨u, u', hu, hstep, -⟩ := Lts.run_split _ hr
  have hi : i < S.numberOfWorkers := (Scheduler.putMessage_iff.mp (step_scheduler hstep)).1
  have hresync := Reaches.resync hu hn.prefix hi
  rcases Reaches.step_cases hu hstep with ⟨-, hm⟩ | ⟨-, -, ho⟩
  · rw [hm.stage_of_send] at hresync
    exact hresync.notStale (stale_of_split hno)
  · exact sendRequest_not_isControl (ho.1 i _ rfl)

end runs

/-- A pause and a resume between two looks of the loop at `state_`. -/
def unnoticedPause : History :=
  opening ++ round 2 ++
    ([(.client 0, .begin .pause), (.client 0, .casPaused true), (.client 0, .ret {}),
      (.client 0, .begin .resume), (.client 0, .casRunning true),
      (.client 0, .loadState .running), (.client 0, .ret { flag := some true })] : History) ++
    round 3

/-- The pause goes unnoticed, and the requests on both sides of it are not separated. -/
theorem resume_unnoticed :
    ∃ s, Reaches (defaults 1) constantWorkload () 1 unnoticedPause s ∧
      ¬ Resynchronised unnoticedPause := by
  have hrun : ((system (defaults 1) constantWorkload).run (start (defaults 1) () 1)
      unnoticedPause).isSome = true := by
    decide +kernel
  obtain ⟨s, hr⟩ := Option.isSome_iff_exists.mp hrun
  refine ⟨s, hr, fun hR => ?_⟩
  obtain ⟨t, ht⟩ := hR 0 (opening ++ (round 2).take 6) .loop
    ((round 2).drop 7 ++ [(Tid.client 0, Op.begin .pause)]) (.client 0)
    [(.client 0, .ret {}), (.client 0, .begin .resume)] (.client 0)
    (([(.client 0, .loadState .running), (.client 0, .ret { flag := some true })] : History) ++
      (round 3).take 6) .loop ((round 3).drop 7) rfl
  simp [round, Event.reset] at ht

/-- A pause that the loop sees before the resume. -/
def noticedPause : History :=
  opening ++ round 2 ++
    ([(.client 0, .begin .pause), (.client 0, .casPaused true), (.client 0, .ret {}),
      (.loop, .loadState .paused),
      (.client 0, .begin .resume), (.client 0, .casRunning true),
      (.client 0, .loadState .running), (.client 0, .ret { flag := some true }),
      (.loop, .loadState .running), (.loop, .loadState .running)] : History) ++
    opening ++ round 4

theorem resynchronised_of_noticedPauses_one_worker :
    (∃ s, Reaches (defaults 1) constantWorkload () 1 noticedPause s) ∧
      NoticedPauses 1 noticedPause ∧ Resynchronised noticedPause := by
  have hrun : ((system (defaults 1) constantWorkload).run (start (defaults 1) () 1)
      noticedPause).isSome = true := by
    decide +kernel
  obtain ⟨s, hr⟩ := Option.isSome_iff_exists.mp hrun
  have hn : NoticedPauses 1 noticedPause := by decide +kernel
  exact ⟨⟨s, hr⟩, hn, resynchronised_of_noticedPauses hr hn⟩

end Treadmill
