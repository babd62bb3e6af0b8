import Treadmill.Steps

/-! # Pausing and stopping take effect within one message

A stretch of a run in which `state_` is never `RUNNING`: the loop is inside a round at most
once, because only a check that finds `RUNNING` starts one.  The potential is `1` in a
round; its `SEND_REQUEST` spends it.  `RoundOpen` ties the round to the check that started
it, which lies before the stretch. -/

namespace Treadmill

variable {ω ρ : Type} {S : Setup} {W : Workload ω ρ} {workload : ω} {clock : ℤ}

/-- The loop puts a `SEND_REQUEST`. -/
def isSend (a : Tid × Op) : Bool :=
  match a with
  | (.loop, .putMessage _ e) => e = .sendRequest
  | _ => false

/-- The scheduler does not run. -/
def NotRunning (s : System ω) : Prop := s.mem.scheduler.state ≠ .running

instance : DecidablePred (NotRunning (ω := ω)) :=
  fun s => inferInstanceAs (Decidable (s.mem.scheduler.state ≠ .running))

/-- What is left to send without another check. -/
def pending (s : System ω) : ℕ := if (s.loc .loop).pc.stage = .round then 1 else 0

theorem pending_le (s : System ω) : pending s ≤ 1 := by
  unfold pending
  split_ifs <;> omega

/-- A step while the scheduler does not run starts no round, and a `SEND_REQUEST` ends
one. -/
theorem pending_step {s s' : System ω} {a : Tid × Op} (hs : NotRunning s)
    (h : (system S W).step s a = some s') :
    (if isSend a then 1 else 0) + pending s' ≤ pending s := by
  obtain ⟨t, o⟩ := a
  by_cases ht : t = .loop
  · subst ht
    have hm := Loop.moves (Threads.step_loc h)
    have hv := step_runState h
    unfold pending
    generalize (s.loc .loop).pc.stage = g at hm
    generalize (s'.loc .loop).pc.stage = g' at hm
    cases hm with
    | running => exact absurd (RunState.step_loadState hv).1.symm hs
    | send i => simp [isSend]
    | reset i =>
        unfold Stage.resetFrom
        split_ifs <;> simp_all [isSend, Event.reset, Event.sendRequest]
    | restart hv =>
        unfold Stage.resetFrom
        split_ifs <;> simp_all [isSend]
    | stop i =>
        unfold Stage.stopFrom
        split_ifs <;> simp_all [isSend, Event.stop, Event.sendRequest]
    | halt =>
        unfold Stage.stopFrom
        split_ifs <;> simp_all [isSend]
    | _ => simp [isSend]
  · have hl := Threads.step_frame h (Ne.symm ht)
    have hsend : isSend (t, o) = false := by
      unfold isSend
      split
      · rename_i he
        cases he
        exact absurd rfl ht
      · rfl
    simp [pending, hl, hsend]

/-! ### The check that a round belongs to -/

/-- The last thing the loop did, up to waiting and drawing, is to find `RUNNING`. -/
def RoundOpen (h : History) : Prop :=
  ∃ h₀ h₁, h = h₀ ++ (Tid.loop, Op.loadState .running) :: h₁ ∧
    ∀ o, (.loop, o) ∈ h₁ → (∀ v, o ≠ .loadState v) ∧ ∀ i e, o ≠ .putMessage i e

theorem RoundOpen.snoc {h : History} (hh : RoundOpen h) {t : Tid} {o : Op}
    (ho : t = .loop → (∀ v, o ≠ .loadState v) ∧ ∀ i e, o ≠ .putMessage i e) :
    RoundOpen (h ++ [(t, o)]) := by
  obtain ⟨h₀, h₁, rfl, h1⟩ := hh
  refine ⟨h₀, h₁ ++ [(t, o)], by simp, fun o' hm => ?_⟩
  rcases List.mem_append.mp hm with hm | hm
  · exact h1 o' hm
  · cases List.mem_singleton.mp hm
    exact ho rfl

theorem Moves.roundOpen {n : ℕ} {g g' : Stage} {o : Op} {h : History} (hm : Moves n g o g')
    (hh : g = .round → RoundOpen h) (hg : g' = .round) : RoundOpen (h ++ [(Tid.loop, o)]) := by
  subst hg
  rcases hm.to_round with rfl | ⟨hg, ⟨t, rfl⟩ | ⟨mean, x, rfl⟩⟩
  · exact ⟨h, [], rfl, by simp⟩
  · exact (hh hg).snoc fun _ => by simp
  · exact (hh hg).snoc fun _ => by simp

theorem Reaches.roundOpen {h : History} {s : System ω} (hr : Reaches S W workload clock h s)
    (hg : (s.loc .loop).pc.stage = .round) : RoundOpen h := by
  revert hg
  refine view_induction (P := fun h g _ => g = .round → RoundOpen h) ?_ ?_ ?_ hr
  · intro hg
    unfold Stage.resetFrom at hg
    split_ifs at hg
  · intro h g v o g' v' hP hm _
    exact hm.roundOpen hP
  · intro h g v t o v' hP ht _ _ hg
    exact (hP hg).snoc fun he => absurd he ht

theorem notMem_of_throughout {s s' : System ω} {t : Tid} {k : History}
    (hP : (system S W).Throughout NotRunning s k) (hr : (system S W).run s k = some s') :
    (t, .loadState .running) ∉ k := by
  intro hm
  obtain ⟨k₁, k₂, rfl⟩ := List.append_of_mem hm
  obtain ⟨u, u', hu, hstep, -⟩ := Lts.run_split _ hr
  exact Lts.Throughout.of_run _ hP hu (RunState.step_loadState (step_runState hstep)).1.symm

/-- **Pausing and stopping take effect within one message**: during a stretch in which
`state_` is never `RUNNING` the loop puts at most one `SEND_REQUEST`, and the check it
belongs to, the loop's last look at `state_`, was made before the stretch. -/
theorem at_most_one_send_while_not_running {h k : History} {s s' : System ω}
    (hr : Reaches S W workload clock h s) (hk : (system S W).run s k = some s')
    (hP : (system S W).Throughout NotRunning s k) :
    k.countP isSend ≤ 1 ∧
    ∀ k₁ i k₂, k = k₁ ++ (Tid.loop, Op.putMessage i .sendRequest) :: k₂ →
      ∃ h₀ h₁, h = h₀ ++ (Tid.loop, Op.loadState .running) :: h₁ ∧
        ∀ o, (.loop, o) ∈ h₁ ++ k₁ → (∀ v, o ≠ .loadState v) ∧ ∀ i e, o ≠ .putMessage i e := by
  constructor
  · have hc := Lts.countP_le _ isSend pending (fun t a u => pending_step) hP hk
    have := pending_le s
    omega
  · rintro k₁ i k₂ rfl
    obtain ⟨u, u', hu, hstep, -⟩ := Lts.run_split _ hk
    have hround : RoundOpen (h ++ k₁) :=
      Reaches.roundOpen ((Lts.run_append_iff _).mpr ⟨s, hr, hu⟩)
        (Loop.moves (Threads.step_loc hstep)).stage_of_send
    have hnot : (Tid.loop, Op.loadState .running) ∉ k₁ :=
      fun hm => notMem_of_throughout hP hk (List.mem_append_left _ hm)
    obtain ⟨h₀, h₁, he, h1⟩ := hround
    rcases append_eq_append_cons he with ⟨g, hh, hg⟩ | ⟨g, hg, -⟩
    · exact ⟨h₀, g, hh, hg ▸ h1⟩
    · exact absurd (by simp [hg]) hnot

/-- A pause that lands in a round, and the rest of the loop's round. -/
def pauseInRound : History :=
  opening ++ (round 2).take 4 ++
    ([(.client 0, .begin .pause), (.client 0, .casPaused true)] : History)

def restOfRound : History := (round 2).drop 4 ++ [(Tid.loop, Op.loadState .paused)]

theorem at_most_one_send_while_not_running_one_worker :
    ∃ s s', Reaches (defaults 1) constantWorkload () 1 pauseInRound s ∧
      (system (defaults 1) constantWorkload).run s restOfRound = some s' ∧
      restOfRound.countP isSend ≤ 1 := by
  have hrun : ((system (defaults 1) constantWorkload).run (start (defaults 1) () 1)
      pauseInRound).any (fun s =>
        decide ((system (defaults 1) constantWorkload).Throughout NotRunning s restOfRound) &&
          ((system (defaults 1) constantWorkload).run s restOfRound).isSome) = true := by
    decide +kernel
  obtain ⟨s, hr, hs⟩ := (Option.any_eq_true _ _).mp hrun
  rw [Bool.and_eq_true] at hs
  obtain ⟨s', hk⟩ := Option.isSome_iff_exists.mp hs.2
  exact ⟨s, s', hr, hk,
    (at_most_one_send_while_not_running hr hk (of_decide_eq_true hs.1)).1⟩

end Treadmill
