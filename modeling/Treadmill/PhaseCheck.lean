import Treadmill.Steps

/-! # The check of `setPhase`

With `wait_for_runner_ready` set, `Scheduler::setPhase` ends the process unless it finds the
scheduler paused, and `resume2` calls it whatever the scheduler does.  Since a `pause` leaves
a scheduler that has not been stopped paused and a `resume` leaves it running, whether the
check holds is decided by the order of the pauses, resumes and stops before it
(`Reaches.runState`), and a `resume2` that is sent twice fails it (`repeated_resume2_aborts`). -/

namespace Treadmill

/-! ### The run state by its history -/

/-- The compare-exchange of a `pause`, whether or not it takes effect. -/
def triesPause : Tid × Op → Bool
  | (_, .casPaused _) => true
  | _ => false

/-- The compare-exchange of a `resume`, whether or not it takes effect. -/
def triesResume : Tid × Op → Bool
  | (_, .casRunning _) => true
  | _ => false

/-- The check of `setPhase`. -/
def isCheck : Tid × Op → Bool
  | (_, .checkPaused _) => true
  | _ => false

theorem check_of_isCheck {t : Tid} {o : Op} (h : isCheck (t, o) = true) :
    ∃ ok, o = .checkPaused ok := by
  unfold isCheck at h
  split at h
  · rename_i ok he
    cases he
    exact ⟨ok, rfl⟩
  · cases h

/-- Nobody has resumed the scheduler since the last pause (or the start). -/
def pausedLast (h : History) : Bool := !(sinceLast triesPause h).any triesResume

/-- Nobody has stopped the scheduler. -/
def neverStopped (h : History) : Bool := !h.any fun a => a.2 = .storeStopping

section pausedLast
variable {h : History} {a : Tid × Op}

theorem pausedLast_snoc_of_pause (ha : triesPause a = true) : pausedLast (h ++ [a]) = true := by
  rw [pausedLast, sinceLast_snoc_of_pos h ha]
  rfl

theorem pausedLast_snoc_of_resume (ha : triesResume a = true) : pausedLast (h ++ [a]) = false := by
  have hp : triesPause a = false := by
    unfold triesResume at ha
    split at ha
    · rfl
    · cases ha
  rw [pausedLast, sinceLast_snoc_of_neg h hp]
  simp [ha]

theorem pausedLast_snoc (hp : triesPause a = false) (hr : triesResume a = false) :
    pausedLast (h ++ [a]) = pausedLast h := by
  rw [pausedLast, pausedLast, sinceLast_snoc_of_neg h hp]
  simp [hr]

theorem neverStopped_snoc (h : History) (a : Tid × Op) :
    neverStopped (h ++ [a]) = (neverStopped h && !decide (a.2 = .storeStopping)) := by
  simp [neverStopped]

end pausedLast

/-- The run state of a scheduler that waits for the runner, after a history. -/
def runState (h : History) : RunState :=
  if neverStopped h = false then .stopping
  else if pausedLast h then .paused
  else .running

theorem runState_eq_paused {h : History} :
    runState h = .paused ↔ neverStopped h = true ∧ pausedLast h = true := by
  unfold runState
  split_ifs with hs hp
  · simp [hs]
  · simp [hp, Bool.not_eq_false _ ▸ hs]
  · simp [hp]

theorem runState_step {h : History} {t : Tid} {o : Op} {v : RunState}
    (hs : (runState h).step o = some v) : v = runState (h ++ [(t, o)]) := by
  have hstop := neverStopped_snoc h (t, o)
  cases o with
  | casPaused took =>
      rw [runState, hstop, pausedLast_snoc_of_pause rfl]
      simp only [RunState.step, runState] at hs
      split_ifs at hs <;> simp_all
  | casRunning took =>
      rw [runState, hstop, pausedLast_snoc_of_resume rfl]
      simp only [RunState.step, runState] at hs
      split_ifs at hs <;> simp_all
  | storeStopping =>
      rw [runState, hstop]
      cases hs
      simp
  | _ =>
      have hv : v = runState h := by
        rcases RunState.step_eq_or hs with hv | ⟨ho, -⟩ | ⟨ho, -⟩ | ⟨ho, -⟩
        · exact hv
        all_goals cases ho
      rw [hv, runState, runState, hstop, pausedLast_snoc rfl rfl]
      simp

/-! ### Who checks -/

/-- Without the flag, no step of a call is the check. -/
theorem Call.body_checkPaused {S : Setup} (hflag : S.waitForRunnerReady = false) (c : Call) :
    Act.checkPaused ∉ c.body S := by
  have hphase : ∀ phaseName, Act.checkPaused ∉ Scheduler.setPhase S phaseName := by
    intro phaseName
    simp [Scheduler.setPhase, Scheduler.messageAllWorkers, hflag]
  cases c with
  | setPhase phaseName => exact hphase phaseName
  | rpc r =>
      cases r with
      | resume2 req =>
          simp [body, Rpc.body, TreadmillFB303.futureResume2, hphase, Scheduler.resume]
      | resume =>
          simp only [body, Rpc.body, TreadmillFB303.resume]
          split_ifs <;> simp [Scheduler.resume]
      | _ =>
          simp [body, Rpc.body, TreadmillFB303.pause, Scheduler.pause, TreadmillFB303.setRps,
            Scheduler.setRps, TreadmillFB303.setMaxOutstanding,
            Scheduler.setMaxOutstandingRequests, TreadmillFB303.futureGetRate,
            Scheduler.isRunning, Scheduler.getRps, Scheduler.getMaxOutstandingRequests,
            TreadmillFB303.futureGetConfiguration, TreadmillFB303.setConfiguration,
            TreadmillFB303.clearConfiguration]
  | _ =>
      simp [body, Scheduler.pause, Scheduler.resume, Scheduler.isRunning,
        Scheduler.getMaxOutstandingRequests, Scheduler.setMaxOutstandingRequests,
        Scheduler.stop, Scheduler.join, Scheduler.getRps, Scheduler.setRps]

section runs
variable {ω ρ : Type} {S : Setup} {W : Workload ω ρ} {workload : ω} {clock : ℤ}
  {h : History} {s s' : System ω} {t : Tid} {ok : Bool}

/-- The run state is decided by the order of the pauses, resumes and stops. -/
theorem Reaches.runState (hflag : S.waitForRunnerReady = true)
    (hr : Reaches S W workload clock h s) : s.mem.scheduler.state = runState h := by
  refine Lts.history_induction
    (P := fun h s => s.mem.scheduler.state = Treadmill.runState h) ?_ ?_ hr
  · simp [start, Scheduler.new, hflag, Treadmill.runState, neverStopped, pausedLast]
  · rintro h s ⟨t, o⟩ s' - ih hs
    have hv := step_runState hs
    rw [ih] at hv
    exact runState_step hv

theorem Reaches.no_checkPaused (hflag : S.waitForRunnerReady = false)
    (hr : Reaches S W workload clock h s) (k : ℕ) :
    ∀ a ∈ (s.loc (.client k)).todo, a ≠ .checkPaused := by
  refine Threads.loc_invariant (i := .client k)
    (P := fun c : Frame => ∀ a ∈ c.todo, a ≠ .checkPaused) ?_ (by simp [start, Frame.idle]) hr
  intro c o c' hc hs
  refine Frame.step_todo ?_ ?_ hc hs
  · rintro call a ha rfl
    exact call.body_checkPaused hflag ha
  · rintro a r acts r' - hp b hb rfl
    rcases Act.perform_acts hp with rfl | ⟨v, -, -, rfl⟩ | ⟨-, -, rfl⟩
    · cases hb
    · simp [Scheduler.messageAllWorkers] at hb
    · simp [Scheduler.resume] at hb

theorem Reaches.checkPaused (hr : Reaches S W workload clock h s)
    (hs : (system S W).step s (t, .checkPaused ok) = some s') :
    S.waitForRunnerReady = true ∧
      (ok = true ↔ neverStopped h = true ∧ pausedLast h = true) := by
  obtain ⟨k, rfl⟩ := client_of_isClient rfl hs
  have hflag : S.waitForRunnerReady = true := by
    by_contra hflag
    obtain ⟨a, acts, r, ha, hp⟩ := Frame.step_perform (Threads.step_loc hs) (by simp) (by simp)
    have hcheck : a = .checkPaused := by cases a <;> simp [Act.perform] at hp ⊢
    exact Reaches.no_checkPaused (by simpa using hflag) hr k a ha hcheck
  refine ⟨hflag, ?_⟩
  have hok := RunState.step_checkPaused (step_runState hs)
  rw [Reaches.runState hflag hr] at hok
  rw [hok, decide_eq_true_iff, runState_eq_paused]

/-! ### Checks that hold -/

/-- No check of `setPhase` has failed. -/
def ChecksHold (h : History) : Prop := ∀ t, (t, .checkPaused false) ∉ h

/-- Whenever a call comes to the check, nobody has stopped the scheduler and nobody has resumed
it since the last pause. -/
def CheckedWhilePaused (h : History) : Prop :=
  Always (fun h₁ a => isCheck a = true → neverStopped h₁ = true ∧ pausedLast h₁ = true) h

instance : DecidablePred CheckedWhilePaused := fun h => by
  unfold CheckedWhilePaused
  infer_instance

/-- **Remote control and the check of `setPhase`**: in a run, the check never fails exactly
when every call comes to it while the scheduler has neither been stopped nor been resumed
since the last pause. -/
theorem checksHold_iff_checkedWhilePaused (hr : Reaches S W workload clock h s) :
    ChecksHold h ↔ CheckedWhilePaused h := by
  constructor
  · rintro hall h₁ ⟨t, o⟩ h₂ rfl hcheck
    obtain ⟨u, u', hu, hs, -⟩ := Lts.run_split _ hr
    obtain ⟨ok, rfl⟩ := check_of_isCheck hcheck
    have hok : ok = true := by
      by_contra hok
      obtain rfl := Bool.not_eq_true _ ▸ hok
      exact hall t (by simp)
    exact (Reaches.checkPaused hu hs).2.mp hok
  · intro hpaused t hmem
    obtain ⟨h₁, h₂, rfl⟩ := List.append_of_mem hmem
    obtain ⟨u, u', hu, hs, -⟩ := Lts.run_split _ hr
    have := (Reaches.checkPaused hu hs).2.mpr (hpaused h₁ _ h₂ rfl rfl)
    cases this

end runs

/-- One worker that waits for the runner. -/
def waitingSetup : Setup := { defaults 1 with waitForRunnerReady := true }

/-- A `resume2` from client `k` that finds the scheduler paused. -/
def resume2By (k : ℕ) : History :=
  [(.client k, .begin (.rpc (.resume2 (some "p")))), (.client k, .watchdogUpdate 1000),
    (.client k, .checkPaused true), (.client k, .putMessage 0 (Event.setPhase "p")),
    (.client k, .casRunning true), (.client k, .loadState .running),
    (.client k, .ret { flag := some true })]

/-- The client does not get the answer and sends the call again. -/
def repeatedResume2 : History :=
  resume2By 0 ++
    ([(.client 1, .begin (.rpc (.resume2 (some "p")))), (.client 1, .watchdogUpdate 1001),
      (.client 1, .checkPaused false)] : History)

/-- A `resume2` that is sent twice ends the process. -/
theorem repeated_resume2_aborts :
    ∃ s, Reaches waitingSetup constantWorkload () 1 repeatedResume2 s ∧
      s.mem.aborted = true ∧ ¬ ChecksHold repeatedResume2 := by
  have hrun : ((system waitingSetup constantWorkload).run (start waitingSetup () 1)
      repeatedResume2).any (fun s => s.mem.aborted) = true := by
    decide +kernel
  obtain ⟨s, hr, haborted⟩ := (Option.any_eq_true _ _).mp hrun
  refine ⟨s, hr, haborted, fun hall => hall (.client 1) ?_⟩
  simp [repeatedResume2]

/-- A pause between two calls of `resume2`. -/
def pausedBetween : History :=
  resume2By 0 ++
    ([(.client 0, .begin (.rpc .pause)), (.client 0, .casPaused true),
      (.client 0, .disarmWatchdog), (.client 0, .ret { flag := some true })] : History) ++
    resume2By 1

theorem checksHold_iff_checkedWhilePaused_paused_between :
    ∃ s, Reaches waitingSetup constantWorkload () 1 pausedBetween s ∧
      ChecksHold pausedBetween := by
  have hrun : ((system waitingSetup constantWorkload).run (start waitingSetup () 1)
      pausedBetween).isSome = true := by
    decide +kernel
  obtain ⟨s, hr⟩ := Option.isSome_iff_exists.mp hrun
  exact ⟨s, hr, (checksHold_iff_checkedWhilePaused hr).mpr (by decide +kernel)⟩

end Treadmill
