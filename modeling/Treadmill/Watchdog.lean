import Treadmill.Steps

/-! # The watchdog

`watchdogTimeoutCheck` reports a timeout when `lastHeartbeat_` is more than
`watchdogDurationSec_` seconds old.  `watchdogUpdate` refreshes `lastHeartbeat_` only when
the duration is already positive, so a contact that arrives while the watchdog is disarmed
is not heard; the `setConfiguration` that arms it is one (`arming_call_not_heard`).

`watchdogDuration` follows the duration through a history, `Heard` are the contacts that
refresh, and `Covered` is the condition under which a check is sound. -/

namespace Treadmill

/-! ### The history of the watchdog -/

/-- The times at which an RPC that performs `watchdogUpdate` arrived. -/
def contacts (h : History) : List ℤ :=
  h.filterMap fun a => match a.2 with | .watchdogUpdate now => some now | _ => none

/-- `watchdogDurationSec_` after a history. -/
def watchdogDuration (S : Setup) (h : History) : UInt32 :=
  h.foldl (fun d a => a.2.duration S d) 0

/-- A contact arrived at this time when the watchdog was armed. -/
def Heard (S : Setup) (h : History) (t : ℤ) : Prop :=
  ∃ h₁ i h₂, h = h₁ ++ (i, Op.watchdogUpdate t) :: h₂ ∧ 0 < watchdogDuration S h₁

/-- A timeout that is reported at `now` means that no contact arrived within the duration. -/
def WatchdogSound (S : Setup) (h : History) (f : TreadmillFB303) (now : ℤ) : Prop :=
  f.watchdogTimeoutCheck S now = true →
    ∀ t ∈ contacts h, t < now - f.watchdogDurationSec.toNat

/-- If the watchdog is armed and some contact arrived within the duration, then so did one
that found the watchdog armed (or the epoch lies within it). -/
def Covered (S : Setup) (h : History) (now : ℤ) : Prop :=
  0 < watchdogDuration S h →
    (∃ t ∈ contacts h, now - (watchdogDuration S h).toNat ≤ t) →
      ∃ t, (t = 0 ∨ Heard S h t) ∧ now - (watchdogDuration S h).toNat ≤ t

section history
variable {S : Setup} {h : History} {a : Tid × Op} {i : Tid} {t : ℤ}

theorem contacts_snoc_update (h : History) (i : Tid) (t : ℤ) :
    contacts (h ++ [(i, Op.watchdogUpdate t)]) = contacts h ++ [t] := by
  simp [contacts]

theorem Heard.snoc (ht : Heard S h t) (a : Tid × Op) : Heard S (h ++ [a]) t := by
  obtain ⟨h₁, i, h₂, rfl, hd⟩ := ht
  exact ⟨h₁, i, h₂ ++ [a], by simp, hd⟩

theorem heard_snoc_iff : Heard S (h ++ [a]) t ↔
    Heard S h t ∨ (a.2 = .watchdogUpdate t ∧ 0 < watchdogDuration S h) := by
  constructor
  · rintro ⟨h₁, i, h₂, he, hd⟩
    rcases append_eq_append_cons he with ⟨m, hm, -⟩ | ⟨m, hm, rfl⟩
    · exact Or.inl ⟨h₁, i, m, hm, hd⟩
    · rcases List.singleton_eq_append_iff.mp hm with ⟨rfl, ha⟩ | ⟨-, ha⟩
      · cases ha
        rw [List.append_nil] at hd
        exact Or.inr ⟨rfl, hd⟩
      · cases ha
  · rintro (ht | ⟨ha, hd⟩)
    · exact ht.snoc a
    · exact ⟨h, a.1, [], by rw [← ha], hd⟩

theorem mem_contacts_of_heard (ht : Heard S h t) : t ∈ contacts h := by
  obtain ⟨h₁, i, h₂, rfl, -⟩ := ht
  simp [contacts]

end history

/-! ### The invariant -/

section runs
variable {ω ρ : Type} {S : Setup} {W : Workload ω ρ} {workload : ω} {clock : ℤ}
  {h : History} {s s' : System ω} {i : Tid} {o : Op}

theorem step_fb303 (hs : (system S W).step s (i, o) = some s') :
    s.mem.fb303.access S i o = some s'.mem.fb303 :=
  (Memory.access_iff.mp (step_access hs)).2.2.1

theorem Reaches.watchdogDuration (hr : Reaches S W workload clock h s) :
    s.mem.fb303.watchdogDurationSec = watchdogDuration S h := by
  refine Lts.run_foldl (f := fun s : System ω => s.mem.fb303.watchdogDurationSec)
    (g := fun d a => a.2.duration S d) ?_ hr
  rintro s ⟨i, o⟩ s' hs
  exact (TreadmillFB303.access_spec (step_fb303 hs)).watchdogDurationSec

/-- The clock readings of the RPCs do not go back. -/
def Chronological (h : History) : Prop := (0 :: contacts h).Pairwise (· ≤ ·)

theorem Chronological.prefix {a : Tid × Op} (hc : Chronological (h ++ [a])) :
    Chronological h := by
  unfold Chronological contacts at hc ⊢
  rw [List.filterMap_append, ← List.cons_append] at hc
  exact (List.pairwise_append.mp hc).1

theorem Chronological.last {t : ℤ} (hc : Chronological (h ++ [(i, Op.watchdogUpdate t)])) :
    0 ≤ t ∧ ∀ t' ∈ contacts h, t' ≤ t := by
  unfold Chronological at hc
  rw [contacts_snoc_update, ← List.cons_append, List.pairwise_append] at hc
  have hle := hc.2.2
  exact ⟨hle 0 (by simp) t (by simp), fun t' ht' => hle t' (by simp [ht']) t (by simp)⟩

/-- `lastHeartbeat_` is the last contact that was heard. -/
structure LastHeard (S : Setup) (h : History) (last : ℤ) : Prop where
  nonneg : 0 ≤ last
  heard : last = 0 ∨ Heard S h last
  latest : ∀ t, Heard S h t → t ≤ last

theorem Reaches.lastHeard (hflag : S.enableWatchdogTimer = true)
    (hr : Reaches S W workload clock h s) (hc : Chronological h) :
    LastHeard S h s.mem.fb303.lastHeartbeat := by
  revert hc
  refine Lts.history_induction
    (P := fun h s => Chronological h → LastHeard S h s.mem.fb303.lastHeartbeat) ?_ ?_ hr
  · intro _
    refine ⟨le_refl 0, Or.inl rfl, fun t ht => ?_⟩
    have := mem_contacts_of_heard ht
    simp [contacts] at this
  · rintro h s ⟨i, o⟩ s' hr ih hs hc
    have ih := ih hc.prefix
    have hd := Reaches.watchdogDuration hr
    have hf := step_fb303 hs
    by_cases ho : ∃ t, o = .watchdogUpdate t
    · obtain ⟨t, rfl⟩ := ho
      obtain ⟨h0, hle⟩ := hc.last
      have hstep : s'.mem.fb303 = s.mem.fb303.watchdogUpdate S t := (Option.some.inj hf).symm
      rw [hstep]
      unfold TreadmillFB303.watchdogUpdate
      rw [hd]
      split_ifs with harmed
      · refine ⟨h0, Or.inr (heard_snoc_iff.mpr (Or.inr ⟨rfl, harmed.2⟩)), fun t' ht' => ?_⟩
        rcases heard_snoc_iff.mp ht' with ht' | ⟨ht', -⟩
        · exact hle t' (mem_contacts_of_heard ht')
        · cases ht'
          exact le_refl _
      · refine ⟨ih.nonneg, ih.heard.imp_right fun h1 => h1.snoc _, fun t' ht' => ?_⟩
        rcases heard_snoc_iff.mp ht' with ht' | ⟨-, hpos⟩
        · exact ih.latest t' ht'
        · exact absurd ⟨hflag, hpos⟩ harmed
    · have hlast : s'.mem.fb303.lastHeartbeat = s.mem.fb303.lastHeartbeat := by
        rcases (TreadmillFB303.access_spec hf).lastHeartbeat with hl | ⟨t, rfl, -⟩
        · exact hl
        · exact absurd ⟨t, rfl⟩ ho
      rw [hlast]
      refine ⟨ih.nonneg, ih.heard.imp_right fun h1 => h1.snoc _, fun t' ht' => ?_⟩
      rcases heard_snoc_iff.mp ht' with ht' | ⟨ht', -⟩
      · exact ih.latest t' ht'
      · exact absurd ⟨t', ht'⟩ ho

/-- **Soundness of the watchdog**: with the watchdog enabled, a check at `now` is sound
exactly when the contacts of the last `watchdogDurationSec_` seconds, if there are any,
include one that found the watchdog armed. -/
theorem watchdogSound_iff_covered (hflag : S.enableWatchdogTimer = true)
    (hr : Reaches S W workload clock h s) (hc : Chronological h) (now : ℤ) :
    WatchdogSound S h s.mem.fb303 now ↔ Covered S h now := by
  have hd := hr.watchdogDuration
  have hl := hr.lastHeard hflag hc
  have hcheck : s.mem.fb303.watchdogTimeoutCheck S now = true ↔
      0 < watchdogDuration S h ∧
        s.mem.fb303.lastHeartbeat < now - (watchdogDuration S h).toNat := by
    unfold TreadmillFB303.watchdogTimeoutCheck
    rw [hd]
    by_cases hpos : 0 < watchdogDuration S h
    · simp [hflag, hpos]
    · simp [hpos]
  unfold WatchdogSound Covered
  rw [hcheck, hd]
  constructor
  · rintro hsound hpos ⟨t, ht, hrecent⟩
    refine ⟨s.mem.fb303.lastHeartbeat, hl.heard, ?_⟩
    by_contra hlt
    have := hsound ⟨hpos, by omega⟩ t ht
    omega
  · rintro hcov ⟨hpos, hlt⟩ t ht
    by_contra hrecent
    obtain ⟨t', ht', hrecent'⟩ := hcov hpos ⟨t, ht, by omega⟩
    have hle : t' ≤ s.mem.fb303.lastHeartbeat := by
      rcases ht' with rfl | ht'
      · exact hl.nonneg
      · exact hl.latest t' ht'
    omega

end runs

/-- One worker, with the watchdog enabled. -/
def watched : Setup := { defaults 1 with enableWatchdogTimer := true }

/-- The call that arms the watchdog for ten seconds, at time `1000`. -/
def armingCall : History :=
  [(.client 0, .begin (.rpc (.setConfiguration "watchdog_sec" "10"))),
    (.client 0, .watchdogUpdate 1000), (.client 0, .lock),
    (.client 0, .insertOrAssign "watchdog_sec" "10"),
    (.client 0, .armWatchdog "watchdog_sec" "10"), (.client 0, .unlock), (.client 0, .ret {})]

/-- One second after the call that arms it, the watchdog reports a timeout. -/
theorem arming_call_not_heard :
    ∃ s, Reaches watched constantWorkload () 1 armingCall s ∧ Chronological armingCall ∧
      ¬ WatchdogSound watched armingCall s.mem.fb303 1001 := by
  have hrun : ((system watched constantWorkload).run (start watched () 1) armingCall).any
      (fun s => s.mem.fb303.watchdogTimeoutCheck watched 1001) = true := by
    decide +kernel
  obtain ⟨s, hr, hcheck⟩ := (Option.any_eq_true _ _).mp hrun
  refine ⟨s, hr, by simp [Chronological, contacts, armingCall], fun hsound => ?_⟩
  have hlt := hsound hcheck 1000 (by simp [contacts, armingCall])
  have hd : s.mem.fb303.watchdogDurationSec = 10 := by
    rw [Reaches.watchdogDuration hr]
    decide +kernel
  rw [hd] at hlt
  revert hlt
  decide

/-- A second call, five seconds later, is heard. -/
def armedAndHeard : History :=
  armingCall ++
    ([(.client 1, .begin (.rpc (.setRps 100))), (.client 1, .watchdogUpdate 1005),
      (.client 1, .storeRps 100), (.client 1, .ret {})] : History)

theorem watchdogSound_iff_covered_armed :
    ∃ s, Reaches watched constantWorkload () 1 armedAndHeard s ∧
      WatchdogSound watched armedAndHeard s.mem.fb303 1012 := by
  have hrun : ((system watched constantWorkload).run (start watched () 1)
      armedAndHeard).isSome = true := by
    decide +kernel
  obtain ⟨s, hr⟩ := Option.isSome_iff_exists.mp hrun
  have hc : Chronological armedAndHeard := by
    simp [Chronological, contacts, armedAndHeard, armingCall]
  refine ⟨s, hr, (watchdogSound_iff_covered rfl hr hc 1012).mpr fun _ _ => ?_⟩
  refine ⟨1005, Or.inr ⟨armingCall ++ [(Tid.client 1, Op.begin (.rpc (.setRps 100)))], .client 1,
    [(.client 1, .storeRps 100), (.client 1, .ret {})], rfl, by decide +kernel⟩, ?_⟩
  have hd : watchdogDuration watched armedAndHeard = 10 := by decide +kernel
  rw [hd]
  decide

end Treadmill
