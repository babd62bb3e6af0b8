import Mathlib.Data.Rat.Floor
import Treadmill.Steps

/-! # The rate

How `rps_` reaches the intervals that the loop draws.  The loop keeps two locals, `rps` and
`interval_ns`, and refreshes them at two places: at the start of a stretch and, when it finds
the rate changed, at the end of a round (`Pc.computes`).

* Nothing on the way checks the rate.  The arithmetic of the loop is sound exactly as long as
  the rate that it reads is positive (`pacingSound_iff_positiveRates`).
* A new rate is picked up after at most two more draws and is never lost
  (`last_rate_picked_up`). -/

namespace Treadmill

/-! ### The conversion to `int64_t` -/

theorem truncate_of_nonneg {q : ℚ} (hq : 0 ≤ q) : truncate q = ⌊q⌋ := by
  rw [truncate, Rat.floor_def', Int.tdiv_eq_ediv_of_nonneg (Rat.num_nonneg.mpr hq)]

theorem truncate_neg (q : ℚ) : truncate (-q) = -truncate q := by
  rw [truncate, truncate, Rat.neg_num, Rat.neg_den, Int.neg_tdiv]

theorem abs_truncate_sub_lt (q : ℚ) : |(truncate q : ℚ) - q| < 1 := by
  have hnonneg : ∀ p : ℚ, 0 ≤ p → |(truncate p : ℚ) - p| < 1 := by
    intro p hp
    have h1 := Int.floor_le p
    have h2 := Int.lt_floor_add_one p
    rw [truncate_of_nonneg hp, abs_lt]
    constructor <;> linarith
  rcases le_total 0 q with hq | hq
  · exact hnonneg q hq
  · have h := hnonneg (-q) (by linarith)
    rw [truncate_neg, Int.cast_neg] at h
    rw [← abs_neg]
    have he : -((truncate q : ℚ) - q) = -(truncate q : ℚ) - -q := by ring
    rwa [he]

theorem truncate_nonneg {q : ℚ} (hq : 0 ≤ q) : 0 ≤ truncate q := by
  rw [truncate_of_nonneg hq]
  exact Int.floor_nonneg.mpr hq

theorem truncate_mono {p q : ℚ} (hp : 0 ≤ p) (hpq : p ≤ q) : truncate p ≤ truncate q := by
  rw [truncate_of_nonneg hp, truncate_of_nonneg (hp.trans hpq)]
  exact Int.floor_mono hpq

/-! ### The mean interval -/

/-- The mean interval is the quotient truncated toward zero. -/
theorem meanInterval_eq_tdiv (rps : Int32) : meanInterval rps = kNsPerS.tdiv rps.toInt := by
  have hpos : ∀ d : ℕ, truncate (1 / ((d : ℤ) : ℚ) * kNsPerS) = kNsPerS.tdiv d := by
    intro d
    have hk : (0 : ℚ) ≤ kNsPerS := by
      rw [kNsPerS]
      norm_num
    rw [truncate_of_nonneg (by positivity), one_div_mul_eq_div, Int.cast_natCast,
      Rat.floor_intCast_div_natCast, Int.tdiv_eq_ediv_of_nonneg (by decide)]
  rw [meanInterval]
  obtain ⟨d, hd | hd⟩ := rps.toInt.eq_nat_or_neg
  · rw [hd]
    exact hpos d
  · have he : 1 / ((-(d : ℤ) : ℤ) : ℚ) * kNsPerS = -(1 / ((d : ℤ) : ℚ) * kNsPerS) := by
      rw [Int.cast_neg, div_neg, neg_mul]
    rw [hd, he, truncate_neg, hpos, Int.tdiv_neg]

/-- The mean interval of a rate is usable: the division is defined, no interval is negative,
and no higher rate has a longer one. -/
structure SoundMean (rps : Int32) (intervalNs : ℤ) : Prop where
  divisor : rps.toInt ≠ 0
  nonneg : 0 ≤ intervalNs
  antitone : ∀ higher : Int32, rps.toInt < higher.toInt → meanInterval higher ≤ intervalNs

theorem meanInterval_one : meanInterval 1 = 1000000000 := by
  decide +kernel

theorem meanInterval_nonneg {rps : Int32} (hr : 0 ≤ rps.toInt) : 0 ≤ meanInterval rps := by
  have hq : (0 : ℚ) ≤ rps.toInt := by exact_mod_cast hr
  apply truncate_nonneg
  rw [kNsPerS]
  positivity

theorem meanInterval_nonpos {rps : Int32} (hr : rps.toInt ≤ 0) : meanInterval rps ≤ 0 := by
  have hq : (0 : ℚ) ≤ -(rps.toInt : ℚ) := by
    rw [Left.nonneg_neg_iff]
    exact_mod_cast hr
  have h := truncate_nonneg (q := 1 / -(rps.toInt : ℚ) * kNsPerS) (by
    rw [kNsPerS]
    positivity)
  have he : 1 / -(rps.toInt : ℚ) * kNsPerS = -(1 / (rps.toInt : ℚ) * kNsPerS) := by
    rw [div_neg, neg_mul]
  rw [he, truncate_neg] at h
  rw [meanInterval]
  omega

/-- **The mean interval is usable exactly for a positive rate.** -/
theorem soundMean_iff (rps : Int32) : SoundMean rps (meanInterval rps) ↔ 0 < rps.toInt := by
  constructor
  · intro hs
    by_contra hr
    have hone := hs.antitone 1 (by
      have := hs.divisor
      rw [show (1 : Int32).toInt = 1 from rfl]
      omega)
    rw [meanInterval_one] at hone
    have hnonpos : meanInterval rps ≤ 0 := meanInterval_nonpos (by omega)
    omega
  · intro hr
    refine ⟨by omega, meanInterval_nonneg hr.le, fun higher hlt => ?_⟩
    have hq : (0 : ℚ) < rps.toInt := by exact_mod_cast hr
    have hle : (rps.toInt : ℚ) ≤ higher.toInt := by exact_mod_cast hlt.le
    have hk : (0 : ℚ) ≤ kNsPerS := by
      rw [kNsPerS]
      norm_num
    refine truncate_mono ?_ ?_
    · have := hq.trans_le hle
      positivity
    · gcongr

/-! ### The rate in force -/

/-- What an operation does to `rps_`. -/
def Op.rate (v : UInt32) : Op → UInt32
  | .storeRps v' => v'
  | _ => v

/-- The value of `rps_` after a history: the rate at the start, or the last one set. -/
def rateInForce (S : Setup) (h : History) : UInt32 :=
  h.foldl (fun v a => a.2.rate v) S.requestPerSecond.toUInt32

theorem Scheduler.access_rps {S : Setup} {s s' : Scheduler} {o : Op}
    (h : s.access S o = some s') : s'.rps = o.rate s.rps := by
  cases o with
  | putMessage i e =>
      obtain ⟨-, rfl⟩ := putMessage_iff.mp h
      rfl
  | work i inp terminates =>
      cases inp with
      | message e env =>
          obtain ⟨-, rfl⟩ := takeMessage_iff.mp h
          rfl
      | completion c =>
          cases h
          rfl
      | stop =>
          cases h
          rfl
  | _ =>
      simp only [access] at h
      first
        | cases h; rfl
        | split_ifs at h <;> cases h <;> rfl

/-- The loop computes `interval_ns` from what it reads here. -/
def Pc.computes : Pc → Bool
  | .loadRps | .reloadRps => true
  | _ => false

namespace Loop

variable {S : Setup} {l l' : Loop} {o : Op}

theorem step_interval (h : l.step S o = some l') :
    (l.pc.computes = true ∧ ∃ v, o = .loadRps v ∧ l'.rps = v.toInt32 ∧
      l'.intervalNs = meanInterval v.toInt32) ∨
    (l.pc.computes = false ∧ l'.rps = l.rps ∧ l'.intervalNs = l.intervalNs) := by
  cases step_iff.mp h with
  | loadRps hpc v => exact Or.inl ⟨by rw [hpc]; rfl, v, rfl, rfl, rfl⟩
  | reloadRps hpc v => exact Or.inl ⟨by rw [hpc]; rfl, v, rfl, rfl, rfl⟩
  | _ hpc => exact Or.inr ⟨by rw [hpc]; rfl, rfl, rfl⟩

theorem step_draw {mean : ℤ} {x : ℚ} (h : l.step S (.draw mean x) = some l') :
    ((l.pc = .drawFirst ∧ l'.pc = .checkRunning) ∨ (l.pc = .drawNext ∧ l'.pc = .put)) ∧
      mean = l.intervalNs ∧ 0 ≤ x := by
  cases step_iff.mp h with
  | drawFirst hpc hx => exact ⟨Or.inl ⟨hpc, rfl⟩, rfl, hx⟩
  | drawNext hpc hx => exact ⟨Or.inr ⟨hpc, rfl⟩, rfl, hx⟩

end Loop

section system
variable {ω ρ : Type} {S : Setup} {W : Workload ω ρ} {workload : ω} {clock : ℤ}
  {h : History} {s s' : System ω} {t : Tid} {o : Op}

theorem step_rps (hs : (system S W).step s (t, o) = some s') :
    s'.mem.scheduler.rps = o.rate s.mem.scheduler.rps :=
  Scheduler.access_rps (step_scheduler hs)

theorem Reaches.rps (hr : Reaches S W workload clock h s) :
    s.mem.scheduler.rps = rateInForce S h :=
  Lts.run_foldl (m := system S W) (fun s => s.mem.scheduler.rps) (fun v a => a.2.rate v)
    (fun _ a _ hs => step_rps (t := a.1) (o := a.2) hs) hr

theorem step_loadRps {v : UInt32} (hs : (system S W).step s (t, .loadRps v) = some s') :
    v = s.mem.scheduler.rps := by
  have hacc := step_scheduler hs
  simp only [Scheduler.access] at hacc
  split_ifs at hacc with hv
  exact hv.symm

/-- Outside the loop's own steps, and where the loop does not compute it, `interval_ns` stays
what it is. -/
theorem step_interval (hs : (system S W).step s (t, o) = some s') :
    (t = .loop ∧ (s.loc .loop).pc.computes = true ∧
      (s'.loc .loop).rps = s.mem.scheduler.rps.toInt32 ∧
      (s'.loc .loop).intervalNs = meanInterval s.mem.scheduler.rps.toInt32) ∨
    ((t = .loop → (s.loc .loop).pc.computes = false) ∧
      (s'.loc .loop).rps = (s.loc .loop).rps ∧
      (s'.loc .loop).intervalNs = (s.loc .loop).intervalNs) := by
  by_cases ht : t = .loop
  · subst ht
    rcases Loop.step_interval (Threads.step_loc hs) with ⟨hpc, v, rfl, hrps, hint⟩ |
      ⟨hpc, hrps, hint⟩
    · obtain rfl := step_loadRps hs
      exact Or.inl ⟨rfl, hpc, hrps, hint⟩
    · exact Or.inr ⟨fun _ => hpc, hrps, hint⟩
  · rw [Threads.step_frame hs (Ne.symm ht)]
    exact Or.inr ⟨fun he => absurd he ht, rfl, rfl⟩

/-- **`interval_ns` is the mean interval of the loop's `rps`.** -/
theorem Reaches.intervalNs (hr : Reaches S W workload clock h s) :
    (s.loc .loop).intervalNs = meanInterval (s.loc .loop).rps := by
  refine Lts.invariant (m := system S W)
    (P := fun s => (s.loc .loop).intervalNs = meanInterval (s.loc .loop).rps) ?_ ?_ hr
  · rintro s ⟨t, o⟩ s' hs hstep
    rcases step_interval hstep with ⟨-, -, hrps, hint⟩ | ⟨-, hrps, hint⟩
    · rw [hint, hrps]
    · rw [hint, hrps, hs]
  · show (0 : ℤ) = meanInterval 0
    decide +kernel

/-! ### Rates that the loop can use -/

/-- `P` holds of the rate in force and the loop afterwards whenever the loop computes
`interval_ns`. -/
def Computations (S : Setup) (W : Workload ω ρ) (workload : ω) (clock : ℤ) (h : History)
    (P : UInt32 → Loop → Prop) : Prop :=
  ∀ h₁ o h₂ s s', h = h₁ ++ (Tid.loop, o) :: h₂ → Reaches S W workload clock h₁ s →
    (s.loc .loop).pc.computes = true → (system S W).step s (.loop, o) = some s' →
    P (rateInForce S h₁) (s'.loc .loop)

/-- Every computation of `interval_ns` divides by a rate that is not zero and gives a usable
mean, and no interval drawn is negative. -/
def PacingSound (S : Setup) (W : Workload ω ρ) (workload : ω) (clock : ℤ) (h : History) :
    Prop :=
  Computations S W workload clock h (fun _ l => SoundMean l.rps l.intervalNs) ∧
    ∀ mean x, (Tid.loop, Op.draw mean x) ∈ h → 0 ≤ randomExponentialInterval mean x

/-- Whenever the loop computes `interval_ns`, the rate in force is positive as an
`int32_t`. -/
def PositiveRates (S : Setup) (W : Workload ω ρ) (workload : ω) (clock : ℤ) (h : History) :
    Prop :=
  Computations S W workload clock h (fun v _ => 0 < v.toInt32.toInt)

theorem Computations.prefix {P : UInt32 → Loop → Prop} {k : History}
    (hc : Computations S W workload clock (h ++ k) P) : Computations S W workload clock h P := by
  rintro h₁ o h₂ s s' rfl
  exact hc h₁ o (h₂ ++ k) s s' (by simp)

theorem intervals_nonneg (hr : Reaches S W workload clock h s) :
    PositiveRates S W workload clock h →
      0 ≤ (s.loc .loop).intervalNs ∧
        ∀ mean x, (Tid.loop, Op.draw mean x) ∈ h → 0 ≤ randomExponentialInterval mean x := by
  refine Lts.history_induction (P := fun h (s : System ω) => PositiveRates S W workload clock h →
    0 ≤ (s.loc .loop).intervalNs ∧ ∀ mean x, (Tid.loop, Op.draw mean x) ∈ h →
      0 ≤ randomExponentialInterval mean x) ?_ ?_ hr
  · intro _
    exact ⟨le_refl (0 : ℤ), by simp⟩
  · rintro h s ⟨t, o⟩ s' hr ih hs hpos
    obtain ⟨hint, hdraws⟩ := ih hpos.prefix
    refine ⟨?_, fun mean x hm => ?_⟩
    · rcases step_interval hs with ⟨rfl, hpc, -, hnew⟩ | ⟨-, -, hsame⟩
      · have hrate := hpos h o [] s s' rfl hr hpc hs
        rw [hnew, Reaches.rps hr]
        exact meanInterval_nonneg hrate.le
      · rw [hsame]
        exact hint
    · rcases List.mem_append.mp hm with hm | hm
      · exact hdraws mean x hm
      · obtain ⟨rfl, rfl⟩ := Prod.mk.inj (List.mem_singleton.mp hm)
        obtain ⟨-, rfl, hx⟩ := Loop.step_draw (Threads.step_loc hs)
        exact mul_nonneg hx (by exact_mod_cast hint)

/-- **The arithmetic of the loop is sound exactly in the runs with positive rates.** -/
theorem pacingSound_iff_positiveRates (hr : Reaches S W workload clock h s) :
    PacingSound S W workload clock h ↔ PositiveRates S W workload clock h := by
  have hmean : ∀ {h₁ : History} {o : Op} {s s' : System ω}, Reaches S W workload clock h₁ s →
      (s.loc .loop).pc.computes = true → (system S W).step s (.loop, o) = some s' →
      (SoundMean (s'.loc .loop).rps (s'.loc .loop).intervalNs ↔
        0 < (rateInForce S h₁).toInt32.toInt) := by
    intro h₁ o s s' hr₁ hpc hs
    rcases step_interval hs with ⟨-, -, hrps, hint⟩ | ⟨hnot, -⟩
    · rw [hrps, hint, Reaches.rps hr₁]
      exact soundMean_iff _
    · rw [hnot rfl] at hpc
      cases hpc
  constructor
  · intro hsound h₁ o h₂ u u' he hu hpc hs
    exact (hmean hu hpc hs).mp (hsound.1 h₁ o h₂ u u' he hu hpc hs)
  · intro hpos
    refine ⟨fun h₁ o h₂ u u' he hu hpc hs => ?_, (intervals_nonneg hr hpos).2⟩
    exact (hmean hu hpc hs).mpr (hpos h₁ o h₂ u u' he hu hpc hs)

theorem rateInForce_cases (S : Setup) (h : History) :
    rateInForce S h = S.requestPerSecond.toUInt32 ∨
      ∃ t, (t, Op.storeRps (rateInForce S h)) ∈ h := by
  induction h using List.reverseRecOn with
  | nil => exact Or.inl rfl
  | append_singleton h a ih =>
      obtain ⟨t, o⟩ := a
      have hsnoc : rateInForce S (h ++ [(t, o)]) = o.rate (rateInForce S h) := by
        simp [rateInForce]
      rw [hsnoc]
      have hold : rateInForce S h = S.requestPerSecond.toUInt32 ∨
          ∃ t', (t', Op.storeRps (rateInForce S h)) ∈ h ++ [(t, o)] :=
        ih.imp_right fun ⟨t', ht'⟩ => ⟨t', List.mem_append_left _ ht'⟩
      cases o with
      | storeRps v => exact Or.inr ⟨t, by simp [Op.rate]⟩
      | _ => exact hold

theorem positiveRates_of_forall (h0 : 0 < S.requestPerSecond.toInt)
    (hset : ∀ t v, (t, Op.storeRps v) ∈ h → 0 < v.toInt32.toInt) :
    PositiveRates S W workload clock h := by
  rintro h₁ o h₂ s s' rfl - - -
  rcases rateInForce_cases S h₁ with hv | ⟨t, ht⟩
  · rw [hv, Int32.toInt32_toUInt32]
    exact h0
  · exact hset t _ (List.mem_append_left _ ht)

/-- Every rate that the loop has read, and the one that it would read next, is positive: it
divides by no zero, and its waits end. -/
structure Paced (S : Setup) (W : Workload ω ρ) (workload : ω) (clock : ℤ) (h : History) :
    Prop where
  read : PositiveRates S W workload clock h
  next : 0 < (rateInForce S h).toInt32.toInt

theorem Paced.of_forall (h0 : 0 < S.requestPerSecond.toInt)
    (hset : ∀ t v, (t, Op.storeRps v) ∈ h → 0 < v.toInt32.toInt) :
    Paced S W workload clock h := by
  refine ⟨positiveRates_of_forall h0 hset, ?_⟩
  rcases rateInForce_cases S h with hv | ⟨t, ht⟩
  · rw [hv, Int32.toInt32_toUInt32]
    exact h0
  · exact hset t _ ht

theorem rateInForce_append {k : History} (hk : ∀ t v, (t, Op.storeRps v) ∉ k) :
    rateInForce S (h ++ k) = rateInForce S h := by
  induction k using List.reverseRecOn with
  | nil => rw [List.append_nil]
  | append_singleton k a ih =>
      obtain ⟨t, o⟩ := a
      have ih := ih fun t' v hm => hk t' v (List.mem_append_left _ hm)
      rw [← List.append_assoc, ← ih]
      have hrate : o.rate (rateInForce S (h ++ k)) = rateInForce S (h ++ k) := by
        cases o with
        | storeRps v => exact absurd (List.mem_append_right _ (List.mem_singleton_self _)) (hk t v)
        | _ => rfl
      simpa [rateInForce] using hrate

theorem Paced.append {k : History} (hp : Paced S W workload clock h)
    (hk : ∀ t v, (t, Op.storeRps v) ∉ k) : Paced S W workload clock (h ++ k) := by
  constructor
  · intro h₁ o h₂ s s' he hr hpc hs
    rcases append_eq_append_cons he with ⟨m, hm, -⟩ | ⟨m, hm, rfl⟩
    · exact hp.read h₁ o m s s' hm hr hpc hs
    · rw [rateInForce_append fun t v hmem => hk t v (hm ▸ List.mem_append_left _ hmem)]
      exact hp.next
  · rw [rateInForce_append hk]
    exact hp.next

theorem pacingSound_iff_positiveRates_one_worker :
    PacingSound (defaults 1) constantWorkload () 1 (opening ++ round 2) := by
  have hrun : ((system (defaults 1) constantWorkload).run (start (defaults 1) () 1)
      (opening ++ round 2)).isSome = true := by
    decide +kernel
  obtain ⟨s, hr⟩ := Option.isSome_iff_exists.mp hrun
  apply (pacingSound_iff_positiveRates (s := s) hr).mpr
  apply positiveRates_of_forall (by decide)
  intro t v hm
  simp [opening, round] at hm

/-- A client sets the rate to `-1`. -/
def negativeRate : History :=
  opening ++
    [(Tid.client 0, Op.begin (.rpc (.setRps (-1)))), (Tid.client 0, Op.watchdogUpdate 1000),
      (Tid.client 0, Op.storeRps 4294967295), (Tid.client 0, Op.ret {})] ++
    (round 2).dropLast ++
    [(Tid.loop, Op.loadRps 4294967295), (Tid.loop, Op.loadRps 4294967295),
      (Tid.loop, Op.loadState .running), (Tid.loop, Op.nowNs 1), (Tid.loop, Op.nowNs 1),
      (Tid.loop, Op.nowNs 1), (Tid.loop, Op.nowNs 1), (Tid.loop, Op.draw (-1000000000) 1)]

theorem negative_rate_draws_negative :
    ∃ s, Reaches (defaults 1) constantWorkload () 1 negativeRate s ∧
      (s.loc .loop).budget = -1000000000 ∧
      ¬ PacingSound (defaults 1) constantWorkload () 1 negativeRate := by
  have hrun : ((system (defaults 1) constantWorkload).run (start (defaults 1) () 1)
      negativeRate).any (fun s => decide ((s.loc .loop).budget = -1000000000)) = true := by
    decide +kernel
  obtain ⟨s, hr, hs⟩ := (Option.any_eq_true _ _).mp hrun
  refine ⟨s, hr, of_decide_eq_true hs, fun hsound => ?_⟩
  have hdraw := hsound.2 (-1000000000) 1 (by simp [negativeRate])
  norm_num [randomExponentialInterval] at hdraw

end system

/-! ### A rate that is set -/

/-- How many draws may follow a control point before the rate is read again. -/
def Pc.lag : Pc → ℕ
  | .drawFirst => 2
  | .checkRunning | .readB | .waitStart | .waiting _ | .readA | .drawNext => 1
  | _ => 0

namespace Loop

variable {S : Setup} {l l' : Loop} {o : Op} {v : UInt32}

/-- How many draws may still use another mean than that of the rate in force. -/
def lag (rps : Int32) (l : Loop) : ℕ := if l.rps = rps then 0 else l.pc.lag

theorem lag_of_eq {rps : Int32} (hl : l.rps = rps) : l.lag rps = 0 := if_pos hl

theorem lag_of_ne {rps : Int32} (hl : l.rps ≠ rps) : l.lag rps = l.pc.lag := if_neg hl

theorem lag_le (rps : Int32) (l : Loop) : l.lag rps ≤ l.pc.lag := by
  unfold lag
  split_ifs
  · exact Nat.zero_le _
  · exact le_refl _

/-- Only a computation, or a comparison that finds the rate unchanged, lets more draws
follow. -/
theorem step_pc_lag (h : l.step S o = some l') :
    l.pc.computes = true ∨ (∃ v, l.pc = .compareRps ∧ o = .loadRps v ∧ l.rps.toUInt32 = v) ∨
      l'.pc.lag ≤ l.pc.lag := by
  cases step_iff.mp h with
  | loadRps hpc v =>
      rw [hpc]
      exact Or.inl rfl
  | reloadRps hpc v =>
      rw [hpc]
      exact Or.inl rfl
  | unchanged hpc => exact Or.inr (Or.inl ⟨_, hpc, rfl, rfl⟩)
  | _ hpc =>
      rw [hpc]
      refine Or.inr (Or.inr ?_)
      try simp only [resetFrom, stopFrom, afterSize]
      try split_ifs
      all_goals simp [Pc.lag]

theorem step_lag (h : l.step S o = some l') (hv : ∀ v', o = .loadRps v' → v' = v) :
    l'.lag v.toInt32 ≤ l.lag v.toInt32 := by
  by_cases hl : l.rps = v.toInt32
  · have hrps : l'.rps = v.toInt32 := by
      rcases step_interval h with ⟨-, v', ho, hrps, -⟩ | ⟨-, hrps, -⟩
      · rw [hrps, hv v' ho]
      · rw [hrps, hl]
    rw [lag_of_eq hrps]
    exact Nat.zero_le _
  · rw [lag_of_ne hl]
    rcases step_pc_lag h with hpc | ⟨v', -, ho, hsame⟩ | hle
    · rcases step_interval h with ⟨-, v', ho, hrps, -⟩ | ⟨hnot, -⟩
      · rw [lag_of_eq (by rw [hrps, hv v' ho])]
        exact Nat.zero_le _
      · rw [hpc] at hnot
        cases hnot
    · -- a rate that is out of date differs from the one read
      rw [hv v' ho] at hsame
      exact absurd (by rw [← hsame, Int32.toInt32_toUInt32]) hl
    · exact (lag_le _ _).trans hle

theorem draw_lag {mean : ℤ} {x : ℚ} (h : l.step S (.draw mean x) = some l')
    (hint : l.intervalNs = meanInterval l.rps) :
    l'.lag v.toInt32 < l.lag v.toInt32 ∨
      (l.lag v.toInt32 = 0 ∧ mean = meanInterval v.toInt32) := by
  obtain ⟨hpc, rfl, -⟩ := step_draw h
  by_cases hl : l.rps = v.toInt32
  · exact Or.inr ⟨lag_of_eq hl, by rw [hint, hl]⟩
  · left
    rw [lag_of_ne hl]
    apply (lag_le _ _).trans_lt
    rcases hpc with ⟨hpc, hpc'⟩ | ⟨hpc, hpc'⟩
    · rw [hpc, hpc']
      decide
    · rw [hpc, hpc']
      decide

end Loop

/-- The mean of an interval that the loop draws. -/
def drawn : Tid × Op → Option ℤ
  | (.loop, .draw mean _) => some mean
  | _ => none

/-- The means of the intervals drawn, in order. -/
def draws (h : History) : List ℤ := h.filterMap drawn

section system
variable {ω ρ : Type} {S : Setup} {W : Workload ω ρ} {workload : ω} {clock : ℤ}
  {h₁ h₂ : History} {s s' : System ω} {t : Tid} {o : Op} {v : UInt32}

/-- `rps_` is `v`, and `interval_ns` is the mean interval of the loop's `rps`. -/
structure Rated (v : UInt32) (s : System ω) : Prop where
  rps : s.mem.scheduler.rps = v
  intervalNs : (s.loc .loop).intervalNs = meanInterval (s.loc .loop).rps

/-- While the rate is not set, the loop catches up with it. -/
theorem Rated.step (hs : Rated v s) (ho : ∀ v', o ≠ .storeRps v')
    (hstep : (system S W).step s (t, o) = some s') :
    Rated v s' ∧ (s'.loc .loop).lag v.toInt32 ≤ (s.loc .loop).lag v.toInt32 ∧
      ∀ mean, drawn (t, o) = some mean →
        (s'.loc .loop).lag v.toInt32 < (s.loc .loop).lag v.toInt32 ∨
          ((s.loc .loop).lag v.toInt32 = 0 ∧ mean = meanInterval v.toInt32) := by
  have hrate : o.rate s.mem.scheduler.rps = s.mem.scheduler.rps := by
    cases o with
    | storeRps v' => exact absurd rfl (ho v')
    | _ => rfl
  have hrated : Rated v s' := by
    refine ⟨by rw [step_rps hstep, hrate, hs.rps], ?_⟩
    rcases step_interval hstep with ⟨-, -, hrps, hint⟩ | ⟨-, hrps, hint⟩
    · rw [hint, hrps]
    · rw [hint, hrps, hs.intervalNs]
  refine ⟨hrated, ?_⟩
  cases t with
  | loop =>
      have hloc := Threads.step_loc hstep
      refine ⟨Loop.step_lag hloc fun v' ho' => ?_, fun mean hmean => ?_⟩
      · subst ho'
        rw [step_loadRps hstep, hs.rps]
      · cases o with
        | draw mean' x =>
            obtain rfl := Option.some.inj hmean
            exact Loop.draw_lag hloc hs.intervalNs
        | _ => cases hmean
  | client k =>
      rw [Threads.step_frame hstep (show Tid.loop ≠ .client k by simp)]
      exact ⟨le_refl _, fun mean hmean => by cases hmean⟩
  | worker i =>
      rw [Threads.step_frame hstep (show Tid.loop ≠ .worker i by simp)]
      exact ⟨le_refl _, fun mean hmean => by cases hmean⟩

/-- **A rate is picked up and never lost.**  After the last rate that is set, at most two
intervals are drawn from another mean, before all those that use its own; and at every draw
`interval_ns` is the mean of the loop's `rps`. -/
theorem last_rate_picked_up {rps : Int32}
    (hr : Reaches S W workload clock (h₁ ++ (t, .storeRps rps.toUInt32) :: h₂) s)
    (hlast : ∀ t' v', (t', Op.storeRps v') ∉ h₂) :
    (∃ stale rest, draws h₂ = stale ++ rest ∧ stale.length ≤ 2 ∧
      ∀ mean ∈ rest, mean = (1000000000 : ℤ).tdiv rps.toInt) ∧
    ∀ k₁ mean x k₂ u, h₁ ++ (t, .storeRps rps.toUInt32) :: h₂ = k₁ ++ (.loop, .draw mean x) :: k₂ →
      Reaches S W workload clock k₁ u →
      mean = (u.loc .loop).intervalNs ∧
        mean = (1000000000 : ℤ).tdiv (u.loc .loop).rps.toInt := by
  refine ⟨?_, ?_⟩
  · obtain ⟨u, u', hu, hstep, hrest⟩ := (system S W).run_split hr
    have hr' : Reaches S W workload clock (h₁ ++ [(t, .storeRps rps.toUInt32)]) u' :=
      (system S W).run_snoc_iff.mpr ⟨u, hu, hstep⟩
    have hrated : Rated rps.toUInt32 u' := ⟨step_rps hstep, Reaches.intervalNs hr'⟩
    obtain ⟨stale, rest, hsplit, hlen, hgood⟩ := (system S W).filterMap_split
      (Q := fun a => ∀ v', a.2 ≠ .storeRps v') drawn
      (fun s => (s.loc .loop).lag rps.toUInt32.toInt32)
      (fun _ a _ hs ho hstep => Rated.step (t := a.1) (o := a.2) hs ho hstep) hrated
      (fun a ha v' he => hlast a.1 v' (he ▸ ha)) hrest
    refine ⟨stale, rest, hsplit, hlen.trans ?_, fun mean hm => ?_⟩
    · apply (Loop.lag_le _ _).trans
      cases (u'.loc .loop).pc <;> simp [Pc.lag]
    · have hmean := hgood mean hm
      rw [Int32.toInt32_toUInt32, meanInterval_eq_tdiv] at hmean
      exact hmean
  · intro k₁ mean x k₂ u he hu
    rw [he] at hr
    obtain ⟨u₁, u', hu₁, hstep, -⟩ := (system S W).run_split hr
    obtain rfl := Option.some.inj (hu₁.symm.trans hu)
    obtain ⟨-, hmean, -⟩ := Loop.step_draw (Threads.step_loc hstep)
    refine ⟨hmean, ?_⟩
    rw [hmean, Reaches.intervalNs hu, meanInterval_eq_tdiv, kNsPerS]

/-- What the loop does after a client has doubled the rate behind its first read: two more
draws from the old mean, then one from the new. -/
def afterDoubling : History :=
  [(Tid.client 0, Op.ret {}), (Tid.loop, Op.draw 976562 0)] ++ (round 2).dropLast ++
    [(Tid.loop, Op.loadRps 2048), (Tid.loop, Op.loadRps 2048)] ++ (round 3).take 5 ++
    [(Tid.loop, Op.draw 488281 0)]

theorem last_rate_picked_up_doubled :
    ∃ stale rest, draws afterDoubling = stale ++ rest ∧ stale.length ≤ 2 ∧
      ∀ mean ∈ rest, mean = (1000000000 : ℤ).tdiv (Int32.toInt 2048) := by
  have hrun : ((system (defaults 1) constantWorkload).run (start (defaults 1) () 1)
      (opening.take 2 ++ [(Tid.client 0, Op.begin (.setRps 2048))] ++
        (Tid.client 0, Op.storeRps (Int32.toUInt32 2048)) :: afterDoubling)).isSome = true := by
    decide +kernel
  obtain ⟨s, hr⟩ := Option.isSome_iff_exists.mp hrun
  refine (last_rate_picked_up hr fun t v hm => ?_).1
  simp [afterDoubling, round] at hm

end system

end Treadmill
