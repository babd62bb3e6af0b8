import Mathlib.Data.Nat.Log
import Treadmill.RoundRobin

/-! # The overload log

After each put, the loop compares the size of the queue with `logging_threshold_` times
`logged_[next_]`, logs a line when the size is larger, and doubles `logged_[next_]`.  The
product is computed in 64 bits (`Setup.limit`).

With a threshold of at least one, a line needs a size above the power of two that the factor
has become, so the lines grow with the logarithm of the size and the factor cannot reach
`2 ^ 64` as long as no queue holds more than `2 ^ 63` messages.  With fewer
`max_outstanding_requests` than workers the threshold is zero: every queue that is not empty
is overloaded by any factor, and after 64 lines the factor is zero (`backsOff_iff`). -/

namespace Treadmill

/-! ### The products -/

/-- `logging_threshold_`. -/
def Setup.loggingThreshold (S : Setup) : UInt64 :=
  S.maxOutstandingRequestsPerWorker.toUInt32.toUInt64

/-- The product that a size is compared with after `m` lines. -/
def Setup.limit (S : Setup) (m : ℕ) : ℕ := S.loggingThreshold.toNat * 2 ^ m % 2 ^ 64

section limit
variable {S : Setup}

theorem loggingThreshold_eq (hM : 0 ≤ S.maxOutstandingRequests.toInt) :
    S.loggingThreshold.toNat = S.maxOutstandingRequests.toInt.toNat / S.numberOfWorkers := by
  have hlt := S.maxOutstandingRequests.toInt_lt
  have hle : S.maxOutstandingRequests.toInt.toNat / S.numberOfWorkers ≤
      S.maxOutstandingRequests.toInt.toNat := Nat.div_le_self _ _
  have hdiv : S.maxOutstandingRequests.toInt.tdiv S.numberOfWorkers =
      (S.maxOutstandingRequests.toInt.toNat / S.numberOfWorkers : ℕ) := by
    rw [Int.tdiv_eq_ediv_of_nonneg hM, Int.natCast_div, Int.toNat_of_nonneg hM]
  rw [Setup.loggingThreshold, Setup.maxOutstandingRequestsPerWorker, hdiv]
  generalize S.maxOutstandingRequests.toInt.toNat / S.numberOfWorkers = T at hle
  have hint : (Int32.ofInt T).toInt = T := Int32.toInt_ofInt_of_le (by omega) (by omega)
  have hnonneg : (0 : Int32) ≤ Int32.ofInt T := by
    rw [Int32.le_iff_toInt_le, hint]
    exact Int.natCast_nonneg T
  rw [UInt32.toNat_toUInt64, Int32.toNat_toUInt32_of_le hnonneg, Int32.toNatClampNeg, hint,
    Int.toNat_natCast]

theorem limit_eq_zero (hT : S.loggingThreshold.toNat = 0) (m : ℕ) : S.limit m = 0 := by
  simp [Setup.limit, hT]

/-- Up to each of 64 lines, one of the products was as large as the factor has become: the
last one, or the last one that fits in 64 bits. -/
theorem two_pow_le_limit (hT : 0 < S.loggingThreshold.toNat) {k : ℕ} (hk : k < 64) :
    ∃ m ≤ k, 2 ^ k ≤ S.limit m := by
  have hlt := S.loggingThreshold.toNat_lt
  set T := S.loggingThreshold.toNat with hTdef
  have hlow : 2 ^ Nat.log 2 T ≤ T := Nat.pow_log_le_self 2 (by omega)
  have hhigh : T < 2 ^ (Nat.log 2 T + 1) := Nat.lt_pow_succ_log_self (by omega) T
  have hlog : Nat.log 2 T < 64 := Nat.log_lt_of_lt_pow (by omega) hlt
  -- the last product that fits
  have hfit : T * 2 ^ (63 - Nat.log 2 T) < 2 ^ 64 := by
    calc T * 2 ^ (63 - Nat.log 2 T)
        < 2 ^ (Nat.log 2 T + 1) * 2 ^ (63 - Nat.log 2 T) :=
          Nat.mul_lt_mul_of_pos_right hhigh (Nat.two_pow_pos _)
      _ = 2 ^ 64 := by rw [← pow_add]; congr 1; omega
  have hlast : 2 ^ 63 ≤ T * 2 ^ (63 - Nat.log 2 T) := by
    calc 2 ^ 63 = 2 ^ Nat.log 2 T * 2 ^ (63 - Nat.log 2 T) := by rw [← pow_add]; congr 1; omega
      _ ≤ T * 2 ^ (63 - Nat.log 2 T) := Nat.mul_le_mul_right _ hlow
  by_cases hle : k ≤ 63 - Nat.log 2 T
  · refine ⟨k, le_refl k, ?_⟩
    have hpow : T * 2 ^ k ≤ T * 2 ^ (63 - Nat.log 2 T) :=
      Nat.mul_le_mul_left _ (Nat.pow_le_pow_right (by omega) hle)
    rw [Setup.limit, ← hTdef, Nat.mod_eq_of_lt (by omega)]
    exact Nat.le_mul_of_pos_left _ hT
  · refine ⟨63 - Nat.log 2 T, by omega, ?_⟩
    rw [Setup.limit, ← hTdef, Nat.mod_eq_of_lt hfit]
    exact le_trans (Nat.pow_le_pow_right (by omega) (by omega)) hlast

end limit

/-! ### The lines -/

/-- A line of the overload log: the worker and the factor. -/
structure OverloadLine where
  worker : ℕ
  factor : UInt64
deriving DecidableEq, Repr

/-- The lines of a worker. -/
def linesOf (i : ℕ) (lines : List OverloadLine) : ℕ := lines.countP fun x => x.worker = i

/-- The sizes observed on queue `i`. -/
def observed (i : ℕ) (ops : List Op) : List ℕ :=
  ops.filterMap fun
    | .size j n => if j = i then some n else none
    | _ => none

/-- The largest size observed on queue `i`, or `0`. -/
def largest (i : ℕ) (ops : List Op) : ℕ := (observed i ops).foldl max 0

namespace Loop

/-- The queue of the last put is overloaded. -/
def Overloaded (S : Setup) (l : Loop) (size : ℕ) : Prop :=
  (S.loggingThreshold * l.logged l.next).toNat < size

instance (S : Setup) (l : Loop) (size : ℕ) : Decidable (l.Overloaded S size) :=
  inferInstanceAs (Decidable (_ < _))

/-- The lines logged by an operation of the loop. -/
def overloadLines (S : Setup) (l : Loop) (o : Op) : List OverloadLine :=
  match l.pc, o with
  | .size, .size _ n => if l.Overloaded S n then [⟨l.next, l.logged l.next⟩] else []
  | _, _ => []

/-- The loop, with its overload log. -/
def logging (S : Setup) : Lts (Loop × List OverloadLine) Op where
  step s o := (s.1.step S o).map fun l => (l, s.2 ++ s.1.overloadLines S o)

/-- The overload log of worker `i` backs off: the factor is a power of two, and there is at
most one line more than the logarithm of the largest size observed. -/
structure BacksOff (i : ℕ) (ops : List Op) (l : Loop) (lines : List OverloadLine) : Prop where
  factor : ∃ k, (l.logged i).toNat = 2 ^ k
  lines : linesOf i lines ≤ if largest i ops = 0 then 0 else Nat.log 2 (largest i ops) + 1

/-- The factor doubled with every line, and every line needed a larger size. -/
structure Doubled (S : Setup) (i : ℕ) (ops : List Op) (l : Loop) (lines : List OverloadLine) :
    Prop where
  factor : (l.logged i).toNat = 2 ^ linesOf i lines
  sizes : ∀ m < linesOf i lines, S.limit m < largest i ops

variable {S : Setup} {l l' : Loop} {o : Op} {i n B : ℕ} {ops : List Op}
  {lines : List OverloadLine}

theorem largest_size (j : ℕ) (ops : List Op) (n : ℕ) :
    largest i (ops ++ [.size j n]) =
      if j = i then max (largest i ops) n else largest i ops := by
  rw [largest, observed, List.filterMap_append]
  split_ifs with hj
  · subst hj
    simp [largest, observed]
  · simp [largest, observed, hj]

theorem largest_of_ne (ho : ∀ j n, o ≠ .size j n) : largest i (ops ++ [o]) = largest i ops := by
  rw [largest, observed, List.filterMap_append]
  cases o with
  | size j n => exact absurd rfl (ho j n)
  | _ => simp [largest, observed]

theorem largest_le (hB : ∀ j n, .size j n ∈ ops → n ≤ B) : largest i ops ≤ B := by
  induction ops using List.reverseRecOn with
  | nil => exact Nat.zero_le B
  | append_singleton ops o ih =>
      have hle := ih fun j n hm => hB j n (List.mem_append_left _ hm)
      by_cases ho : ∃ j n, o = .size j n
      · obtain ⟨j, n, rfl⟩ := ho
        rw [largest_size]
        split_ifs
        · exact max_le hle (hB j n (by simp))
        · exact hle
      · push Not at ho
        rw [largest_of_ne ho]
        exact hle

theorem logged_afterSize (l : Loop) (n : ℕ) :
    (l.afterSize S n).logged =
      if l.Overloaded S n then Function.update l.logged l.next (l.logged l.next * 2)
      else l.logged := rfl

theorem overloadLines_size (hpc : l.pc = .size) (j n : ℕ) :
    l.overloadLines S (.size j n) =
      if l.Overloaded S n then [⟨l.next, l.logged l.next⟩] else [] := by
  simp only [overloadLines, hpc]

theorem linesOf_append (i : ℕ) (lines added : List OverloadLine) :
    linesOf i (lines ++ added) = linesOf i lines + linesOf i added := List.countP_append

theorem step_logged (h : l.step S o = some l') (ho : ∀ j n, o ≠ .size j n) :
    l'.logged = l.logged ∧ l.overloadLines S o = [] := by
  cases step_iff.mp h with
  | size hpc n => exact absurd rfl (ho _ n)
  | _ hpc => exact ⟨rfl, by simp [overloadLines]⟩

theorem Doubled.overloaded_iff (hd : Doubled S l.next ops l lines) (n : ℕ) :
    l.Overloaded S n ↔ S.limit (linesOf l.next lines) < n := by
  rw [Overloaded, UInt64.toNat_mul, hd.factor, Setup.limit]

theorem toNat_double {x : UInt64} {k : ℕ} (hx : x.toNat = 2 ^ k) (hk : k + 1 < 64) :
    (x * 2).toNat = 2 ^ (k + 1) := by
  have hlt : (2 : ℕ) ^ (k + 1) < 2 ^ 64 := Nat.pow_lt_pow_right (by omega) hk
  rw [UInt64.toNat_mul, hx, UInt64.toNat_ofNat, pow_succ, Nat.mod_eq_of_lt]
  · rfl
  · rw [← pow_succ]
    exact hlt

theorem largest_mono (ops : List Op) (j n : ℕ) :
    largest i ops ≤ largest i (ops ++ [.size j n]) := by
  rw [largest_size]
  split_ifs
  · exact le_max_left _ _
  · exact le_refl _

theorem Doubled.keep {ops' : List Op} {lines' : List OverloadLine}
    (hd : Doubled S i ops l lines) (hlogged : l'.logged i = l.logged i)
    (hlines : linesOf i lines' = linesOf i lines) (hmono : largest i ops ≤ largest i ops') :
    Doubled S i ops' l' lines' := by
  constructor
  · rw [hlogged, hlines]
    exact hd.factor
  · rw [hlines]
    exact fun m hm => lt_of_lt_of_le (hd.sizes m hm) hmono

/-- A line doubles the factor, for a size above the product; it is not the last one that the
factor has room for when no size is above all products. -/
theorem Doubled.line {m : ℕ} (hd : Doubled S l.next ops l lines) (hm : m < 64)
    (hle : largest l.next (ops ++ [.size l.next n]) ≤ S.limit m) (ho : l.Overloaded S n) :
    Doubled S l.next (ops ++ [.size l.next n]) (l.afterSize S n)
      (lines ++ [⟨l.next, l.logged l.next⟩]) := by
  have hcount : linesOf l.next (lines ++ [⟨l.next, l.logged l.next⟩]) =
      linesOf l.next lines + 1 := by
    rw [linesOf_append]
    simp [linesOf]
  have hn : S.limit (linesOf l.next lines) < n := (hd.overloaded_iff n).mp ho
  have hlarge : n ≤ largest l.next (ops ++ [.size l.next n]) := by
    rw [largest_size, if_pos rfl]
    exact le_max_right _ _
  have hmono := largest_mono (i := l.next) ops l.next n
  have hsizes : ∀ k < linesOf l.next lines + 1,
      S.limit k < largest l.next (ops ++ [.size l.next n]) := by
    intro k hk
    by_cases hlast : k = linesOf l.next lines
    · subst hlast
      omega
    · have := hd.sizes k (by omega)
      omega
  have hroom : linesOf l.next lines + 1 ≤ m := by
    by_contra hlt
    have := hsizes m (by omega)
    omega
  constructor
  · rw [logged_afterSize, if_pos ho, Function.update_self, hcount]
    exact toNat_double hd.factor (by omega)
  · rw [hcount]
    exact hsizes

theorem Doubled.size {m : ℕ} (hd : Doubled S i ops l lines) (hm : m < 64)
    (hle : largest i (ops ++ [.size l.next n]) ≤ S.limit m) (hpc : l.pc = .size) :
    Doubled S i (ops ++ [.size l.next n]) (l.afterSize S n)
      (lines ++ l.overloadLines S (.size l.next n)) := by
  have hmono := largest_mono (i := i) ops l.next n
  rw [overloadLines_size hpc]
  by_cases ho : l.Overloaded S n
  · rw [if_pos ho]
    by_cases hi : l.next = i
    · subst hi
      exact hd.line hm hle ho
    · apply hd.keep _ _ hmono
      · rw [logged_afterSize, if_pos ho, Function.update_of_ne (Ne.symm hi)]
      · rw [linesOf_append]
        simp [linesOf, hi]
  · rw [if_neg ho, List.append_nil]
    apply hd.keep _ rfl hmono
    rw [logged_afterSize, if_neg ho]

/-- **The factors double throughout a run** in which no size is above all products. -/
theorem doubled_of_run {m : ℕ} (hm : m < 64)
    (hr : (logging S).run (.new S, []) ops = some (l, lines))
    (hB : ∀ j n, .size j n ∈ ops → n ≤ S.limit m) : Doubled S i ops l lines := by
  refine Lts.history_induction (m := logging S) (P := fun ops s =>
    (∀ j n, .size j n ∈ ops → n ≤ S.limit m) → Doubled S i ops s.1 s.2) ?_ ?_ hr hB
  · intro _
    constructor
    · rfl
    · intro m' hm'
      exact absurd hm' (Nat.not_lt_zero m')
  · rintro ops ⟨l, lines⟩ o ⟨l', lines'⟩ - ih hs hB
    obtain ⟨u, h, he⟩ := Option.map_eq_some_iff.mp hs
    cases he
    have hd := ih fun j n hmem => hB j n (List.mem_append_left _ hmem)
    have hle := largest_le (i := i) hB
    by_cases ho : ∃ j n, o = .size j n
    · obtain ⟨j, n, rfl⟩ := ho
      generalize he : Op.size j n = o at h
      cases step_iff.mp h with
      | size hpc n' =>
          cases he
          exact hd.size hm hle hpc
      | _ => cases he
    · push Not at ho
      obtain ⟨hlogged, hnone⟩ := step_logged h ho
      rw [hnone, List.append_nil]
      apply hd.keep _ rfl (largest_of_ne ho).ge
      rw [hlogged]

theorem Doubled.backsOff {m : ℕ} (hd : Doubled S i ops l lines) (hm : m < 64)
    (hle : largest i ops ≤ S.limit m) : BacksOff i ops l lines := by
  refine ⟨⟨_, hd.factor⟩, ?_⟩
  have hk : linesOf i lines ≤ m := by
    by_contra hlt
    have := hd.sizes m (by omega)
    omega
  cases hlines : linesOf i lines with
  | zero => exact Nat.zero_le _
  | succ k =>
      rw [hlines] at hk
      have hT : 0 < S.loggingThreshold.toNat := by
        by_contra hzero
        have := hd.sizes 0 (by omega)
        rw [limit_eq_zero (by omega)] at hle
        omega
      obtain ⟨m', hm', hpow⟩ := two_pow_le_limit hT (k := k) (by omega)
      have hlt := hd.sizes m' (by omega)
      rw [if_neg (by omega)]
      have hlog : k ≤ Nat.log 2 (largest i ops) := Nat.le_log_of_pow_le (by omega) (by omega)
      omega

/-! ### A run that looks at queue `0` again and again -/

/-- From the end of the `RESET`s to the put on queue `0`. -/
def firstPut : List Op :=
  [.loadRps 1024, .draw (meanInterval (1024 : UInt32).toInt32) 0, .loadState .running, .nowNs 1,
    .nowNs 1, .nowNs 1, .nowNs 1, .draw (meanInterval (1024 : UInt32).toInt32) 0,
    .putMessage 0 .sendRequest]

/-- A stretch of one round that finds `n` messages on queue `0`, cut and started again. -/
def lap (S : Setup) (n : ℕ) : List Op :=
  ((List.range S.numberOfWorkers).map fun i => .putMessage i .reset) ++ firstPut ++
    .size 0 n :: .loadRps 1024 :: cut

theorem logging_step (ht : Transition S l o l') (ho : ∀ j n, o ≠ .size j n) :
    (logging S).step (l, lines) o = some (l', lines) := by
  have h := step_iff.mpr ht
  simp only [logging, h, (step_logged h ho).2, Option.map_some, List.append_nil]

theorem run_resets (lines : List OverloadLine) (l : Loop) (k i : ℕ)
    (hi : i + k = S.numberOfWorkers) :
    (logging S).run (l.resetFrom S i, lines) ((List.range' i k).map fun j => .putMessage j .reset) =
      some ({ l with pc := .loadRps }, lines) := by
  induction k generalizing i with
  | zero =>
      have hlt : ¬ i < S.numberOfWorkers := by omega
      simp [resetFrom, hlt]
  | succ k ih =>
      have hpc : (l.resetFrom S i).pc = .reset i := if_pos (by omega)
      rw [List.range'_succ, List.map_cons, Lts.run_cons_iff]
      exact ⟨_, logging_step (.reset hpc) (by simp), ih (i + 1) (by omega)⟩

theorem run_firstPut (lines : List OverloadLine) (l : Loop) (hpc : l.pc = .loadRps) :
    ∃ u : Loop, (logging S).run (l, lines) firstPut = some (u, lines) ∧ u.pc = .size ∧
      u.next = 0 ∧ u.logged = l.logged ∧ u.rps = (1024 : UInt32).toInt32 := by
  have hzero : ∀ mean, truncate (randomExponentialInterval mean 0) = 0 := fun mean => by
    rw [randomExponentialInterval, zero_mul]
    rfl
  apply Exists.intro
  apply And.intro
  · refine (Lts.run_cons_iff _).mpr ⟨_, logging_step (.loadRps hpc 1024) (by simp), ?_⟩
    refine (Lts.run_cons_iff _).mpr ⟨_, logging_step (.drawFirst rfl (le_refl 0)) (by simp), ?_⟩
    refine (Lts.run_cons_iff _).mpr ⟨_, logging_step (.running rfl) (by simp), ?_⟩
    refine (Lts.run_cons_iff _).mpr ⟨_, logging_step (.readB rfl 1) (by simp), ?_⟩
    refine (Lts.run_cons_iff _).mpr ⟨_, logging_step (.waitStart rfl 1) (by simp), ?_⟩
    refine (Lts.run_cons_iff _).mpr ⟨_, logging_step (.waited rfl ?_) (by simp), ?_⟩
    · simp [hzero]
    refine (Lts.run_cons_iff _).mpr ⟨_, logging_step (.readA rfl 1) (by simp), ?_⟩
    refine (Lts.run_cons_iff _).mpr ⟨_, logging_step (.drawNext rfl (le_refl 0)) (by simp), ?_⟩
    exact (Lts.run_cons_iff _).mpr ⟨_, logging_step (.put rfl) (by simp), Lts.run_nil _ _⟩
  · exact ⟨rfl, rfl, rfl, rfl⟩

theorem run_cut (l : Loop) (hpc : l.pc = .compareRps) (hrps : l.rps = (1024 : UInt32).toInt32) :
    (logging S).run (l, lines) (.loadRps 1024 :: cut) =
      some (resetFrom S { l with pc := .checkStopping } 0, lines) := by
  have h1024 : l.rps.toUInt32 = 1024 := by
    rw [hrps]
    rfl
  have hcompare := Transition.unchanged (S := S) hpc
  rw [h1024] at hcompare
  refine (Lts.run_cons_iff _).mpr ⟨_, logging_step hcompare (by simp), ?_⟩
  refine (Lts.run_cons_iff _).mpr ⟨_, logging_step (.notRunning rfl (by decide)) (by simp), ?_⟩
  refine (Lts.run_cons_iff _).mpr ⟨_, logging_step (.notPaused rfl (by decide)) (by simp), ?_⟩
  exact (Lts.run_cons_iff _).mpr ⟨_, logging_step (.restart rfl (by decide)) (by simp), rfl⟩

theorem run_lap (lines : List OverloadLine) (l : Loop)
    (hn : (S.loggingThreshold * l.logged 0).toNat < n) :
    ∃ l' : Loop, (logging S).run (l.resetFrom S 0, lines) (lap S n) =
        some (l'.resetFrom S 0, lines ++ [⟨0, l.logged 0⟩]) ∧
      l'.logged 0 = l.logged 0 * 2 := by
  have hresets := run_resets lines l S.numberOfWorkers 0 (Nat.zero_add _)
  rw [← List.range_eq_range'] at hresets
  obtain ⟨u, hput, hpc, hnext, hlogged, hrps⟩ :=
    run_firstPut (S := S) lines { l with pc := .loadRps } rfl
  have hover : u.Overloaded S n := by
    rw [Overloaded, hnext, hlogged]
    exact hn
  have hsize : (logging S).step (u, lines) (.size 0 n) =
      some (u.afterSize S n, lines ++ [⟨0, l.logged 0⟩]) := by
    have h := step_iff.mpr (Transition.size (S := S) hpc n)
    have hlines := overloadLines_size (S := S) hpc 0 n
    rw [if_pos hover, hnext, hlogged] at hlines
    rw [hnext] at h
    simp only [logging, h, hlines, Option.map_some]
  refine ⟨{ u.afterSize S n with pc := .checkStopping }, ?_, ?_⟩
  · rw [lap, List.append_assoc, Lts.run_append, hresets, Option.bind_some, Lts.run_append, hput,
      Option.bind_some, Lts.run_cons, hsize, Option.bind_some]
    exact run_cut _ rfl hrps
  · show (u.afterSize S n).logged 0 = _
    rw [logged_afterSize, if_pos hover, hnext, hlogged]
    exact Function.update_self _ _ _

/-- `k` laps. -/
def laps (S : Setup) (n k : ℕ) : List Op := (List.replicate k (lap S n)).flatten

theorem size_le_of_mem_laps {k j m : ℕ} (hm : .size j m ∈ laps S n k) : m ≤ n := by
  simp only [laps, lap, firstPut, cut, List.mem_flatten, List.mem_replicate] at hm
  obtain ⟨ops, ⟨-, rfl⟩, hm⟩ := hm
  simp at hm
  omega

/-- When the size is above all products, every lap logs a line. -/
theorem run_laps (hn : ∀ m < 64, S.limit m < n) (k : ℕ) (hk : k ≤ 64) :
    ∃ (l : Loop) (lines : List OverloadLine),
      (logging S).run (.new S, []) (laps S n k) = some (l.resetFrom S 0, lines) ∧
        (l.logged 0).toNat = 2 ^ k % 2 ^ 64 ∧ linesOf 0 lines = k := by
  induction k with
  | zero => exact ⟨⟨.reset 0, 0, fun _ => 1, 0, 0, 0, 0, 0⟩, [], rfl, rfl, rfl⟩
  | succ k ih =>
      obtain ⟨l, lines, hrun, hlogged, hlines⟩ := ih (by omega)
      have hover : (S.loggingThreshold * l.logged 0).toNat < n := by
        rw [UInt64.toNat_mul, hlogged, Nat.mul_mod_mod]
        exact hn k (by omega)
      obtain ⟨l', hlap, hdouble⟩ := run_lap lines l hover
      refine ⟨l', lines ++ [⟨0, l.logged 0⟩], ?_, ?_, ?_⟩
      · rw [laps, List.replicate_succ', List.flatten_append, List.flatten_singleton,
          Lts.run_append_iff]
        exact ⟨_, hrun, hlap⟩
      · rw [hdouble, UInt64.toNat_mul, hlogged, pow_succ, Nat.mod_mul_mod]
        rfl
      · rw [linesOf_append, hlines]
        rfl

end Loop

/-! ### When the log backs off -/

/-- The overload log of every worker backs off in every run that observes no size above
`B`. -/
def BacksOffUpTo (S : Setup) (B : ℕ) : Prop :=
  ∀ ops l lines, (Loop.logging S).run (.new S, []) ops = some (l, lines) →
    (∀ j n, .size j n ∈ ops → n ≤ B) → ∀ i < S.numberOfWorkers, Loop.BacksOff i ops l lines

section
variable {S : Setup} {B : ℕ}

theorem backsOffUpTo_iff_limit (hN : 1 ≤ S.numberOfWorkers) :
    BacksOffUpTo S B ↔ ∃ m < 64, B ≤ S.limit m := by
  constructor
  · intro hb
    by_contra hall
    push Not at hall
    obtain ⟨l, lines, hrun, hlogged, -⟩ := Loop.run_laps hall 64 (le_refl _)
    obtain ⟨k, hk⟩ := (hb _ _ _ hrun (fun j m => Loop.size_le_of_mem_laps) 0 hN).factor
    have hzero : (l.logged 0).toNat = 2 ^ k := by
      rw [← hk]
      simp only [Loop.resetFrom]
    rw [hlogged] at hzero
    have := Nat.two_pow_pos k
    omega
  · rintro ⟨m, hm, hB⟩ ops l lines hr hsizes i -
    have hle : ∀ j n, .size j n ∈ ops → n ≤ S.limit m := fun j n hmem =>
      (hsizes j n hmem).trans hB
    exact (Loop.doubled_of_run hm hr hle).backsOff hm (Loop.largest_le hle)

/-- **When overload logging backs off.**  In the runs that observe no size above `B`, every
factor stays a power of two and every worker has at most one line more than the logarithm of
its largest size, exactly when `B` is not above all the 64-bit products of the threshold with
a power of two.  When there are fewer outstanding requests than workers, that is when every
queue is always seen empty; otherwise every `B` up to `2 ^ 63` will do. -/
theorem backsOff_iff (hN : 1 ≤ S.numberOfWorkers) (hM : 0 ≤ S.maxOutstandingRequests.toInt) :
    (BacksOffUpTo S B ↔ ∃ m < 64,
      B ≤ S.maxOutstandingRequests.toInt.toNat / S.numberOfWorkers * 2 ^ m % 2 ^ 64) ∧
    (S.maxOutstandingRequests.toInt < S.numberOfWorkers → (BacksOffUpTo S B ↔ B = 0)) ∧
    (S.numberOfWorkers ≤ S.maxOutstandingRequests.toInt → B ≤ 2 ^ 63 → BacksOffUpTo S B) := by
  have hT := loggingThreshold_eq hM
  refine ⟨?_, ?_, ?_⟩
  · rw [backsOffUpTo_iff_limit hN, ← hT]
    rfl
  · intro hlt
    have hzero : S.loggingThreshold.toNat = 0 := by
      rw [hT, Nat.div_eq_of_lt (by omega)]
    rw [backsOffUpTo_iff_limit hN]
    constructor
    · rintro ⟨m, -, hB⟩
      rw [limit_eq_zero hzero] at hB
      omega
    · rintro rfl
      exact ⟨0, by omega, Nat.zero_le _⟩
  · intro hle hB
    have hpos : 0 < S.loggingThreshold.toNat := by
      rw [hT]
      exact Nat.div_pos (by omega) hN
    obtain ⟨m, hm, hpow⟩ := two_pow_le_limit hpos (k := 63) (by omega)
    exact (backsOffUpTo_iff_limit hN).mpr ⟨m, by omega, hB.trans hpow⟩

end

/-- Two workers that share one outstanding request. -/
def oneForTwo : Setup := { defaults 2 with maxOutstandingRequests := 1 }

theorem backsOff_iff_oneForTwo : ¬ BacksOffUpTo oneForTwo 1 ∧ BacksOffUpTo (defaults 2) 5 := by
  have hone : oneForTwo.maxOutstandingRequests.toInt < oneForTwo.numberOfWorkers := by decide
  have hdefaults : ((defaults 2).numberOfWorkers : ℤ) ≤
      (defaults 2).maxOutstandingRequests.toInt := by decide
  constructor
  · intro hb
    have := ((backsOff_iff (S := oneForTwo) (by decide) (by decide)).2.1 hone).mp hb
    omega
  · exact (backsOff_iff (by decide) (by decide)).2.2 hdefaults (by omega)

/-- With one message on queue `0` at every look, there are two lines after two looks, and the
factor is zero after 64. -/
theorem oneForTwo_logs :
    (∃ l lines, (Loop.logging oneForTwo).run (.new oneForTwo, []) (Loop.laps oneForTwo 1 2) =
        some (l, lines) ∧ largest 0 (Loop.laps oneForTwo 1 2) = 1 ∧ linesOf 0 lines = 2) ∧
      (∃ l lines, (Loop.logging oneForTwo).run (.new oneForTwo, []) (Loop.laps oneForTwo 1 64) =
        some (l, lines) ∧ l.logged 0 = 0) ∧
      ¬ ∀ ops l lines, (Loop.logging oneForTwo).run (.new oneForTwo, []) ops = some (l, lines) →
        ∀ i < oneForTwo.numberOfWorkers, Loop.BacksOff i ops l lines := by
  have hzero : oneForTwo.loggingThreshold.toNat = 0 := by decide
  have hlimit : ∀ m < 64, oneForTwo.limit m < 1 := fun m _ => by
    rw [limit_eq_zero hzero]
    omega
  obtain ⟨l, lines, hrun, -, hlines⟩ := Loop.run_laps hlimit 2 (by omega)
  obtain ⟨u, lines', hrun', hlogged, -⟩ := Loop.run_laps hlimit 64 (by omega)
  have hlargest : largest 0 (Loop.laps oneForTwo 1 2) = 1 := by decide
  refine ⟨⟨_, lines, hrun, hlargest, hlines⟩, ⟨_, lines', hrun', ?_⟩, fun hall => ?_⟩
  · rw [← UInt64.toNat_inj]
    exact hlogged
  · have hle := (hall _ _ _ hrun 0 (by decide)).lines
    rw [hlargest, hlines] at hle
    simp at hle

end Treadmill
