import Mathlib.Data.Int.CardIntervalMod
import Treadmill.Lib.Lts

/-! # Taking turns

Round-robin among `n` parties, numbered from `0`: the turns of a stretch go to `0`, `1`, ...,
`n - 1` and round again.  `turns n m` are the parties served in the first `m` turns; two of
them are served equally often up to one, the lower-numbered one first (`count_turns_le`,
`count_turns_le_succ`).

A history takes turns (`TakesTurns`) when it starts over with party `0` at every restart, and
serves nobody before the first one.  A stretch may be cut off by the next restart anywhere, so
every restart can leave a higher-numbered party one turn behind: over the whole history the
shares of two parties differ by at most the number of restarts (`TakesTurns.total`). -/

/-- The parties served in the first `m` turns. -/
def turns (n m : ℕ) : List ℕ := (List.range m).map (· % n)

section turns
variable {n m i j : ℕ}

theorem turns_succ (n m : ℕ) : turns n (m + 1) = turns n m ++ [m % n] := by
  simp [turns, List.range_succ]

/-- The share of a party in a stretch, as a count of the turns congruent to it. -/
theorem count_turns_eq_count (hi : i < n) (m : ℕ) :
    (turns n m).count i = Nat.count (· ≡ i [MOD n]) m := by
  induction m with
  | zero => rfl
  | succ m ih =>
      rw [turns_succ, List.count_append, ih, Nat.count_succ, List.count_singleton]
      simp only [Nat.ModEq, Nat.mod_eq_of_lt hi, beq_iff_eq]

/-- Every party is served in each full round, and the first ones in the round begun. -/
theorem count_turns (hi : i < n) (m : ℕ) :
    (turns n m).count i = m / n + if i < m % n then 1 else 0 := by
  rw [count_turns_eq_count hi, Nat.count_modEq_card m (by omega) i, Nat.mod_eq_of_lt hi]

theorem count_turns_le (hij : i ≤ j) (hj : j < n) (m : ℕ) :
    (turns n m).count j ≤ (turns n m).count i := by
  rw [count_turns hj, count_turns (by omega)]
  split_ifs <;> omega

theorem count_turns_le_succ (hi : i < n) (hj : j < n) (m : ℕ) :
    (turns n m).count i ≤ (turns n m).count j + 1 := by
  rw [count_turns hi, count_turns hj]
  split_ifs <;> omega

end turns

/-! ### Histories -/

section histories
variable {ε : Type*} (restart : ε → Bool) (served : ε → Option ℕ)

/-- The parties served since the last restart. -/
def stretch (h : List ε) : List ℕ := (sinceLast restart h).filterMap served

/-- Whoever is served is served after a restart, and it is that party's turn. -/
def TakesTurns (n : ℕ) : List ε → Prop :=
  Always fun h a => ∀ i, served a = some i →
    0 < h.countP restart ∧ i = (stretch restart served h).length % n

variable {restart served} {n i j : ℕ} {h : List ε} {a : ε}

theorem stretch_restart (h : List ε) (ha : restart a = true) :
    stretch restart served (h ++ [a]) = [] := by
  rw [stretch, sinceLast_snoc_of_pos h ha, List.filterMap_nil]

theorem stretch_snoc (h : List ε) (ha : restart a = false) :
    stretch restart served (h ++ [a]) = stretch restart served h ++ [a].filterMap served := by
  rw [stretch, sinceLast_snoc_of_neg h ha, List.filterMap_append]
  rfl

theorem stretch_served (h : List ε) (ha : restart a = false) (hi : served a = some i) :
    stretch restart served (h ++ [a]) = stretch restart served h ++ [i] := by
  rw [stretch_snoc h ha, List.filterMap_cons_some hi, List.filterMap_nil]

theorem stretch_idle (h : List ε) (ha : restart a = false) (hi : served a = none) :
    stretch restart served (h ++ [a]) = stretch restart served h := by
  rw [stretch_snoc h ha, List.filterMap_cons_none hi, List.filterMap_nil, List.append_nil]

theorem TakesTurns.before (ht : TakesTurns restart served n (h ++ [a])) :
    TakesTurns restart served n h := Always.prefix ht

/-- The parties served since the last restart are served in turn. -/
theorem TakesTurns.stretch_eq (ht : TakesTurns restart served n h) :
    stretch restart served h = turns n (stretch restart served h).length := by
  induction h using List.reverseRecOn with
  | nil => rfl
  | append_singleton h a ih =>
      cases hr : restart a with
      | true =>
          rw [stretch_restart h hr]
          rfl
      | false =>
          cases hi : served a with
          | none =>
              rw [stretch_idle h hr hi]
              exact ih ht.before
          | some i =>
              obtain ⟨-, hturn⟩ := Always.last ht i hi
              rw [stretch_served h hr hi, List.length_append, List.length_singleton, turns_succ,
                ← ih ht.before, ← hturn]

theorem TakesTurns.count_stretch (ht : TakesTurns restart served n h) (hij : i ≤ j)
    (hj : j < n) :
    (stretch restart served h).count j ≤ (stretch restart served h).count i ∧
      (stretch restart served h).count i ≤ (stretch restart served h).count j + 1 := by
  have hi : i < n := by omega
  rw [ht.stretch_eq]
  exact ⟨count_turns_le hij hj _, count_turns_le_succ hi hj _⟩

theorem TakesTurns.stretch_of_zero (ht : TakesTurns restart served n h)
    (hzero : h.countP restart = 0) : stretch restart served h = [] := by
  induction h using List.reverseRecOn with
  | nil => rfl
  | append_singleton h a ih =>
      rw [List.countP_append, Nat.add_eq_zero_iff, List.countP_singleton] at hzero
      obtain ⟨hh, ha⟩ := hzero
      have hr : restart a = false := by simpa using ha
      cases hi : served a with
      | none =>
          rw [stretch_idle h hr hi]
          exact ih ht.before hh
      | some i =>
          have hpos := (Always.last ht i hi).1
          omega

/-- What the stretches before the last restart left: of two parties the lower-numbered one is
ahead, by at most one turn for each of these stretches. -/
theorem TakesTurns.past (hsep : ∀ a i, served a = some i → restart a = false)
    (ht : TakesTurns restart served n h) (hij : i ≤ j) (hj : j < n) :
    (h.filterMap served).count j + (stretch restart served h).count i ≤
        (h.filterMap served).count i + (stretch restart served h).count j ∧
      (h.filterMap served).count i + (stretch restart served h).count j ≤
        (h.filterMap served).count j + (stretch restart served h).count i +
          (h.countP restart - 1) := by
  induction h using List.reverseRecOn with
  | nil => simp [stretch]
  | append_singleton h a ih =>
      obtain ⟨hle, hge⟩ := ih ht.before
      cases hi : served a with
      | some k =>
          have hr := hsep a k hi
          rw [stretch_served h hr hi, List.filterMap_append, List.filterMap_cons_some hi,
            List.filterMap_nil, List.countP_append, List.countP_singleton, hr]
          simp only [List.count_append, Bool.false_eq_true, if_false]
          omega
      | none =>
          rw [List.filterMap_append, List.filterMap_cons_none hi, List.filterMap_nil,
            List.append_nil, List.countP_append, List.countP_singleton]
          cases hr : restart a with
          | false =>
              rw [stretch_idle h hr hi]
              simp only [Bool.false_eq_true, if_false]
              omega
          | true =>
              -- the stretch that ends here joins the past
              obtain ⟨hahead, hbehind⟩ := ht.before.count_stretch hij hj
              rw [stretch_restart h hr, List.count_nil, List.count_nil, if_pos rfl]
              by_cases hzero : h.countP restart = 0
              · rw [ht.before.stretch_of_zero hzero, List.count_nil, List.count_nil] at hle hge
                omega
              · omega

/-- **The shares of two parties in a history**: the lower-numbered one is never behind, and
ahead by at most the number of restarts. -/
theorem TakesTurns.total (hsep : ∀ a i, served a = some i → restart a = false)
    (ht : TakesTurns restart served n h) (hij : i ≤ j) (hj : j < n) :
    (h.filterMap served).count j ≤ (h.filterMap served).count i ∧
      (h.filterMap served).count i ≤ (h.filterMap served).count j + h.countP restart := by
  obtain ⟨hle, hge⟩ := ht.past hsep hij hj
  obtain ⟨hahead, hbehind⟩ := ht.count_stretch hij hj
  by_cases hzero : h.countP restart = 0
  · rw [ht.stretch_of_zero hzero, List.count_nil, List.count_nil] at hle hge
    omega
  · omega

end histories
