import Mathlib.Data.List.AList
import Mathlib.Algebra.BigOperators.Group.List.Basic
import Mathlib.Algebra.GroupWithZero.Nat

/-! # Tallies

A tally counts occurrences by key: a finite map from keys to positive numbers, which
`bump` increments at one key (inserting `1` at a new one).  A key that was never bumped
has no entry, so a tally is empty exactly when nothing was counted
(`eq_empty_iff`), and the entries of one key add up to its count (`sum_entries`). -/

/-- A finite map from keys to positive counts. -/
structure Tally (κ : Type*) [DecidableEq κ] where
  counts : AList fun _ : κ => ℕ
  pos : ∀ k n, counts.lookup k = some n → 0 < n

namespace Tally

variable {κ : Type*} [DecidableEq κ]

/-- The empty tally. -/
def empty : Tally κ := ⟨∅, by simp⟩

/-- The number of times `k` was counted. -/
def count (t : Tally κ) (k : κ) : ℕ := (t.counts.lookup k).getD 0

/-- Count one more occurrence of `k`. -/
def bump (t : Tally κ) (k : κ) : Tally κ where
  counts := t.counts.insert k (t.count k + 1)
  pos := by
    intro k' n h
    by_cases hk : k' = k
    · subst hk
      rw [AList.lookup_insert, Option.some.injEq] at h
      omega
    · rw [AList.lookup_insert_ne hk] at h
      exact t.pos k' n h

/-- The keys counted so far, with their counts. -/
def entries (t : Tally κ) : List (κ × ℕ) := t.counts.entries.map fun e => (e.1, e.2)

@[simp] theorem count_empty (k : κ) : (empty : Tally κ).count k = 0 := by
  simp [count, empty]

theorem count_bump (t : Tally κ) (k k' : κ) :
    (t.bump k).count k' = t.count k' + if k' = k then 1 else 0 := by
  by_cases hk : k' = k
  · subst hk
    simp [count, bump]
  · simp [count, bump, AList.lookup_insert_ne hk, hk]

theorem eq_empty_iff (t : Tally κ) : t = empty ↔ ∀ k, t.count k = 0 := by
  constructor
  · rintro rfl k
    exact count_empty k
  · intro h
    have hnone : ∀ k, t.counts.lookup k = none := by
      intro k
      cases hk : t.counts.lookup k with
      | none => rfl
      | some n =>
          have hpos := t.pos k n hk
          have hzero := h k
          simp only [count, hk, Option.getD_some] at hzero
          omega
    have hnil : t.counts.entries = [] := by
      apply List.eq_nil_iff_forall_not_mem.mpr
      rintro ⟨k, n⟩ hm
      have := hnone k
      rw [AList.mem_lookup_iff.mpr hm] at this
      cases this
    cases t
    congr
    exact AList.ext hnil

theorem sum_dlookup (k : κ) : ∀ (l : List (Σ _ : κ, ℕ)), l.NodupKeys →
    (l.map fun e => if e.1 = k then e.2 else 0).sum = (l.dlookup k).getD 0
  | [], _ => by simp
  | ⟨k', n⟩ :: l, hnd => by
      obtain ⟨hk', hl⟩ := List.nodupKeys_cons.mp hnd
      have ih := sum_dlookup k l hl
      simp only [List.map_cons, List.sum_cons, ih]
      by_cases hk : k' = k
      · subst hk
        simp [List.dlookup_eq_none.mpr hk']
      · simp [hk, List.dlookup_cons_ne l ⟨k', n⟩ (Ne.symm hk)]

/-- The entries of `k` add up to the number of times it was counted. -/
theorem sum_entries (t : Tally κ) (k : κ) :
    (t.entries.map fun e => if e.1 = k then e.2 else 0).sum = t.count k := by
  rw [entries, List.map_map]
  exact sum_dlookup k t.counts.entries t.counts.nodupKeys

end Tally
