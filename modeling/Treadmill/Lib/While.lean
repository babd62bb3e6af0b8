import Mathlib.Tactic.Common

/-! # Loops that may not end

A loop is given by its round: `body s` is the next state, or the result with which the loop
ends.  `run n s` is the result after at most `n` rounds, `none` when they do not suffice, so a
loop can be evaluated with enough fuel.

`Ends s r` and `Diverges s` say what the loop does from `s`.  The rules for them are the usual
ones: an invariant and a variant for total correctness (`ends_of_variant`), an invariant for
the results of a loop that ends (`Ends.invariant`), and an invariant that every round keeps for
a loop that does not (`diverges_of_invariant`). -/

/-- A loop over states `σ` with results `ρ`. -/
structure While (σ ρ : Type*) where
  body : σ → σ ⊕ ρ

namespace While

variable {σ ρ : Type*} (w : While σ ρ)

/-- The result, if the loop ends within `n` rounds. -/
def run : ℕ → σ → Option ρ
  | 0, _ => none
  | n + 1, s => Sum.elim (run n) some (w.body s)

/-- The loop ends from `s` with the result `r`. -/
def Ends (s : σ) (r : ρ) : Prop := ∃ n, w.run n s = some r

/-- The loop does not end from `s`. -/
def Diverges (s : σ) : Prop := ∀ n, w.run n s = none

variable {w} {s s' : σ} {r r' : ρ}

theorem ends_of_exit (hs : w.body s = .inr r) : w.Ends s r := by
  refine ⟨1, ?_⟩
  rw [run, hs]
  rfl

theorem ends_round (hs : w.body s = .inl s') : w.Ends s r ↔ w.Ends s' r := by
  constructor
  · rintro ⟨n, hn⟩
    cases n with
    | zero => cases hn
    | succ n =>
        rw [run, hs] at hn
        exact ⟨n, hn⟩
  · rintro ⟨n, hn⟩
    refine ⟨n + 1, ?_⟩
    rw [run, hs]
    exact hn

theorem ends_exit (hs : w.body s = .inr r) : w.Ends s r' ↔ r' = r := by
  constructor
  · rintro ⟨n, hn⟩
    cases n with
    | zero => cases hn
    | succ n =>
        rw [run, hs] at hn
        cases hn
        rfl
  · rintro rfl
    exact ends_of_exit hs

/-- **Partial correctness.**  What every round keeps and every exit turns into `Q` holds of the
result. -/
theorem Ends.invariant {I : σ → Prop} {Q : ρ → Prop}
    (hround : ∀ s s', I s → w.body s = .inl s' → I s')
    (hexit : ∀ s r, I s → w.body s = .inr r → Q r) (hs : I s) (he : w.Ends s r) : Q r := by
  obtain ⟨n, hn⟩ := he
  induction n generalizing s with
  | zero => cases hn
  | succ n ih =>
      rw [run] at hn
      cases hb : w.body s with
      | inl s' =>
          rw [hb] at hn
          exact ih (hround s s' hs hb) hn
      | inr r' =>
          rw [hb] at hn
          cases hn
          exact hexit s r hs hb

theorem Ends.unique (h : w.Ends s r) (h' : w.Ends s r') : r' = r := by
  refine Ends.invariant (I := fun s => w.Ends s r) (Q := fun r' => r' = r) ?_ ?_ h h'
  · intro s s' hs hb
    exact (ends_round hb).mp hs
  · intro s r' hs hb
    exact ((ends_exit hb).mp hs).symm

/-- **Total correctness.**  If every round keeps the invariant and lowers the variant, and every
exit gives `Q`, then the loop ends with a result that satisfies `Q`. -/
theorem ends_of_variant {I : σ → Prop} {Q : ρ → Prop} (μ : σ → ℕ)
    (hstep : ∀ s, I s → (∃ s', w.body s = .inl s' ∧ I s' ∧ μ s' < μ s) ∨
      ∃ r, w.body s = .inr r ∧ Q r) (hs : I s) : ∃ r, w.Ends s r ∧ Q r := by
  induction hn : μ s using Nat.strongRecOn generalizing s with
  | ind n ih =>
      rcases hstep s hs with ⟨s', hb, hs', hlt⟩ | ⟨r, hb, hr⟩
      · obtain ⟨r, he, hr⟩ := ih (μ s') (by omega) hs' rfl
        exact ⟨r, (ends_round hb).mpr he, hr⟩
      · exact ⟨r, ends_of_exit hb, hr⟩

/-- **Divergence.**  If the invariant always leads to another round that keeps it, the loop does
not end. -/
theorem diverges_of_invariant {I : σ → Prop}
    (hstep : ∀ s, I s → ∃ s', w.body s = .inl s' ∧ I s') (hs : I s) : w.Diverges s := by
  intro n
  induction n generalizing s with
  | zero => rfl
  | succ n ih =>
      obtain ⟨s', hb, hs'⟩ := hstep s hs
      rw [run, hb]
      exact ih hs'

theorem Diverges.not_ends (hd : w.Diverges s) : ¬ w.Ends s r := by
  rintro ⟨n, hn⟩
  rw [hd n] at hn
  cases hn

end While
