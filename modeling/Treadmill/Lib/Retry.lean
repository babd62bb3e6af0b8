import Mathlib.Data.List.Basic
import Mathlib.Data.Nat.Find
import Mathlib.Tactic.Common

/-! # Retried attempts

Attempts are numbered, and `g j` is what attempt `j` gives.  `attempt k` repeats at most `k` times
until an attempt succeeds; `collect k n` does so for `n` values, one after another.

`collect_iff` says when that comes to its end: exactly when no `k` attempts in a row fail, and then
the values are those of all successful attempts made, in their order, the last attempt being one of
them. -/

namespace Except

variable {ε ε' α β : Type*} {x : Except ε α}

theorem bind_eq_ok_iff {f : α → Except ε β} {b : β} :
    x.bind f = .ok b ↔ ∃ a, x = .ok a ∧ f a = .ok b := by
  cases x <;> simp [Except.bind]

theorem map_eq_ok_iff {f : α → β} {b : β} : x.map f = .ok b ↔ ∃ a, x = .ok a ∧ f a = b := by
  cases x <;> simp [Except.map]

theorem mapError_eq_ok_iff {f : ε → ε'} {a : α} : x.mapError f = .ok a ↔ x = .ok a := by
  cases x <;> simp [Except.mapError]

end Except

namespace Retry

variable {ε α : Type*} (g : ℕ → Except ε α)

/-- The value of the first success among `k` attempts from `p` on, and the attempt after it; or the
last error. -/
def attempt (e : ε) : ℕ → ℕ → Except ε (α × ℕ)
  | 0, _ => .error e
  | k + 1, p =>
      match g p with
      | .ok a => .ok (a, p + 1)
      | .error e => attempt e k (p + 1)

/-- `n` values, each of at most `k` attempts, from attempt `p` on. -/
def collect (e : ε) (k : ℕ) : ℕ → ℕ → Except ε (List α × ℕ)
  | 0, p => .ok ([], p)
  | n + 1, p =>
      (attempt g e k p).bind fun (a, q) =>
        (collect e k n q).map fun (as, r) => (a :: as, r)

/-- The values of the attempts from `p` up to `q`. -/
def values (p q : ℕ) : List α := (List.range' p (q - p)).filterMap fun j => (g j).toOption

/-- Of any `k` attempts in a row from `p` up to `q`, one succeeds. -/
def Steady (k p q : ℕ) : Prop :=
  ∀ j, p ≤ j → j + k ≤ q → ∃ i a, j ≤ i ∧ i < j + k ∧ g i = .ok a

variable {g} {e : ε} {k n p q r : ℕ} {a : α} {as : List α}

theorem values_self (p : ℕ) : values g p p = [] := by
  simp [values]

theorem values_cons (hp : p < q) :
    values g p q = (g p).toOption.toList ++ values g (p + 1) q := by
  obtain ⟨m, hm⟩ : ∃ m, q - p = m + 1 := ⟨q - p - 1, by omega⟩
  have hm' : q - (p + 1) = m := by omega
  rw [values, values, hm, hm', List.range'_succ, List.filterMap_cons]
  cases g p <;> rfl

theorem values_append (hpq : p ≤ q) (hqr : q ≤ r) :
    values g p r = values g p q ++ values g q r := by
  have hlen : r - p = (q - p) + (r - q) := by omega
  have hstart : p + (q - p) = q := by omega
  rw [values, values, values, hlen, ← List.range'_append_1, List.filterMap_append, hstart]

theorem attempt_iff : attempt g e k p = .ok (a, q) ↔
    p < q ∧ q ≤ p + k ∧ g (q - 1) = .ok a ∧ ∀ j, p ≤ j → j + 1 < q → ∃ e', g j = .error e' := by
  induction k generalizing e p with
  | zero =>
      constructor
      · intro h
        cases h
      · rintro ⟨h1, h2, -⟩
        omega
  | succ k ih =>
      cases hg : g p with
      | ok b =>
          simp only [attempt, hg]
          constructor
          · intro h
            cases h
            refine ⟨by omega, by omega, hg, fun j h1 h2 => ?_⟩
            omega
          · rintro ⟨h1, -, hlast, hbefore⟩
            have hq : q = p + 1 := by
              by_contra hne
              obtain ⟨e', he⟩ := hbefore p le_rfl (by omega)
              rw [hg] at he
              cases he
            subst hq
            rw [Nat.add_sub_cancel, hg] at hlast
            rw [Except.ok.inj hlast]
      | error e' =>
          simp only [attempt, hg]
          rw [ih]
          constructor
          · rintro ⟨h1, h2, hlast, hbefore⟩
            refine ⟨by omega, by omega, hlast, fun j h3 h4 => ?_⟩
            by_cases hj : j = p
            · exact ⟨e', hj ▸ hg⟩
            · exact hbefore j (by omega) h4
          · rintro ⟨h1, h2, hlast, hbefore⟩
            have hq : q ≠ p + 1 := by
              rintro rfl
              rw [Nat.add_sub_cancel, hg] at hlast
              cases hlast
            exact ⟨by omega, by omega, hlast, fun j h3 h4 => hbefore j (by omega) h4⟩

/-- The attempts up to the first success have its value alone. -/
theorem values_attempt (h : attempt g e k p = .ok (a, q)) : values g p q = [a] := by
  obtain ⟨h1, -, hlast, hbefore⟩ := attempt_iff.mp h
  clear h
  obtain ⟨m, rfl⟩ : ∃ m, q = p + (m + 1) := ⟨q - p - 1, by omega⟩
  induction m generalizing p with
  | zero =>
      rw [Nat.add_sub_cancel] at hlast
      rw [values_cons h1, hlast, Nat.zero_add, values_self]
      rfl
  | succ m ih =>
      obtain ⟨e', he⟩ := hbefore p le_rfl (by omega)
      have hstart : p + (m + 1 + 1) = p + 1 + (m + 1) := by omega
      rw [values_cons h1, he, hstart]
      refine ih ?_ ?_ ?_
      · omega
      · rw [← hstart]
        exact hlast
      · intro j h3 h4
        exact hbefore j (by omega) (by omega)

theorem exists_attempt (hpq : p < q) (hs : Steady g k p q) (hlast : ∃ a, g (q - 1) = .ok a) :
    ∃ a r, attempt g e k p = .ok (a, r) ∧ r ≤ q := by
  classical
  obtain ⟨a, ha⟩ := hlast
  have hex : ∃ j, p ≤ j ∧ ∃ b, g j = .ok b := ⟨q - 1, by omega, a, ha⟩
  obtain ⟨hp, b, hb⟩ := Nat.find_spec hex
  have hfirst : ∀ j, p ≤ j → j < Nat.find hex → ∃ e', g j = .error e' := by
    intro j h1 h2
    cases hj : g j with
    | ok b => exact absurd ⟨h1, b, hj⟩ (Nat.find_min hex h2)
    | error e' => exact ⟨e', rfl⟩
  have hle : Nat.find hex ≤ q - 1 := Nat.find_min' hex ⟨by omega, a, ha⟩
  refine ⟨b, Nat.find hex + 1, attempt_iff.mpr ⟨by omega, ?_, hb, ?_⟩, by omega⟩
  · -- otherwise the first `k` attempts would all have failed
    by_contra hlt
    obtain ⟨i, c, h1, h2, hc⟩ := hs p le_rfl (by omega)
    obtain ⟨e', he⟩ := hfirst i h1 (by omega)
    rw [hc] at he
    cases he
  · intro j h1 h2
    exact hfirst j h1 (by omega)

theorem values_ne_nil (hpq : p < q) (hlast : ∃ a, g (q - 1) = .ok a) : values g p q ≠ [] := by
  obtain ⟨a, ha⟩ := hlast
  have hq : q - 1 + 1 = q := by omega
  have hsplit := values_append (g := g) (show p ≤ q - 1 by omega) (show q - 1 ≤ q by omega)
  rw [values_cons (p := q - 1) (by omega), ha, hq, values_self] at hsplit
  rw [hsplit]
  simp [Except.toOption]

theorem Steady.mono (hs : Steady g k p r) (hpq : p ≤ q) : Steady g k q r :=
  fun j h1 h2 => hs j (Nat.le_trans hpq h1) h2

/-- Attempts up to a first success, and steady ones after it, are steady. -/
theorem Steady.cons (ha : attempt g e k p = .ok (a, q)) (hs : Steady g k q r) :
    Steady g k p r := by
  obtain ⟨h1, h2, hlast, -⟩ := attempt_iff.mp ha
  intro j h3 h4
  by_cases hj : q ≤ j
  · exact hs j hj h4
  · exact ⟨q - 1, a, by omega, by omega, hlast⟩

theorem collect_succ_iff : collect g e k (n + 1) p = .ok (as, q) ↔
    ∃ a r as', attempt g e k p = .ok (a, r) ∧ collect g e k n r = .ok (as', q) ∧ as = a :: as' := by
  constructor
  · intro h
    obtain ⟨⟨a, r⟩, ha, h⟩ := Except.bind_eq_ok_iff.mp h
    obtain ⟨⟨as', q'⟩, hc, he⟩ := Except.map_eq_ok_iff.mp h
    cases he
    exact ⟨a, r, as', ha, hc, rfl⟩
  · rintro ⟨a, r, as', ha, hc, rfl⟩
    exact Except.bind_eq_ok_iff.mpr ⟨(a, r), ha, Except.map_eq_ok_iff.mpr ⟨(as', q), hc, rfl⟩⟩

/-- **When the attempts suffice**: no `k` in a row fail, and the values are those of all attempts,
of which the last one succeeds. -/
theorem collect_iff (hk : 0 < k) : collect g e k n p = .ok (as, q) ↔
    p ≤ q ∧ as.length = n ∧ values g p q = as ∧ Steady g k p q ∧
      (p < q → ∃ a, g (q - 1) = .ok a) := by
  induction n generalizing p as with
  | zero =>
      constructor
      · intro h
        cases h
        refine ⟨Nat.le_refl _, rfl, values_self _, fun j h1 h2 => ?_, fun h => ?_⟩
        · omega
        · omega
      · rintro ⟨hpq, hlen, hvalues, -, hlast⟩
        obtain rfl := List.length_eq_zero_iff.mp hlen
        have hq : q = p := by
          by_contra hne
          exact values_ne_nil (by omega) (hlast (by omega)) hvalues
        rw [hq]
        rfl
  | succ n ih =>
      rw [collect_succ_iff]
      constructor
      · rintro ⟨a, r, as', ha, hc, rfl⟩
        obtain ⟨h1, hlen, hvalues, hs, hlast⟩ := ih.mp hc
        obtain ⟨h2, -, hfirst, -⟩ := attempt_iff.mp ha
        refine ⟨by omega, by rw [List.length_cons, hlen], ?_, hs.cons ha, fun _ => ?_⟩
        · rw [values_append (by omega) h1, values_attempt ha, hvalues]
          rfl
        · by_cases hr : r < q
          · exact hlast hr
          · have heq : q = r := by omega
            exact ⟨a, heq ▸ hfirst⟩
      · rintro ⟨hpq, hlen, hvalues, hs, hlast⟩
        have hlt : p < q := by
          by_contra hge
          obtain rfl : q = p := by omega
          rw [values_self] at hvalues
          rw [← hvalues] at hlen
          cases hlen
        obtain ⟨a, r, ha, hr⟩ := exists_attempt hlt hs (hlast hlt)
        obtain ⟨h1, -, -, -⟩ := attempt_iff.mp ha
        rw [values_append (by omega) hr, values_attempt ha] at hvalues
        subst hvalues
        refine ⟨a, r, values g r q, ha, ih.mpr ⟨hr, ?_, rfl, hs.mono (by omega), ?_⟩, rfl⟩
        · simpa using hlen
        · exact fun h => hlast (by omega)

theorem collect_add (m : ℕ) : collect g e k (m + n) p =
    (collect g e k m p).bind fun (as, q) =>
      (collect g e k n q).map fun (bs, r) => (as ++ bs, r) := by
  induction m generalizing p with
  | zero =>
      rw [Nat.zero_add]
      simp only [collect, Except.bind]
      cases collect g e k n p <;> rfl
  | succ m ih =>
      rw [Nat.succ_add]
      simp only [collect]
      cases attempt g e k p with
      | error e' => rfl
      | ok first =>
          obtain ⟨a, q⟩ := first
          simp only [Except.bind, ih]
          cases collect g e k m q with
          | error e' => rfl
          | ok rest =>
              obtain ⟨as, r⟩ := rest
              simp only [Except.map]
              cases collect g e k n r <;> rfl

end Retry
