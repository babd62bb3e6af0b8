import Mathlib.Data.List.DropRight
import Mathlib.Algebra.BigOperators.Group.List.Basic
import Mathlib.Algebra.GroupWithZero.Nat
import Mathlib.Tactic.Common

/-! # Guarded transition systems and their histories

A transition system is a partial step function: `step s a` is the state after the label
`a`, and `none` when `a` is not enabled in `s`.  A *history* is a list of labels, oldest
first, and `run s h` is the state it leads to.  Labels carry everything a step is free to
choose (who moves, what is read, what the environment supplies), so a history determines
its states and a concrete run can be evaluated.

* `history_induction` is the rule for facts about a history and the state it leads to;
  `invariant` and `invariant_on` are its instances for facts about the state alone.
* `run_flatMap` transports runs along a map of states and labels (one step may become any
  number of steps), which is how a component is projected out of a system.
* `Throughout` says that a predicate holds in every state of a run, and `countP_le` bounds
  how often labels occur in such a run; `filterMap_split` bounds how many of the values that
  labels carry come before the good ones.
* `potential` bounds the cost of a run by a potential that its labels may refill.
* `sinceLast p h` is the part of a history after the last label satisfying `p`,
  `inOrder ps h` says that labels satisfying the predicates `ps` occur in `h` in that
  order, and `Always P h` that `P` holds of each label and what came before it. -/

/-- A transition system with a guarded step function. -/
structure Lts (σ ε : Type*) where
  step : σ → ε → Option σ

namespace Lts

variable {σ ε : Type*} (m : Lts σ ε)

/-- The state after the history `h`; `none` when some label is not enabled. -/
def run (s : σ) (h : List ε) : Option σ := h.foldlM m.step s

@[simp] theorem run_nil (s : σ) : m.run s [] = some s := rfl

theorem run_cons (s : σ) (a : ε) (h : List ε) :
    m.run s (a :: h) = (m.step s a).bind (m.run · h) := by
  simp [run, List.foldlM_cons]

theorem run_append (s : σ) (h k : List ε) :
    m.run s (h ++ k) = (m.run s h).bind (m.run · k) := by
  simp [run, List.foldlM_append]

theorem run_append_iff {s u : σ} {h k : List ε} :
    m.run s (h ++ k) = some u ↔ ∃ t, m.run s h = some t ∧ m.run t k = some u := by
  rw [run_append, Option.bind_eq_some_iff]

theorem run_cons_iff {s u : σ} {a : ε} {h : List ε} :
    m.run s (a :: h) = some u ↔ ∃ t, m.step s a = some t ∧ m.run t h = some u := by
  rw [run_cons, Option.bind_eq_some_iff]

theorem run_singleton (s : σ) (a : ε) : m.run s [a] = m.step s a := by
  rw [run_cons]
  cases m.step s a <;> rfl

theorem run_snoc_iff {s u : σ} {h : List ε} {a : ε} :
    m.run s (h ++ [a]) = some u ↔ ∃ t, m.run s h = some t ∧ m.step t a = some u := by
  simp only [run_append_iff, run_singleton]

theorem run_split {s u : σ} {h k : List ε} {a : ε} (hr : m.run s (h ++ a :: k) = some u) :
    ∃ t t', m.run s h = some t ∧ m.step t a = some t' ∧ m.run t' k = some u := by
  obtain ⟨t, ht, hk⟩ := m.run_append_iff.mp hr
  obtain ⟨t', hs, hk'⟩ := m.run_cons_iff.mp hk
  exact ⟨t, t', ht, hs, hk'⟩

/-! ### Induction over runs -/

section induction
variable {m} {s : σ}

/-- A fact about a history and the state it leads to, kept by every step. -/
theorem history_induction {P : List ε → σ → Prop} (h0 : P [] s)
    (hstep : ∀ h t a u, m.run s h = some t → P h t → m.step t a = some u → P (h ++ [a]) u) :
    ∀ {h : List ε} {t : σ}, m.run s h = some t → P h t := by
  intro h
  induction h using List.reverseRecOn with
  | nil =>
      intro t hr
      cases hr
      exact h0
  | append_singleton h a ih =>
      intro u hr
      obtain ⟨t, ht, hs⟩ := m.run_snoc_iff.mp hr
      exact hstep h t a u ht (ih ht) hs

/-- An invariant kept by the steps whose label satisfies `Q` holds after every history of
such labels. -/
theorem invariant_on {P : σ → Prop} {Q : ε → Prop}
    (hstep : ∀ t a u, Q a → P t → m.step t a = some u → P u) :
    ∀ {h : List ε} {s t : σ}, P s → (∀ a ∈ h, Q a) → m.run s h = some t → P t
  | [], s, t, hs, _, hr => by
      cases hr
      exact hs
  | a :: h, s, t, hs, hQ, hr => by
      obtain ⟨s', hs', hr'⟩ := m.run_cons_iff.mp hr
      have hP := hstep s a s' (hQ a List.mem_cons_self) hs hs'
      exact invariant_on hstep hP (fun b hb => hQ b (List.mem_cons_of_mem _ hb)) hr'

theorem invariant {P : σ → Prop} (hstep : ∀ t a u, P t → m.step t a = some u → P u)
    {h : List ε} {t : σ} (hs : P s) (hr : m.run s h = some t) : P t :=
  invariant_on (Q := fun _ => True) (fun t a u _ => hstep t a u) hs (fun _ _ => trivial) hr

/-- What a step can do to a component of the state determines what a run does to it. -/
theorem run_foldl {α : Type*} (f : σ → α) (g : α → ε → α)
    (hstep : ∀ t a u, m.step t a = some u → f u = g (f t) a) :
    ∀ {h : List ε} {s t : σ}, m.run s h = some t → f t = h.foldl g (f s)
  | [], s, t, hr => by
      cases hr
      rfl
  | a :: h, s, t, hr => by
      obtain ⟨s', hs', hr'⟩ := m.run_cons_iff.mp hr
      rw [run_foldl f g hstep hr', hstep s a s' hs', List.foldl_cons]

end induction

/-! ### Maps between transition systems -/

/-- If every step of `m` is matched under `f` by the run `g a` of `m'`, then so is every
run. -/
theorem run_flatMap {τ δ : Type*} (m' : Lts τ δ) (f : σ → τ) (g : ε → List δ)
    (hstep : ∀ s a t, m.step s a = some t → m'.run (f s) (g a) = some (f t)) :
    ∀ {h : List ε} {s t : σ}, m.run s h = some t → m'.run (f s) (h.flatMap g) = some (f t)
  | [], s, t, hr => by
      cases hr
      rfl
  | a :: h, s, t, hr => by
      obtain ⟨s', hs', hr'⟩ := m.run_cons_iff.mp hr
      rw [List.flatMap_cons]
      exact m'.run_append_iff.mpr ⟨f s', hstep s a s' hs', run_flatMap m' f g hstep hr'⟩

/-! ### Predicates that hold throughout a run -/

/-- `P` holds in `s` and in every later state of the run of `h` from `s`. -/
def Throughout (P : σ → Prop) : σ → List ε → Prop
  | s, [] => P s
  | s, a :: h => P s ∧ ∀ t, m.step s a = some t → Throughout P t h

theorem Throughout.start {P : σ → Prop} {s : σ} {h : List ε} (ht : m.Throughout P s h) :
    P s := by
  cases h with
  | nil => exact ht
  | cons a h => exact ht.1

/-- Labels paid for by a potential: if every step from a state satisfying `P` lowers `μ` by
one when its label satisfies `p`, and does not raise it otherwise, then a run throughout
which `P` holds has no more such labels than the potential spent. -/
theorem countP_le {P : σ → Prop} (p : ε → Bool) (μ : σ → ℕ)
    (hstep : ∀ t a u, P t → m.step t a = some u → (if p a then 1 else 0) + μ u ≤ μ t) :
    ∀ {h : List ε} {s t : σ}, m.Throughout P s h → m.run s h = some t →
      h.countP p + μ t ≤ μ s
  | [], s, t, _, hr => by
      cases hr
      simp
  | a :: h, s, t, hP, hr => by
      obtain ⟨s', hs', hr'⟩ := m.run_cons_iff.mp hr
      have h1 := hstep s a s' hP.1 hs'
      have h2 := countP_le p μ hstep (hP.2 s' hs') hr'
      rw [List.countP_cons]
      omega

/-- Labels paid for by a potential that some labels refill: under the invariant `P`, a step
costs no more than the potential it spends and what its label gains. -/
theorem potential {P : σ → Prop} {Q : ε → Prop} (cost gain : ε → ℕ) (μ : σ → ℕ)
    (hstep : ∀ t a u, P t → Q a → m.step t a = some u →
      P u ∧ cost a + μ u ≤ μ t + gain a) :
    ∀ {h : List ε} {s t : σ}, P s → (∀ a ∈ h, Q a) → m.run s h = some t →
      (h.map cost).sum + μ t ≤ μ s + (h.map gain).sum
  | [], s, t, _, _, hr => by
      cases hr
      exact Nat.le_of_eq (Nat.zero_add _)
  | a :: h, s, t, hs, hQ, hr => by
      obtain ⟨s', hs', hr'⟩ := m.run_cons_iff.mp hr
      obtain ⟨hP, hle⟩ := hstep s a s' hs (hQ a List.mem_cons_self) hs'
      have hQ' : ∀ b ∈ h, Q b := fun b hb => hQ b (List.mem_cons_of_mem _ hb)
      have hrest := potential cost gain μ hstep hP hQ' hr'
      rw [List.map_cons, List.map_cons, List.sum_cons, List.sum_cons]
      omega

/-- Values read off the labels, of which only the first few are bad: if no step raises the
potential `μ`, and a step with a value lowers it or finds it zero and the value good, then
at most `μ s` values come before the good ones. -/
theorem filterMap_split {α : Type*} {P : σ → Prop} {Q : ε → Prop} {good : α → Prop}
    (f : ε → Option α) (μ : σ → ℕ)
    (hstep : ∀ t a u, P t → Q a → m.step t a = some u →
      P u ∧ μ u ≤ μ t ∧ ∀ x, f a = some x → μ u < μ t ∨ (μ t = 0 ∧ good x)) :
    ∀ {h : List ε} {s t : σ}, P s → (∀ a ∈ h, Q a) → m.run s h = some t →
      ∃ bad rest, h.filterMap f = bad ++ rest ∧ bad.length ≤ μ s ∧ ∀ x ∈ rest, good x
  | [], s, t, _, _, _ => ⟨[], [], rfl, by simp, by simp⟩
  | a :: h, s, t, hs, hQ, hr => by
      obtain ⟨s', hs', hr'⟩ := m.run_cons_iff.mp hr
      obtain ⟨hP, hle, hx⟩ := hstep s a s' hs (hQ a List.mem_cons_self) hs'
      obtain ⟨bad, rest, hsplit, hlen, hgood⟩ :=
        filterMap_split f μ hstep hP (fun b hb => hQ b (List.mem_cons_of_mem _ hb)) hr'
      rw [List.filterMap_cons]
      cases hfa : f a with
      | none => exact ⟨bad, rest, hsplit, by omega, hgood⟩
      | some x =>
          rcases hx x hfa with hlt | ⟨hzero, hgx⟩
          · refine ⟨x :: bad, rest, by simp [hsplit], ?_, hgood⟩
            rw [List.length_cons]
            omega
          · have hbad : bad = [] := List.length_eq_zero_iff.mp (by omega)
            subst hbad
            refine ⟨[], x :: rest, by simpa using hsplit, by simp, fun y hy => ?_⟩
            rcases List.mem_cons.mp hy with rfl | hy
            · exact hgx
            · exact hgood y hy

theorem Throughout.of_run {P : σ → Prop} :
    ∀ {h k : List ε} {s t : σ}, m.Throughout P s (h ++ k) → m.run s h = some t → P t
  | [], k, s, t, hP, hr => by
      cases hr
      exact hP.start
  | a :: h, k, s, t, hP, hr => by
      obtain ⟨s', hs', hr'⟩ := m.run_cons_iff.mp hr
      exact Throughout.of_run (hP.2 s' hs') hr'

instance decidableThroughout {P : σ → Prop} [DecidablePred P] :
    ∀ (s : σ) (h : List ε), Decidable (m.Throughout P s h)
  | s, [] => inferInstanceAs (Decidable (P s))
  | s, a :: h =>
      have : Decidable (∀ t, m.step s a = some t → m.Throughout P t h) :=
        match hs : m.step s a with
        | none => isTrue fun t ht => by cases ht
        | some t =>
            match decidableThroughout t h with
            | isTrue ht => isTrue fun u hu => by cases hu; exact ht
            | isFalse ht => isFalse fun hu => ht (hu t rfl)
      inferInstanceAs (Decidable (P s ∧ _))

end Lts

/-! ### Histories -/

section histories
variable {ε : Type*}

/-- The part of a history after the last label satisfying `p` (all of it if there is
none). -/
def sinceLast (p : ε → Bool) (h : List ε) : List ε := h.rtakeWhile fun a => !p a

variable {p : ε → Bool} {h : List ε} {a : ε}

@[simp] theorem sinceLast_nil (p : ε → Bool) : sinceLast p [] = [] := rfl

theorem sinceLast_snoc_of_pos (h : List ε) (ha : p a = true) : sinceLast p (h ++ [a]) = [] :=
  List.rtakeWhile_concat_neg _ _ _ (by simp [ha])

theorem sinceLast_snoc_of_neg (h : List ε) (ha : p a = false) :
    sinceLast p (h ++ [a]) = sinceLast p h ++ [a] :=
  List.rtakeWhile_concat_pos _ _ _ (by simp [ha])

/-- Only labels after the last one satisfying `p` matter for a continuation. -/
theorem sinceLast_append_of_forall (h : List ε) {k : List ε} (hp : ∀ b ∈ k, p b = false) :
    sinceLast p (h ++ k) = sinceLast p h ++ k := by
  induction k using List.reverseRecOn with
  | nil => simp
  | append_singleton k b ih =>
      have hb : p b = false := hp b (by simp)
      have hk : ∀ c ∈ k, p c = false := fun c hc => hp c (by simp [hc])
      rw [← List.append_assoc, sinceLast_snoc_of_neg _ hb, ih hk, List.append_assoc]

/-- Labels satisfying the predicates occur in the history, in this order. -/
def inOrder : List (ε → Bool) → List ε → Bool
  | [], _ => true
  | _ :: _, [] => false
  | p :: ps, a :: h => if p a then inOrder ps h else inOrder (p :: ps) h

@[simp] theorem inOrder_nil (h : List ε) : inOrder [] h = true := by
  rw [inOrder]

theorem inOrder_tail (p : ε → Bool) (ps : List (ε → Bool)) :
    ∀ h : List ε, inOrder (p :: ps) h = true → inOrder ps h = true
  | [], hp => by
      cases hp
  | a :: h, hp => by
      rw [inOrder] at hp
      have hps : inOrder ps h = true := by
        split_ifs at hp
        · exact hp
        · exact inOrder_tail p ps h hp
      cases ps with
      | nil => rw [inOrder_nil]
      | cons q ps =>
          rw [inOrder]
          split_ifs
          · exact inOrder_tail q ps h hps
          · exact hps

theorem inOrder_append_left {ps : List (ε → Bool)} {h : List ε} (hps : inOrder ps h = true) :
    ∀ k : List ε, inOrder ps (k ++ h) = true
  | [] => hps
  | a :: k => by
      have ih := inOrder_append_left hps k
      cases ps with
      | nil => rw [inOrder_nil]
      | cons p ps =>
          rw [List.cons_append, inOrder]
          split_ifs
          · exact inOrder_tail p ps _ ih
          · exact ih

theorem inOrder_split {p : ε → Bool} {ps : List (ε → Bool)} {a : ε} (ha : p a = true)
    (k : List ε) {h : List ε} (hps : inOrder ps h = true) :
    inOrder (p :: ps) (k ++ a :: h) = true := by
  refine inOrder_append_left ?_ k
  rw [inOrder, if_pos ha]
  exact hps

/-- A last label completes the order exactly when it satisfies the last predicate and the
others occurred before it. -/
theorem inOrder_snoc (p : ε → Bool) (a : ε) :
    ∀ (ps : List (ε → Bool)) (h : List ε),
      inOrder (ps ++ [p]) (h ++ [a]) = (inOrder (ps ++ [p]) h || (inOrder ps h && p a))
  | [], [] => by
      simp [inOrder]
  | q :: ps, [] => by
      cases ps <;> simp [inOrder]
  | [], b :: h => by
      have ih := inOrder_snoc p a [] h
      simp only [List.nil_append, List.cons_append, inOrder, Bool.true_and] at ih ⊢
      split_ifs
      · rfl
      · exact ih
  | q :: ps, b :: h => by
      simp only [List.cons_append, inOrder]
      split_ifs
      · exact inOrder_snoc p a ps h
      · exact inOrder_snoc p a (q :: ps) h

theorem inOrder_of_forall {ps : List (ε → Bool)} (hp : ∀ b ∈ h, p b = false) :
    inOrder (p :: ps) h = false := by
  induction h with
  | nil => rfl
  | cons b h ih =>
      rw [inOrder, hp b List.mem_cons_self, if_neg (by simp)]
      exact ih fun c hc => hp c (List.mem_cons_of_mem _ hc)

theorem append_eq_append_cons {h k h₁ h₂ : List ε} {a : ε} (he : h ++ k = h₁ ++ a :: h₂) :
    (∃ m, h = h₁ ++ a :: m ∧ h₂ = m ++ k) ∨ (∃ m, k = m ++ a :: h₂ ∧ h₁ = h ++ m) := by
  rcases List.append_eq_append_iff.mp he with ⟨m, hm, hk⟩ | ⟨m, hm, hk⟩
  · exact Or.inr ⟨m, hk, hm⟩
  · cases m with
    | nil =>
        rw [List.nil_append] at hk
        exact Or.inr ⟨[], by simp [hk], by simpa using hm.symm⟩
    | cons b m =>
        rw [List.cons_append, List.cons.injEq] at hk
        obtain ⟨rfl, rfl⟩ := hk
        exact Or.inl ⟨m, hm, rfl⟩

/-! ### What holds at every label -/

/-- `P` holds of every label of the history and what came before it. -/
def Always (P : List ε → ε → Prop) (h : List ε) : Prop :=
  ∀ h₁ a h₂, h = h₁ ++ a :: h₂ → P h₁ a

variable {P : List ε → ε → Prop}

theorem Always.prefix {k : List ε} (hP : Always P (h ++ k)) : Always P h := by
  rintro h₁ b h₂ rfl
  exact hP h₁ b (h₂ ++ k) (by simp)

theorem Always.last (hP : Always P (h ++ [a])) : P h a := hP h a [] rfl

theorem Always.nil : Always P ([] : List ε) := by
  intro h₁ b h₂ he
  simp at he

theorem Always.snoc (hP : Always P h) (ha : P h a) : Always P (h ++ [a]) := by
  intro h₁ b h₂ he
  rcases append_eq_append_cons he with ⟨k, rfl, rfl⟩ | ⟨k, hk, rfl⟩
  · exact hP h₁ b k rfl
  · rcases List.singleton_eq_append_iff.mp hk with ⟨rfl, hb⟩ | ⟨-, hb⟩
    · cases hb
      simpa using ha
    · cases hb

/-- Labels of which `P` holds whatever came before them may follow. -/
theorem Always.append {k : List ε} (hP : Always P h) (hk : ∀ b ∈ k, ∀ h₁, P h₁ b) :
    Always P (h ++ k) := by
  intro h₁ b h₂ he
  rcases append_eq_append_cons he with ⟨m, rfl, rfl⟩ | ⟨m, rfl, rfl⟩
  · exact hP h₁ b m rfl
  · exact hk b (by simp) _

theorem always_iff_take :
    Always P h ↔ ∀ n : Fin h.length, P (h.take n) h[n] := by
  constructor
  · intro hP n
    exact hP _ _ (h.drop (n + 1)) (by simp)
  · rintro hP h₁ b h₂ rfl
    have := hP ⟨h₁.length, by simp⟩
    simpa using this

instance [∀ h a, Decidable (P h a)] : Decidable (Always P h) :=
  decidable_of_iff _ always_iff_take.symm

end histories
