import Mathlib.Data.List.Pairwise
import Mathlib.Logic.Function.Basic
import Treadmill.Lib.Lts

/-! # Linearizability

An object is given by what each operation does to its state and returns (`Object`).  Clients call
its operations concurrently; a history of calls and returns (`Mark`) is *linearizable* when the
operations that returned, and some of those that have not yet, can be put in an order in which
the object alone gives the same responses, and in which no operation comes before one that had
returned before it was called (`Linearizes`).

An operation is known by the position of its call in the history.

`Object.atomic` is the object as its clients should see it: between its call and its return an
operation takes effect at one point.  Every history of it is linearizable, in the order of the
points (`atomic_linearizable`), so a program whose steps map to steps of `atomic` needs no other
proof. -/

/-- A sequential object: the state after an operation, and its response. -/
structure Object (σ ι ρ : Type*) where
  apply : σ → ι → σ × ρ

/-- A client calls an operation, or its operation returns. -/
inductive Mark (κ ι ρ : Type*) where
  | call (k : κ) (i : ι)
  | ret (k : κ) (r : ρ)
deriving DecidableEq, Repr

/-- Whose mark it is. -/
def Mark.client {κ ι ρ : Type*} : Mark κ ι ρ → κ
  | .call k _ => k
  | .ret k _ => k

/-! ### Operations in a history -/

section operations
variable {κ ι ρ : Type*} {h : List (Mark κ ι ρ)} {a : Mark κ ι ρ} {k : κ} {i : ι} {r : ρ}
  {n m : ℕ}

/-- The client called the operation `n`, and has made no mark since. -/
def Pending (h : List (Mark κ ι ρ)) (k : κ) (n : ℕ) (i : ι) : Prop :=
  h[n]? = some (.call k i) ∧ ∀ m b, n < m → h[m]? = some b → b.client ≠ k

/-- The operation `n` returned with `r` at position `m`. -/
def Returns (h : List (Mark κ ι ρ)) (n m : ℕ) (r : ρ) : Prop :=
  ∃ k i, Pending (h.take m) k n i ∧ h[m]? = some (.ret k r)

theorem Pending.lt (hp : Pending h k n i) : n < h.length :=
  (List.getElem?_eq_some_iff.mp hp.1).1

theorem Returns.lt_length (hr : Returns h n m r) : m < h.length := by
  obtain ⟨k, i, -, hm⟩ := hr
  exact (List.getElem?_eq_some_iff.mp hm).1

theorem Pending.unique {n' : ℕ} {i' : ι} (hp : Pending h k n i) (hp' : Pending h k n' i') :
    n' = n ∧ i' = i := by
  have hn : n' = n := by
    rcases Nat.lt_trichotomy n n' with hlt | heq | hgt
    · exact absurd rfl (hp.2 n' _ hlt hp'.1)
    · exact heq.symm
    · exact absurd rfl (hp'.2 n _ hgt hp.1)
  subst hn
  have := hp.1.symm.trans hp'.1
  simp only [Option.some.injEq, Mark.call.injEq, true_and] at this
  exact ⟨rfl, this.symm⟩

theorem Pending.not_returns (hp : Pending h k n i) : ¬ Returns h n m r := by
  rintro ⟨k', i', hp', hm⟩
  have hn : n < m := by
    have := hp'.lt
    rw [List.length_take] at this
    omega
  have hk : h[n]? = some (.call k' i') := by
    have := hp'.1
    rwa [List.getElem?_take_of_lt hn] at this
  have heq := hp.1.symm.trans hk
  simp only [Option.some.injEq, Mark.call.injEq] at heq
  exact hp.2 m _ hn hm heq.1.symm

theorem getElem?_snoc {b : Mark κ ι ρ} :
    (h ++ [a])[m]? = some b ↔ h[m]? = some b ∨ (m = h.length ∧ b = a) := by
  rcases Nat.lt_trichotomy m h.length with hlt | rfl | hgt
  · rw [List.getElem?_append_left hlt]
    simp [hlt.ne]
  · simp [eq_comm]
  · have hnone : ∀ {l : List (Mark κ ι ρ)}, l.length ≤ m → l[m]? ≠ some b := by
      intro l hl he
      rw [List.getElem?_eq_none hl] at he
      cases he
    have hsnoc : (h ++ [a]).length ≤ m := by
      rw [List.length_append, List.length_singleton]
      exact hgt
    constructor
    · exact fun he => absurd he (hnone hsnoc)
    · rintro (he | ⟨rfl, -⟩)
      · exact absurd he (hnone hgt.le)
      · exact absurd hgt (lt_irrefl _)

theorem pending_snoc : Pending (h ++ [a]) k n i ↔
    (Pending h k n i ∧ a.client ≠ k) ∨ (n = h.length ∧ a = .call k i) := by
  constructor
  · rintro ⟨hn, hlater⟩
    rcases getElem?_snoc.mp hn with hn | ⟨rfl, ha⟩
    · have hlt := (List.getElem?_eq_some_iff.mp hn).1
      refine Or.inl ⟨⟨hn, fun m b hm hb => ?_⟩, hlater h.length a hlt (by simp)⟩
      exact hlater m b hm (getElem?_snoc.mpr (Or.inl hb))
    · exact Or.inr ⟨rfl, ha.symm⟩
  · rintro (⟨hp, ha⟩ | ⟨rfl, rfl⟩)
    · refine ⟨getElem?_snoc.mpr (Or.inl hp.1), fun m b hm hb => ?_⟩
      rcases getElem?_snoc.mp hb with hb | ⟨-, rfl⟩
      · exact hp.2 m b hm hb
      · exact ha
    · refine ⟨by simp, fun m b hm hb => ?_⟩
      have := (List.getElem?_eq_some_iff.mp hb).1
      simp only [List.length_append, List.length_singleton] at this
      omega

theorem returns_snoc : Returns (h ++ [a]) n m r ↔
    Returns h n m r ∨ (m = h.length ∧ ∃ k i, Pending h k n i ∧ a = .ret k r) := by
  constructor
  · rintro ⟨k, i, hp, hm⟩
    rcases getElem?_snoc.mp hm with hm | ⟨rfl, rfl⟩
    · have hlt := (List.getElem?_eq_some_iff.mp hm).1
      rw [List.take_append_of_le_length hlt.le] at hp
      exact Or.inl ⟨k, i, hp, hm⟩
    · rw [List.take_left] at hp
      exact Or.inr ⟨rfl, k, i, hp, rfl⟩
  · rintro (hr | ⟨rfl, k, i, hp, rfl⟩)
    · have hlt := hr.lt_length
      obtain ⟨k, i, hp, hm⟩ := hr
      refine ⟨k, i, ?_, getElem?_snoc.mpr (Or.inl hm)⟩
      rw [List.take_append_of_le_length hlt.le]
      exact hp
    · exact ⟨k, i, by rw [List.take_left]; exact hp, by simp⟩

end operations

/-! ### Linearizable histories -/

/-- An operation in the sequential order, with its input and its response. -/
structure Slot (ι ρ : Type*) where
  operation : ℕ
  input : ι
  response : ρ
deriving DecidableEq, Repr

namespace Object

variable {σ κ ι ρ : Type*} (O : Object σ ι ρ)

/-- The object alone, asked in this order, gives these responses. -/
def Legal : σ → List (Slot ι ρ) → Prop
  | _, [] => True
  | s, e :: l => (O.apply s e.input).2 = e.response ∧ Legal (O.apply s e.input).1 l

/-- The state of the object after these operations. -/
def final (s : σ) (l : List (Slot ι ρ)) : σ := l.foldl (fun s e => (O.apply s e.input).1) s

theorem final_snoc (s : σ) (l : List (Slot ι ρ)) (e : Slot ι ρ) :
    O.final s (l ++ [e]) = (O.apply (O.final s l) e.input).1 := by
  simp [final]

theorem legal_snoc (l : List (Slot ι ρ)) (e : Slot ι ρ) : ∀ s : σ,
    O.Legal s (l ++ [e]) ↔ O.Legal s l ∧ (O.apply (O.final s l) e.input).2 = e.response := by
  induction l with
  | nil =>
      intro s
      simp [Legal, final]
  | cons b l ih =>
      intro s
      rw [List.cons_append, Legal, Legal, ih, and_assoc]
      rfl

/-- The operations of a history in an order that explains it. -/
structure Linearizes (s : σ) (h : List (Mark κ ι ρ)) (l : List (Slot ι ρ)) : Prop where
  legal : O.Legal s l
  nodup : (l.map Slot.operation).Nodup
  called : ∀ e ∈ l, ∃ k, h[e.operation]? = some (.call k e.input)
  returned : ∀ n m r, Returns h n m r → ∃ e ∈ l, e.operation = n ∧ e.response = r
  /-- an operation comes after those that had returned when it was called -/
  realTime : l.Pairwise fun e e' => ∀ m r, Returns h e'.operation m r → e.operation < m

/-- The history can be explained by the object alone. -/
def Linearizable (s : σ) (h : List (Mark κ ι ρ)) : Prop := ∃ l, O.Linearizes s h l

/-- Every response was given by the object in some state. -/
theorem Legal.response {l : List (Slot ι ρ)} : ∀ {s : σ}, O.Legal s l →
    ∀ e ∈ l, ∃ t, (O.apply t e.input).2 = e.response := by
  induction l with
  | nil => simp
  | cons b l ih =>
      rintro s ⟨hb, hl⟩ e he
      rcases List.mem_cons.mp he with rfl | he
      · exact ⟨s, hb⟩
      · exact ih hl e he

theorem Linearizes.slot {O : Object σ ι ρ} {s : σ} {h : List (Mark κ ι ρ)} {l : List (Slot ι ρ)}
    (hl : O.Linearizes s h l) {n m : ℕ} {k : κ} {i : ι} {r : ρ} (hcall : h[n]? = some (.call k i))
    (hret : Returns h n m r) : ⟨n, i, r⟩ ∈ l := by
  obtain ⟨e, he, rfl, rfl⟩ := hl.returned n m r hret
  obtain ⟨k', hcall'⟩ := hl.called e he
  rw [hcall] at hcall'
  cases hcall'
  exact he

/-- Of two operations in the order one comes first, and then the other did not return before it
was called. -/
theorem Linearizes.order {O : Object σ ι ρ} {s : σ} {h : List (Mark κ ι ρ)} {l : List (Slot ι ρ)}
    (hl : O.Linearizes s h l) {P : Slot ι ρ → Slot ι ρ → Prop} (hP : l.Pairwise P)
    {e e' : Slot ι ρ} (he : e ∈ l) (he' : e' ∈ l) (hne : e ≠ e') :
    (P e e' ∧ ∀ m r, Returns h e'.operation m r → e.operation < m) ∨
      (P e' e ∧ ∀ m r, Returns h e.operation m r → e'.operation < m) := by
  let before (a b : Slot ι ρ) : Prop := P a b ∧ ∀ m r, Returns h b.operation m r → a.operation < m
  have hsymm : Std.Symm fun a b => before a b ∨ before b a := ⟨fun _ _ hab => hab.symm⟩
  have hbefore : l.Pairwise before := List.Pairwise.and hP hl.realTime
  have heither : l.Pairwise fun a b => before a b ∨ before b a :=
    hbefore.imp fun {a b} hab => Or.inl hab
  exact heither.forall he he' hne

/-! ### The atomic object -/

/-- Where a client is: in no operation, or before or after the point of one. -/
inductive Phase (ι ρ : Type*) where
  | idle
  | called (i : ι)
  | done (r : ρ)
deriving DecidableEq, Repr

/-- The object, and where its clients are. -/
structure Atomic (σ κ ι ρ : Type*) where
  value : σ
  phase : κ → Phase ι ρ

/-- A mark, or the point at which the operation of a client takes effect. -/
inductive Step (κ ι ρ : Type*) where
  | mark (a : Mark κ ι ρ)
  | point (k : κ)
deriving DecidableEq, Repr

/-- The calls and returns among the steps. -/
def marks (h : List (Step κ ι ρ)) : List (Mark κ ι ρ) :=
  h.filterMap fun
    | .mark a => some a
    | .point _ => none

variable [DecidableEq κ] [DecidableEq ρ]

/-- The object whose operations take effect at one point between call and return. -/
def atomic : Lts (Atomic σ κ ι ρ) (Step κ ι ρ) where
  step s
    | .mark (.call k i) =>
        match s.phase k with
        | .idle => some { s with phase := Function.update s.phase k (.called i) }
        | _ => none
    | .point k =>
        match s.phase k with
        | .called i =>
            some ⟨(O.apply s.value i).1,
              Function.update s.phase k (.done (O.apply s.value i).2)⟩
        | _ => none
    | .mark (.ret k r) =>
        match s.phase k with
        | .done r' =>
            if r' = r then some { s with phase := Function.update s.phase k .idle } else none
        | _ => none

section steps
variable {O} {t u : Atomic σ κ ι ρ} {k : κ} {i : ι} {r : ρ}

theorem step_call : O.atomic.step t (.mark (.call k i)) = some u ↔
    t.phase k = .idle ∧ u = { t with phase := Function.update t.phase k (.called i) } := by
  simp only [atomic]
  cases t.phase k with
  | idle => simp [eq_comm]
  | called i' => simp
  | done r' => simp

theorem step_point : O.atomic.step t (.point k) = some u ↔
    ∃ i, t.phase k = .called i ∧
      u = ⟨(O.apply t.value i).1, Function.update t.phase k (.done (O.apply t.value i).2)⟩ := by
  simp only [atomic]
  cases t.phase k with
  | idle => simp
  | called i => simp [eq_comm]
  | done r' => simp

theorem step_ret : O.atomic.step t (.mark (.ret k r)) = some u ↔
    t.phase k = .done r ∧ u = { t with phase := Function.update t.phase k .idle } := by
  simp only [atomic]
  cases t.phase k with
  | idle => simp
  | called i => simp
  | done r' =>
      by_cases hr : r' = r
      · simp [hr, eq_comm]
      · simp [hr]

end steps

/-- What the points so far say about the history: `l` linearizes it, and the phases of the
clients are those of their operations. -/
structure Explains (s : σ) (h : List (Mark κ ι ρ)) (t : Atomic σ κ ι ρ)
    (l : List (Slot ι ρ)) : Prop extends O.Linearizes s h l where
  value : O.final s l = t.value
  idle : ∀ k n i, t.phase k = .idle → ¬ Pending h k n i
  pending : ∀ k i, t.phase k = .called i → ∃ n, Pending h k n i ∧ n ∉ l.map Slot.operation
  done : ∀ k r, t.phase k = .done r →
    ∃ i, ∃ e ∈ l, Pending h k e.operation i ∧ e.response = r

section explains
variable {O} {s : σ} {h : List (Mark κ ι ρ)} {t u : Atomic σ κ ι ρ} {l : List (Slot ι ρ)} {k : κ}
  {i : ι} {r : ρ}

omit [DecidableEq κ] [DecidableEq ρ] in
theorem Linearizes.lt_length (hl : O.Linearizes s h l) {e : Slot ι ρ} (he : e ∈ l) :
    e.operation < h.length := by
  obtain ⟨k, hk⟩ := hl.called e he
  exact (List.getElem?_eq_some_iff.mp hk).1

omit [DecidableEq κ] [DecidableEq ρ] in
/-- A mark leaves the order as it is, if an operation that returns with it is in the order. -/
theorem Linearizes.snoc (hl : O.Linearizes s h l) {a : Mark κ ι ρ}
    (ha : ∀ k n i r, Pending h k n i → a = .ret k r → ∃ e ∈ l, e.operation = n ∧ e.response = r) :
    O.Linearizes s (h ++ [a]) l where
  legal := hl.legal
  nodup := hl.nodup
  called e he := by
    obtain ⟨k, hk⟩ := hl.called e he
    exact ⟨k, by rw [List.getElem?_append_left (hl.lt_length he)]; exact hk⟩
  returned n m r hr := by
    rcases returns_snoc.mp hr with hr | ⟨-, k, i, hp, rfl⟩
    · exact hl.returned n m r hr
    · exact ha k n i r hp rfl
  realTime := by
    refine hl.realTime.imp_of_mem fun {e e'} he he' hlt m r hr => ?_
    rcases returns_snoc.mp hr with hr | ⟨rfl, -⟩
    · exact hlt m r hr
    · exact hl.lt_length he

theorem Explains.call (hx : O.Explains s h t l)
    (hs : O.atomic.step t (.mark (.call k i)) = some u) :
    O.Explains s (h ++ [.call k i]) u l := by
  obtain ⟨hphase, rfl⟩ := step_call.mp hs
  have hlin := hx.toLinearizes.snoc (a := .call k i) (by rintro _ _ _ _ _ h; cases h)
  refine { hlin with value := hx.value, idle := ?_, pending := ?_, done := ?_ }
  · intro j n i' hj hp
    rcases pending_snoc.mp hp with ⟨hp, hne⟩ | ⟨-, he⟩
    · have hjk : j ≠ k := Ne.symm hne
      simp only [Function.update_of_ne hjk] at hj
      exact hx.idle j n i' hj hp
    · cases he
      simp at hj
  · intro j i' hj
    by_cases hjk : j = k
    · subst hjk
      simp only [Function.update_self, Phase.called.injEq] at hj
      subst hj
      refine ⟨h.length, pending_snoc.mpr (Or.inr ⟨rfl, rfl⟩), fun hm => ?_⟩
      obtain ⟨e, he, heq⟩ := List.mem_map.mp hm
      have := hx.toLinearizes.lt_length he
      omega
    · simp only [Function.update_of_ne hjk] at hj
      obtain ⟨n, hp, hn⟩ := hx.pending j i' hj
      exact ⟨n, pending_snoc.mpr (Or.inl ⟨hp, Ne.symm hjk⟩), hn⟩
  · intro j r hj
    by_cases hjk : j = k
    · subst hjk
      simp at hj
    · simp only [Function.update_of_ne hjk] at hj
      obtain ⟨i', e, he, hp, hr⟩ := hx.done j r hj
      exact ⟨i', e, he, pending_snoc.mpr (Or.inl ⟨hp, Ne.symm hjk⟩), hr⟩

/-- The operation of a client takes the last place when it takes effect. -/
theorem Explains.point (hx : O.Explains s h t l) (hs : O.atomic.step t (.point k) = some u) :
    ∃ l', O.Explains s h u l' := by
  obtain ⟨i, hphase, rfl⟩ := step_point.mp hs
  obtain ⟨n, hp, hn⟩ := hx.pending k i hphase
  let e : Slot ι ρ := ⟨n, i, (O.apply t.value i).2⟩
  refine ⟨l ++ [e], ⟨?_, ?_, ?_, ?_, ?_⟩, ?_, ?_, ?_, ?_⟩
  · rw [legal_snoc, hx.value]
    exact ⟨hx.legal, rfl⟩
  · rw [List.map_append, List.nodup_append]
    refine ⟨hx.nodup, by simp, ?_⟩
    rintro a ha b hb rfl
    obtain rfl := List.mem_singleton.mp hb
    exact hn ha
  · intro b hb
    rcases List.mem_append.mp hb with hb | hb
    · exact hx.called b hb
    · obtain rfl := List.mem_singleton.mp hb
      exact ⟨k, hp.1⟩
  · intro n' m r hr
    obtain ⟨b, hb, hop⟩ := hx.returned n' m r hr
    exact ⟨b, List.mem_append_left _ hb, hop⟩
  · -- the operation is still under way, so it has not returned before anything
    refine List.pairwise_append.mpr ⟨hx.realTime, by simp, ?_⟩
    intro a ha b hb m r hr
    obtain rfl := List.mem_singleton.mp hb
    exact absurd hr hp.not_returns
  · rw [final_snoc, hx.value]
  · intro j n' i' hj
    by_cases hjk : j = k
    · subst hjk
      simp at hj
    · simp only [Function.update_of_ne hjk] at hj
      exact hx.idle j n' i' hj
  · intro j i' hj
    by_cases hjk : j = k
    · subst hjk
      simp at hj
    · simp only [Function.update_of_ne hjk] at hj
      obtain ⟨n', hp', hn'⟩ := hx.pending j i' hj
      refine ⟨n', hp', ?_⟩
      rw [List.map_append, List.mem_append, not_or]
      refine ⟨hn', fun hm => ?_⟩
      have heq : n' = n := by simpa [e] using hm
      subst heq
      have := hp.1.symm.trans hp'.1
      simp only [Option.some.injEq, Mark.call.injEq] at this
      exact hjk this.1.symm
  · intro j r hj
    by_cases hjk : j = k
    · subst hjk
      simp only [Function.update_self, Phase.done.injEq] at hj
      exact ⟨i, e, by simp, hp, hj⟩
    · simp only [Function.update_of_ne hjk] at hj
      obtain ⟨i', b, hb, hp', hr⟩ := hx.done j r hj
      exact ⟨i', b, List.mem_append_left _ hb, hp', hr⟩

theorem Explains.ret (hx : O.Explains s h t l)
    (hs : O.atomic.step t (.mark (.ret k r)) = some u) :
    O.Explains s (h ++ [.ret k r]) u l := by
  obtain ⟨hphase, rfl⟩ := step_ret.mp hs
  obtain ⟨i, e, he, hp, hr⟩ := hx.done k r hphase
  have hlin := hx.toLinearizes.snoc (a := .ret k r) (by
    intro k' n' i' r' hp' heq
    cases heq
    obtain ⟨rfl, -⟩ := hp.unique hp'
    exact ⟨e, he, rfl, hr⟩)
  refine { hlin with value := hx.value, idle := ?_, pending := ?_, done := ?_ }
  · intro j n i' hj hp'
    rcases pending_snoc.mp hp' with ⟨hp', hne⟩ | ⟨-, heq⟩
    · have hjk : j ≠ k := Ne.symm hne
      simp only [Function.update_of_ne hjk] at hj
      exact hx.idle j n i' hj hp'
    · cases heq
  · intro j i' hj
    by_cases hjk : j = k
    · subst hjk
      simp at hj
    · simp only [Function.update_of_ne hjk] at hj
      obtain ⟨n, hp', hn⟩ := hx.pending j i' hj
      exact ⟨n, pending_snoc.mpr (Or.inl ⟨hp', Ne.symm hjk⟩), hn⟩
  · intro j r' hj
    by_cases hjk : j = k
    · subst hjk
      simp at hj
    · simp only [Function.update_of_ne hjk] at hj
      obtain ⟨i', b, hb, hp', hr'⟩ := hx.done j r' hj
      exact ⟨i', b, hb, pending_snoc.mpr (Or.inl ⟨hp', Ne.symm hjk⟩), hr'⟩

end explains

/-- **Every history of the atomic object is linearizable**, in the order of the points. -/
theorem atomic_linearizable {O : Object σ ι ρ} {s : σ} {h : List (Step κ ι ρ)}
    {t : Atomic σ κ ι ρ} (hr : O.atomic.run ⟨s, fun _ => .idle⟩ h = some t) :
    O.Linearizable s (marks h) := by
  suffices hx : ∃ l, O.Explains s (marks h) t l by
    obtain ⟨l, hl⟩ := hx
    exact ⟨l, hl.toLinearizes⟩
  refine Lts.history_induction (P := fun h t => ∃ l, O.Explains s (marks h) t l) ?_ ?_ hr
  · refine ⟨[], ⟨trivial, List.nodup_nil, by simp, ?_, List.Pairwise.nil⟩, rfl, ?_, ?_, ?_⟩
    · rintro n m r ⟨k, i, hp, -⟩
      have := hp.lt
      simp [marks] at this
    · intro k n i _ hp
      have := hp.lt
      simp [marks] at this
    · intro k i hk
      cases hk
    · intro k r hk
      cases hk
  · rintro h t a u - ⟨l, hl⟩ hs
    have hmarks : marks (h ++ [a]) = marks h ++ marks [a] := List.filterMap_append
    rw [hmarks]
    match a with
    | .mark (.call k i) => exact ⟨l, hl.call hs⟩
    | .mark (.ret k r) => exact ⟨l, hl.ret hs⟩
    | .point k =>
        obtain ⟨l', hl'⟩ := hl.point hs
        exact ⟨l', by simpa [marks] using hl'⟩

end Object
