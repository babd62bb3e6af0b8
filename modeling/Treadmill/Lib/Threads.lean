import Mathlib.Logic.Function.Basic
import Treadmill.Lib.Lts

/-! # Threads over a shared memory

A system of threads, indexed by `ι`, that share one memory and interleave atomic
operations.  An operation `o : ω` carries what it reads as well as what it writes:
`access i m o` is the memory after thread `i` performs `o` (`none` when the memory does not
allow it, for instance because `o` claims to read another value), and `thread i` is the
control of thread `i` alone, which may move on `o` whatever the memory holds.

A history of the system is a list of pairs of a thread and its operation.  `own i h` are
the operations of thread `i`, in order.  Each thread runs through its own operations
(`thread_run`), so a fact about the control flow of one thread needs nothing of the others;
a fact about the memory follows each step (`step_mem`) and needs nothing of the control. -/

/-- A memory and the control of each thread. -/
structure Threads (ι : Type*) (τ : ι → Type*) (μ ω : Type*) where
  access : ι → μ → ω → Option μ
  thread : (i : ι) → τ i → ω → Option (τ i)

namespace Threads

variable {ι : Type*} {τ : ι → Type*} {μ ω : Type*}

/-- A state of the system: the memory, and where each thread is. -/
structure State (τ : ι → Type*) (μ : Type*) where
  mem : μ
  loc : (i : ι) → τ i

variable [DecidableEq ι] (p : Threads ι τ μ ω)

/-- The interleaving of the threads: one of them performs one operation. -/
def lts : Lts (State τ μ) (ι × ω) where
  step s a :=
    (p.access a.1 s.mem a.2).bind fun m =>
      (p.thread a.1 (s.loc a.1) a.2).map fun t => ⟨m, Function.update s.loc a.1 t⟩

/-- The control of thread `i` alone. -/
def control (i : ι) : Lts (τ i) ω where
  step t o := p.thread i t o

/-- The operations of thread `i` in a history. -/
def own (i : ι) (h : List (ι × ω)) : List ω :=
  h.flatMap fun a => if a.1 = i then [a.2] else []

theorem own_append (i : ι) (h k : List (ι × ω)) : own i (h ++ k) = own i h ++ own i k := by
  simp [own]

@[simp] theorem own_singleton_self (i : ι) (o : ω) : own i [(i, o)] = [o] := by simp [own]

theorem own_singleton_of_ne {i j : ι} (o : ω) (hj : j ≠ i) : own i [(j, o)] = [] := by
  simp [own, hj]

@[simp] theorem mem_own {i : ι} {o : ω} {h : List (ι × ω)} : o ∈ own i h ↔ (i, o) ∈ h := by
  simp only [own, List.mem_flatMap]
  constructor
  · rintro ⟨⟨j, o'⟩, hm, ho⟩
    by_cases hj : j = i
    · subst hj
      simp only [↓reduceIte, List.mem_singleton] at ho
      rw [ho]
      exact hm
    · simp [hj] at ho
  · intro hm
    exact ⟨(i, o), hm, by simp⟩

section step
variable {p} {s s' : State τ μ} {i : ι} {o : ω}

/-- What one step does: the memory performs the operation and the control of its thread
moves on it. -/
theorem step_iff : p.lts.step s (i, o) = some s' ↔
    ∃ m t, p.access i s.mem o = some m ∧ p.thread i (s.loc i) o = some t ∧
      s' = ⟨m, Function.update s.loc i t⟩ := by
  simp only [lts, Option.bind_eq_some_iff, Option.map_eq_some_iff]
  constructor
  · rintro ⟨m, hm, t, ht, rfl⟩
    exact ⟨m, t, hm, ht, rfl⟩
  · rintro ⟨m, t, hm, ht, rfl⟩
    exact ⟨m, hm, t, ht, rfl⟩

theorem step_mem (hs : p.lts.step s (i, o) = some s') :
    p.access i s.mem o = some s'.mem := by
  obtain ⟨m, t, hm, -, rfl⟩ := step_iff.mp hs
  exact hm

theorem step_loc (hs : p.lts.step s (i, o) = some s') :
    p.thread i (s.loc i) o = some (s'.loc i) := by
  obtain ⟨m, t, -, ht, rfl⟩ := step_iff.mp hs
  simpa using ht

theorem step_frame (hs : p.lts.step s (i, o) = some s') {j : ι} (hj : j ≠ i) :
    s'.loc j = s.loc j := by
  obtain ⟨m, t, -, -, rfl⟩ := step_iff.mp hs
  exact Function.update_of_ne hj _ _

end step

section run
variable {p} {s s' : State τ μ} {h : List (ι × ω)}

/-- Each thread runs through its own operations. -/
theorem thread_run (i : ι) (hr : p.lts.run s h = some s') :
    (p.control i).run (s.loc i) (own i h) = some (s'.loc i) := by
  refine p.lts.run_flatMap (p.control i) (fun s => s.loc i) _ ?_ hr
  rintro s ⟨j, o⟩ t hs
  by_cases hj : j = i
  · subst hj
    simp only [↓reduceIte, Lts.run_singleton]
    exact step_loc hs
  · simp only [hj, ↓reduceIte, Lts.run_nil]
    rw [step_frame hs (Ne.symm hj)]

/-- A fact about one thread kept by that thread's operations holds after every history. -/
theorem loc_invariant {i : ι} {P : τ i → Prop}
    (hstep : ∀ t o t', P t → p.thread i t o = some t' → P t') (h0 : P (s.loc i))
    (hr : p.lts.run s h = some s') : P (s'.loc i) :=
  Lts.invariant (m := p.control i) (fun t o t' ht hs => hstep t o t' ht hs) h0 (thread_run i hr)

/-- A fact about every thread kept by the thread that moves holds after every history. -/
theorem forall_loc {P : (i : ι) → τ i → Prop}
    (hstep : ∀ i t o t', P i t → p.thread i t o = some t' → P i t')
    (h0 : ∀ i, P i (s.loc i)) (hr : p.lts.run s h = some s') (i : ι) : P i (s'.loc i) :=
  loc_invariant (hstep i) (h0 i) hr

end run

end Threads
