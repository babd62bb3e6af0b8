import Treadmill.Lib.Linearizable
import Treadmill.Lib.SharedMutex

/-! # Monitors

Data under one lock (`Monitor`).  An operation takes the lock, shared if it only reads, runs
through the places of its critical section one step at a time, and releases the lock; the threads
interleave freely (`Monitor.lts`).

If the steps of every critical section add up to an operation of an object (`Implements`), then
every history of calls and returns is linearizable to that object (`Monitor.linearizable`): an
operation takes effect with the last step of its critical section. -/

/-- Data of type `σ` under one lock, and the critical sections of the operations on it. -/
structure Monitor (σ ι ρ π : Type*) where
  /-- the operation takes the lock as a reader -/
  shared : ι → Bool
  /-- the first place of the critical section -/
  enter : ι → π
  /-- a step: the data after it, and the next place or the result -/
  step : ι → π → σ → σ × (π ⊕ ρ)
  readOnly : ∀ i p s, shared i = true → (step i p s).1 = s

namespace Monitor

/-- Where a thread is. -/
inductive Pc (ι ρ π : Type*) where
  | idle
  /-- waits for the lock -/
  | called (i : ι)
  | inside (i : ι) (p : π)
  /-- holds the lock, with the result -/
  | finished (i : ι) (r : ρ)
  | released (r : ρ)
deriving DecidableEq, Repr

/-- A step of a thread. -/
inductive Op (ι ρ : Type*) where
  | call (i : ι)
  | acquire
  | work
  | release
  | ret (r : ρ)
deriving DecidableEq, Repr

/-- The data, the lock, and where the threads are. -/
structure State (σ κ ι ρ π : Type*) where
  data : σ
  lock : SharedMutex κ
  pc : κ → Pc ι ρ π

variable {σ κ ι ρ π : Type*} (M : Monitor σ ι ρ π)

/-- The interleavings of the threads. -/
def lts [DecidableEq κ] [DecidableEq ρ] : Lts (State σ κ ι ρ π) (κ × Op ι ρ) where
  step s a :=
    let goto (pc : Pc ι ρ π) : κ → Pc ι ρ π := Function.update s.pc a.1 pc
    match s.pc a.1, a.2 with
    | .idle, .call i => some { s with pc := goto (.called i) }
    | .called i, .acquire =>
        (if M.shared i then s.lock.lockShared a.1 else s.lock.lock a.1).map fun l =>
          { s with lock := l, pc := goto (.inside i (M.enter i)) }
    | .inside i p, .work =>
        some { s with
          data := (M.step i p s.data).1
          pc := goto (match (M.step i p s.data).2 with
            | .inl p' => .inside i p'
            | .inr r => .finished i r) }
    | .finished i r, .release =>
        (if M.shared i then s.lock.unlockShared a.1 else s.lock.unlock a.1).map fun l =>
          { s with lock := l, pc := goto (.released r) }
    | .released r, .ret r' => if r' = r then some { s with pc := goto .idle } else none
    | _, _ => none

/-- Nobody has called yet. -/
def start (s : σ) : State σ κ ι ρ π := ⟨s, .free, fun _ => .idle⟩

/-- The calls and returns of a history. -/
def marks (h : List (κ × Op ι ρ)) : List (Mark κ ι ρ) :=
  h.filterMap fun
    | (k, .call i) => some (.call k i)
    | (k, .ret r) => some (.ret k r)
    | _ => none

theorem marks_append (h h' : List (κ × Op ι ρ)) : marks (h ++ h') = marks h ++ marks h' :=
  List.filterMap_append

/-! ### What a critical section does -/

/-- From place `p` the critical section of `i` turns `s` into the data and the result `e`. -/
inductive Runs (i : ι) : π → σ → σ × ρ → Prop where
  | last {p : π} {s s' : σ} {r : ρ} : M.step i p s = (s', .inr r) → Runs i p s (s', r)
  | next {p p' : π} {s s' : σ} {e : σ × ρ} :
      M.step i p s = (s', .inl p') → Runs i p' s' e → Runs i p s e

/-- The critical sections do what the operations of the object say. -/
def Implements (O : Object σ ι ρ) : Prop := ∀ i s, M.Runs i (M.enter i) s (O.apply s i)

section runs
variable {M} {i : ι} {p : π} {s : σ} {e : σ × ρ}

theorem Runs.inl (h : M.Runs i p s e) {p' : π} (hp : (M.step i p s).2 = .inl p') :
    M.Runs i p' (M.step i p s).1 e := by
  cases h with
  | last hs =>
      rw [hs] at hp
      cases hp
  | next hs hr =>
      rw [hs] at hp ⊢
      cases hp
      exact hr

theorem Runs.inr (h : M.Runs i p s e) {r : ρ} (hp : (M.step i p s).2 = .inr r) :
    e = ((M.step i p s).1, r) := by
  cases h with
  | last hs =>
      rw [hs] at hp ⊢
      cases hp
      rfl
  | next hs hr =>
      rw [hs] at hp
      cases hp

end runs

/-! ### The steps -/

variable [DecidableEq κ]

/-- What a step of thread `k` is. -/
inductive Transition (s : State σ κ ι ρ π) (k : κ) : Op ι ρ → State σ κ ι ρ π → Prop where
  | call (i : ι) : s.pc k = .idle →
      Transition s k (.call i) { s with pc := Function.update s.pc k (.called i) }
  | acquireShared (i : ι) (l : SharedMutex κ) : s.pc k = .called i → M.shared i = true →
      s.lock.lockShared k = some l →
      Transition s k .acquire
        { s with lock := l, pc := Function.update s.pc k (.inside i (M.enter i)) }
  | acquire (i : ι) (l : SharedMutex κ) : s.pc k = .called i → M.shared i = false →
      s.lock.lock k = some l →
      Transition s k .acquire
        { s with lock := l, pc := Function.update s.pc k (.inside i (M.enter i)) }
  | next (i : ι) (p p' : π) : s.pc k = .inside i p → (M.step i p s.data).2 = .inl p' →
      Transition s k .work
        { s with
          data := (M.step i p s.data).1
          pc := Function.update s.pc k (.inside i p') }
  | last (i : ι) (p : π) (r : ρ) : s.pc k = .inside i p → (M.step i p s.data).2 = .inr r →
      Transition s k .work
        { s with
          data := (M.step i p s.data).1
          pc := Function.update s.pc k (.finished i r) }
  | releaseShared (i : ι) (r : ρ) (l : SharedMutex κ) : s.pc k = .finished i r →
      M.shared i = true → s.lock.unlockShared k = some l →
      Transition s k .release { s with lock := l, pc := Function.update s.pc k (.released r) }
  | release (i : ι) (r : ρ) (l : SharedMutex κ) : s.pc k = .finished i r →
      M.shared i = false → s.lock.unlock k = some l →
      Transition s k .release { s with lock := l, pc := Function.update s.pc k (.released r) }
  | ret (r : ρ) : s.pc k = .released r →
      Transition s k (.ret r) { s with pc := Function.update s.pc k .idle }

section steps
variable {M} {s s' : State σ κ ι ρ π} {k : κ} {o : Op ι ρ}

theorem transition_of_step [DecidableEq ρ] (h : M.lts.step s (k, o) = some s') :
    M.Transition s k o s' := by
  simp only [lts] at h
  split at h
  · rename_i i hpc
    cases h
    exact .call i hpc
  · rename_i i hpc
    obtain ⟨l, hl, rfl⟩ := Option.map_eq_some_iff.mp h
    split_ifs at hl with hi
    · exact .acquireShared i l hpc hi hl
    · exact .acquire i l hpc (by simpa using hi) hl
  · rename_i i p hpc
    cases h
    cases hstep : (M.step i p s.data).2 with
    | inl p' => exact .next i p p' hpc hstep
    | inr r => exact .last i p r hpc hstep
  · rename_i i r hpc
    obtain ⟨l, hl, rfl⟩ := Option.map_eq_some_iff.mp h
    split_ifs at hl with hi
    · exact .releaseShared i r l hpc hi hl
    · exact .release i r l hpc (by simpa using hi) hl
  · rename_i r r' hpc
    obtain ⟨rfl, rfl⟩ := Option.ite_some_none_eq_some.mp h
    exact .ret r' hpc
  · cases h

end steps

/-! ### Who holds the lock -/

/-- How a thread holds the lock: as a reader, as the writer, or not. -/
def holds : Pc ι ρ π → Option Bool
  | .inside i _ | .finished i _ => some (M.shared i)
  | .idle | .called _ | .released _ => none

@[simp] theorem holds_idle : M.holds (.idle : Pc ι ρ π) = none := rfl

@[simp] theorem holds_called (i : ι) : M.holds (.called i : Pc ι ρ π) = none := rfl

@[simp] theorem holds_inside (i : ι) (p : π) : M.holds (.inside i p) = some (M.shared i) := rfl

@[simp] theorem holds_finished (i : ι) (r : ρ) :
    M.holds (.finished i r : Pc ι ρ π) = some (M.shared i) := rfl

@[simp] theorem holds_released (r : ρ) : M.holds (.released r : Pc ι ρ π) = none := rfl

/-- The lock is held by the threads in a critical section. -/
def Locked (s : State σ κ ι ρ π) : Prop :=
  s.lock.Tracks (fun k => M.holds (s.pc k) = some true) fun k => M.holds (s.pc k) = some false

section locked
variable {M} {s s' : State σ κ ι ρ π} {k : κ} {o : Op ι ρ}

omit [DecidableEq κ] in
theorem locked_start (d : σ) : M.Locked (start d : State σ κ ι ρ π) :=
  SharedMutex.tracks_free (by simp [start]) (by simp [start])

theorem holds_update (pc : κ → Pc ι ρ π) (k j : κ) (q : Pc ι ρ π) (b : Bool) :
    M.holds (Function.update pc k q j) = some b ↔
      (j = k ∧ M.holds q = some b) ∨ (j ≠ k ∧ M.holds (pc j) = some b) := by
  by_cases hj : j = k
  · simp [hj]
  · simp [hj]

theorem holds_update_same {pc : κ → Pc ι ρ π} {q : Pc ι ρ π} (hq : M.holds q = M.holds (pc k))
    (j : κ) (b : Bool) :
    M.holds (Function.update pc k q j) = some b ↔ M.holds (pc j) = some b := by
  by_cases hj : j = k
  · rw [hj, Function.update_self, hq]
  · rw [Function.update_of_ne hj]

theorem Locked.transition (hl : M.Locked s) (h : M.Transition s k o s') : M.Locked s' := by
  cases h with
  | call i hpc =>
      exact SharedMutex.Tracks.congr hl (fun j => holds_update_same (by simp [hpc]) j _)
        fun j => holds_update_same (by simp [hpc]) j _
  | acquireShared i l hpc hi h =>
      refine SharedMutex.Tracks.lockShared hl h (by simp [hpc]) (fun j => ?_) fun j => ?_
      · rw [holds_update]
        by_cases hj : j = k <;> simp [hj, hi]
      · rw [holds_update]
        by_cases hj : j = k <;> simp [hj, hi, hpc]
  | acquire i l hpc hi h =>
      obtain ⟨hw, hr, -⟩ := SharedMutex.lock_spec h
      refine SharedMutex.Tracks.lock hl h (fun j => ?_) fun j => ?_
      · rw [holds_update]
        by_cases hj : j = k <;> simp [hj, hi, hpc]
      · rw [holds_update]
        have hnone : ¬ M.holds (s.pc j) = some false := by
          rw [← SharedMutex.Tracks.writer hl, hw]
          simp
        by_cases hj : j = k <;> simp [hj, hi, hnone]
  | next i p p' hpc hp =>
      exact SharedMutex.Tracks.congr hl (fun j => holds_update_same (by simp [hpc]) j _)
        fun j => holds_update_same (by simp [hpc]) j _
  | last i p r hpc hp =>
      exact SharedMutex.Tracks.congr hl (fun j => holds_update_same (by simp [hpc]) j _)
        fun j => holds_update_same (by simp [hpc]) j _
  | releaseShared i r l hpc hi h =>
      refine SharedMutex.Tracks.unlockShared hl h (fun j => ?_) fun j => ?_
      · rw [holds_update]
        by_cases hj : j = k <;> simp [hj]
      · rw [holds_update]
        by_cases hj : j = k <;> simp [hj, hpc, hi]
  | release i r l hpc hi h =>
      refine SharedMutex.Tracks.unlock hl h (fun j => ?_) fun j => ?_
      · rw [holds_update]
        by_cases hj : j = k <;> simp [hj, hpc, hi]
      · rw [holds_update]
        have hk : j ≠ k → ¬ M.holds (s.pc j) = some false := by
          intro hj hw
          rw [← SharedMutex.Tracks.writer hl, SharedMutex.unlock_spec h] at hw
          exact hj (Option.some.inj hw).symm
        by_cases hj : j = k <;> simp [hj, hk]
  | ret r hpc =>
      exact SharedMutex.Tracks.congr hl (fun j => holds_update_same (by simp [hpc]) j _)
        fun j => holds_update_same (by simp [hpc]) j _

omit [DecidableEq κ] in
/-- Beside the writer nobody is in a critical section. -/
theorem Locked.alone (hl : M.Locked s) (hk : M.holds (s.pc k) = some false) {j : κ}
    (hj : j ≠ k) : M.holds (s.pc j) = none := by
  cases hb : M.holds (s.pc j) with
  | none => rfl
  | some b =>
      have hw := (SharedMutex.Tracks.writer hl k).mpr hk
      cases b with
      | true =>
          exact absurd hw (SharedMutex.writer_ne_some ((SharedMutex.Tracks.readers hl j).mpr hb))
      | false =>
          rw [(SharedMutex.Tracks.writer hl j).mpr hb] at hw
          exact absurd (Option.some.inj hw) hj

omit [DecidableEq κ] in
/-- Two threads in critical sections are both readers. -/
theorem Locked.shared (hl : M.Locked s) {j : κ} {i i' : ι} {p p' : π}
    (hk : s.pc k = .inside i p) (hj : s.pc j = .inside i' p') (hne : j ≠ k) :
    M.shared i = true := by
  by_contra hi
  have hnone := hl.alone (k := k) (by simpa [hk] using hi) hne
  rw [hj] at hnone
  cases hnone

end locked

/-! ### The atomic object -/

/-- Where a thread is, as its clients should see it. -/
def Pc.phase : Pc ι ρ π → Object.Phase ι ρ
  | .idle => .idle
  | .called i | .inside i _ => .called i
  | .finished _ r | .released r => .done r

/-- The data is what the object holds, but for the writer's own changes; and what is left of a
critical section does its operation on what the object holds. -/
structure Abstracts (O : Object σ ι ρ) (s : State σ κ ι ρ π) (t : Object.Atomic σ κ ι ρ) :
    Prop where
  locked : M.Locked s
  phase : ∀ k, t.phase k = (s.pc k).phase
  value : (∀ k i p, s.pc k = .inside i p → M.shared i = true) → s.data = t.value
  runs : ∀ k i p, s.pc k = .inside i p → M.Runs i p s.data (O.apply t.value i)

section simulation
variable {M} {O : Object σ ι ρ} {s s' : State σ κ ι ρ π} {t : Object.Atomic σ κ ι ρ} {k : κ}
  {o : Op ι ρ}

theorem phase_update (ht : ∀ k, t.phase k = (s.pc k).phase) (q : Pc ι ρ π) :
    (fun j => (Function.update s.pc k q j).phase) = Function.update t.phase k q.phase := by
  funext j
  by_cases hj : j = k
  · subst hj
    simp
  · simp [hj, ht]

theorem phase_update_same (ht : ∀ k, t.phase k = (s.pc k).phase) {q : Pc ι ρ π}
    (hq : q.phase = (s.pc k).phase) (j : κ) :
    t.phase j = (Function.update s.pc k q j).phase := by
  by_cases hj : j = k
  · subst hj
    rw [Function.update_self, hq, ht]
  · rw [Function.update_of_ne hj, ht]

theorem inside_update {pc : κ → Pc ι ρ π} {q : Pc ι ρ π} {j : κ} {i : ι} {p : π}
    (h : Function.update pc k q j = .inside i p) :
    (j = k ∧ q = .inside i p) ∨ (j ≠ k ∧ pc j = .inside i p) := by
  by_cases hj : j = k
  · subst hj
    rw [Function.update_self] at h
    exact Or.inl ⟨rfl, h⟩
  · rw [Function.update_of_ne hj] at h
    exact Or.inr ⟨hj, h⟩

theorem Abstracts.outside (ha : M.Abstracts O s t) {q : Pc ι ρ π} {t' : Object.Atomic σ κ ι ρ}
    (hlocked : M.Locked s') (hdata : s'.data = s.data) (hpc : s'.pc = Function.update s.pc k q)
    (hk : ∀ i p, s.pc k ≠ .inside i p) (hq : ∀ i p, q ≠ .inside i p) (hvalue : t'.value = t.value)
    (hphase : t'.phase = Function.update t.phase k q.phase) : M.Abstracts O s' t' where
  locked := hlocked
  phase j := by
    rw [hphase, hpc, ← phase_update ha.phase]
  value hshared := by
    rw [hdata, hvalue]
    refine ha.value fun j i p hj => hshared j i p ?_
    have hne : j ≠ k := fun hjk => hk i p (hjk ▸ hj)
    rw [hpc, Function.update_of_ne hne, hj]
  runs j i p hj := by
    rw [hdata, hvalue]
    rw [hpc] at hj
    rcases inside_update hj with ⟨-, hj⟩ | ⟨-, hj⟩
    · exact absurd hj (hq i p)
    · exact ha.runs j i p hj

omit [DecidableEq κ] in
/-- While nobody writes, the data is what the object holds. -/
theorem Abstracts.data_eq (ha : M.Abstracts O s t) (hw : s.lock.writer = none) :
    s.data = t.value := by
  refine ha.value fun j i p hj => ?_
  by_contra hi
  have hj' := (SharedMutex.Tracks.writer ha.locked j).mpr (by simpa [hj] using hi)
  rw [hw] at hj'
  cases hj'

theorem Abstracts.enter (hM : M.Implements O) (ha : M.Abstracts O s t) {i : ι}
    {l : SharedMutex κ} (hpc : s.pc k = .called i) (hw : s.lock.writer = none)
    (hlocked : M.Locked { s with
      lock := l, pc := Function.update s.pc k (.inside i (M.enter i)) }) :
    M.Abstracts O { s with lock := l, pc := Function.update s.pc k (.inside i (M.enter i)) } t where
  locked := hlocked
  phase := phase_update_same ha.phase (by rw [hpc]; rfl)
  value _ := ha.data_eq hw
  runs j i' p hj := by
    rcases inside_update hj with ⟨-, hj⟩ | ⟨-, hj⟩
    · cases hj
      rw [← ha.data_eq hw]
      exact hM i s.data
    · exact ha.runs j i' p hj

theorem Abstracts.next (ha : M.Abstracts O s t) {i : ι} {p p' : π} (hpc : s.pc k = .inside i p)
    (hp : (M.step i p s.data).2 = .inl p')
    (hlocked : M.Locked { s with
      data := (M.step i p s.data).1, pc := Function.update s.pc k (.inside i p') }) :
    M.Abstracts O { s with
      data := (M.step i p s.data).1, pc := Function.update s.pc k (.inside i p') } t where
  locked := hlocked
  phase := phase_update_same ha.phase (by rw [hpc]; rfl)
  value hshared := by
    have hi : M.shared i = true := hshared k i p' (by simp)
    rw [M.readOnly i p _ hi]
    refine ha.value fun j i' q hj => ?_
    by_cases hjk : j = k
    · rw [hjk, hpc] at hj
      cases hj
      exact hi
    · exact ha.locked.shared hj hpc (Ne.symm hjk)
  runs j i' q hj := by
    rcases inside_update hj with ⟨-, hj⟩ | ⟨hne, hj⟩
    · cases hj
      exact (ha.runs k i p hpc).inl hp
    · rw [M.readOnly i p _ (ha.locked.shared hpc hj hne)]
      exact ha.runs j i' q hj

/-- The last step of a critical section does the operation. -/
theorem Abstracts.last (ha : M.Abstracts O s t) {i : ι} {p : π} {r : ρ}
    (hpc : s.pc k = .inside i p) (hp : (M.step i p s.data).2 = .inr r)
    (hlocked : M.Locked { s with
      data := (M.step i p s.data).1, pc := Function.update s.pc k (.finished i r) }) :
    M.Abstracts O { s with
      data := (M.step i p s.data).1, pc := Function.update s.pc k (.finished i r) }
      ⟨(O.apply t.value i).1, Function.update t.phase k (.done (O.apply t.value i).2)⟩ := by
  have he := (ha.runs k i p hpc).inr hp
  refine ⟨hlocked, fun j => ?_, fun _ => ?_, fun j i' q hj => ?_⟩
  · rw [he]
    exact (congrFun (phase_update ha.phase (.finished i r)) j).symm
  · rw [he]
  · rcases inside_update hj with ⟨-, hj⟩ | ⟨hne, hj⟩
    · cases hj
    · -- the others are readers, so this one was too, and changed nothing
      have hi := ha.locked.shared hpc hj hne
      have hdata : s.data = t.value := by
        refine ha.value fun j' i'' q' hj' => ?_
        by_cases hjk : j' = k
        · rw [hjk, hpc] at hj'
          cases hj'
          exact hi
        · exact ha.locked.shared hj' hpc (Ne.symm hjk)
      have hruns := ha.runs j i' q hj
      rw [he, M.readOnly i p _ hi, hdata]
      rwa [hdata] at hruns

/-- **A step maps to steps of the atomic object**: the last step of a critical section is the
point of its operation. -/
theorem Abstracts.transition [DecidableEq ρ] (hM : M.Implements O) (ha : M.Abstracts O s t)
    (h : M.Transition s k o s') :
    ∃ l t', Object.marks l = marks [(k, o)] ∧ O.atomic.run t l = some t' ∧
      M.Abstracts O s' t' := by
  have hlocked := ha.locked.transition h
  have hsame : ∀ q : Object.Phase ι ρ, t.phase k = q → t.phase = Function.update t.phase k q := by
    rintro q rfl
    exact (Function.update_eq_self k t.phase).symm
  cases h with
  | call i hpc =>
      refine ⟨[.mark (.call k i)], { t with phase := Function.update t.phase k (.called i) }, rfl,
        ?_, ha.outside hlocked rfl rfl (by simp [hpc]) (by simp) rfl rfl⟩
      rw [Lts.run_singleton, Object.step_call]
      exact ⟨by rw [ha.phase, hpc]; rfl, rfl⟩
  | acquireShared i l hpc hi hl =>
      exact ⟨[], t, rfl, rfl, ha.enter hM hpc (SharedMutex.lockShared_spec hl).1 hlocked⟩
  | acquire i l hpc hi hl =>
      exact ⟨[], t, rfl, rfl, ha.enter hM hpc (SharedMutex.lock_spec hl).1 hlocked⟩
  | next i p p' hpc hp => exact ⟨[], t, rfl, rfl, ha.next hpc hp hlocked⟩
  | last i p r hpc hp =>
      refine ⟨[.point k], _, rfl, ?_, ha.last hpc hp hlocked⟩
      rw [Lts.run_singleton, Object.step_point]
      exact ⟨i, by rw [ha.phase, hpc]; rfl, rfl⟩
  | releaseShared i r l hpc hi hl =>
      refine ⟨[], t, rfl, rfl, ha.outside hlocked rfl rfl (by simp [hpc]) (by simp) rfl ?_⟩
      exact hsame _ (by rw [ha.phase, hpc]; rfl)
  | release i r l hpc hi hl =>
      refine ⟨[], t, rfl, rfl, ha.outside hlocked rfl rfl (by simp [hpc]) (by simp) rfl ?_⟩
      exact hsame _ (by rw [ha.phase, hpc]; rfl)
  | ret r hpc =>
      refine ⟨[.mark (.ret k r)], { t with phase := Function.update t.phase k .idle }, rfl,
        ?_, ha.outside hlocked rfl rfl (by simp [hpc]) (by simp) rfl rfl⟩
      rw [Lts.run_singleton, Object.step_ret]
      exact ⟨by rw [ha.phase, hpc]; rfl, rfl⟩

/-- **A monitor is linearizable.** -/
theorem linearizable [DecidableEq ρ] (hM : M.Implements O) {d : σ} {h : List (κ × Op ι ρ)}
    (hr : M.lts.run (start d) h = some s) : O.Linearizable d (marks h) := by
  have hsim : ∃ l t, Object.marks l = marks h ∧
      O.atomic.run ⟨d, fun _ => .idle⟩ l = some t ∧ M.Abstracts O s t := by
    refine Lts.history_induction (P := fun h s => ∃ l t, Object.marks l = marks h ∧
      O.atomic.run ⟨d, fun _ => .idle⟩ l = some t ∧ M.Abstracts O s t) ?_ ?_ hr
    · refine ⟨[], _, rfl, rfl, locked_start d, fun _ => rfl, fun _ => rfl, ?_⟩
      intro k i p hk
      cases hk
    · rintro h s ⟨k, o⟩ s' - ⟨l, t, hmarks, hrun, ha⟩ hs
      obtain ⟨l', t', hmarks', hrun', ha'⟩ := ha.transition hM (transition_of_step hs)
      refine ⟨l ++ l', t', ?_, (Lts.run_append_iff _).mpr ⟨t, hrun, hrun'⟩, ha'⟩
      rw [marks_append, ← hmarks, ← hmarks']
      exact List.filterMap_append
  obtain ⟨l, t, hmarks, hrun, -⟩ := hsim
  rw [← hmarks]
  exact Object.atomic_linearizable hrun

end simulation

end Monitor
