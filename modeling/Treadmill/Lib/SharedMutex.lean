import Mathlib.Data.List.Basic

/-! # A shared mutex

A lock held by any number of readers or by one writer, as a value that cannot be in a bad
state: `exclusive` says that a writer excludes readers.  An operation is `none` when the
caller has to wait, and also when it releases what it does not hold.

`Tracks` ties the lock to the program that uses it: the readers and the writer are those whose
control says so, and whoever waits for the lock waits for one of them. -/

/-- Who holds the lock. -/
structure SharedMutex (ι : Type*) where
  readers : List ι
  writer : Option ι
  exclusive : writer ≠ none → readers = []

namespace SharedMutex

variable {ι : Type*}

/-- Nobody holds the lock. -/
def free : SharedMutex ι := ⟨[], none, fun h => absurd rfl h⟩

/-- Take the lock as a reader. -/
def lockShared (l : SharedMutex ι) (i : ι) : Option (SharedMutex ι) :=
  if h : l.writer = none then some ⟨i :: l.readers, l.writer, fun hw => absurd h hw⟩
  else none

/-- Take the lock as the writer. -/
def lock (l : SharedMutex ι) (i : ι) : Option (SharedMutex ι) :=
  if l.writer = none ∧ l.readers = [] then some ⟨[], some i, fun _ => rfl⟩ else none

variable [DecidableEq ι]

/-- A reader releases the lock. -/
def unlockShared (l : SharedMutex ι) (i : ι) : Option (SharedMutex ι) :=
  if i ∈ l.readers then
    some ⟨l.readers.erase i, l.writer, fun hw => by rw [l.exclusive hw]; rfl⟩
  else none

/-- The writer releases the lock. -/
def unlock (l : SharedMutex ι) (i : ι) : Option (SharedMutex ι) :=
  if l.writer = some i then some ⟨[], none, fun h => absurd rfl h⟩ else none

section lemmas
variable {l l' : SharedMutex ι} {i j : ι}

omit [DecidableEq ι] in
theorem lockShared_spec (h : l.lockShared i = some l') :
    l.writer = none ∧ l'.readers = i :: l.readers ∧ l'.writer = none := by
  unfold lockShared at h
  split_ifs at h with hw
  cases h
  exact ⟨hw, rfl, hw⟩

omit [DecidableEq ι] in
theorem lock_spec (h : l.lock i = some l') :
    l.writer = none ∧ l.readers = [] ∧ l'.writer = some i := by
  unfold lock at h
  split_ifs at h with hl
  cases h
  exact ⟨hl.1, hl.2, rfl⟩

theorem unlockShared_spec (h : l.unlockShared i = some l') :
    l'.readers = l.readers.erase i ∧ l'.writer = l.writer := by
  unfold unlockShared at h
  split_ifs at h
  cases h
  exact ⟨rfl, rfl⟩

theorem unlock_spec (h : l.unlock i = some l') : l.writer = some i := by
  unfold unlock at h
  split_ifs at h with hw
  exact hw

omit [DecidableEq ι] in
theorem writer_ne_some (hi : i ∈ l.readers) : l.writer ≠ some j := by
  intro hw
  rw [l.exclusive (by simp [hw])] at hi
  cases hi

/-- What another thread may do to the lock. -/
def Other (l l' : SharedMutex ι) (j : ι) : Prop :=
  l' = l ∨ l.lockShared j = some l' ∨ l.unlockShared j = some l' ∨ l.lock j = some l' ∨
    l.unlock j = some l'

/-- A reader keeps the lock whatever another thread does. -/
theorem Other.mem_readers (h : Other l l' j) (hij : i ≠ j) (hi : i ∈ l.readers) :
    i ∈ l'.readers := by
  rcases h with rfl | h | h | h | h
  · exact hi
  · rw [(lockShared_spec h).2.1]
    exact List.mem_cons_of_mem _ hi
  · rw [(unlockShared_spec h).1]
    exact (List.mem_erase_of_ne hij).mpr hi
  · rw [(lock_spec h).2.1] at hi
    cases hi
  · exact absurd (unlock_spec h) (writer_ne_some hi)

/-- The writer keeps the lock whatever another thread does. -/
theorem Other.writer (h : Other l l' j) (hij : i ≠ j) (hi : l.writer = some i) :
    l'.writer = some i := by
  rcases h with rfl | h | h | h | h
  · exact hi
  · rw [(lockShared_spec h).1] at hi
    cases hi
  · rw [(unlockShared_spec h).2]
    exact hi
  · rw [(lock_spec h).1] at hi
    cases hi
  · rw [unlock_spec h] at hi
    cases hi
    exact absurd rfl hij

/-! ### Who holds the lock -/

/-- The readers are those that satisfy `P`, once each, and the writer is the one that satisfies
`Q`. -/
structure Tracks (l : SharedMutex ι) (P Q : ι → Prop) : Prop where
  readers : ∀ j, j ∈ l.readers ↔ P j
  writer : ∀ j, l.writer = some j ↔ Q j
  nodup : l.readers.Nodup

section tracks
variable {P P' Q Q' : ι → Prop}

omit [DecidableEq ι] in
theorem tracks_free (hP : ∀ j, ¬ P j) (hQ : ∀ j, ¬ Q j) : (free : SharedMutex ι).Tracks P Q where
  readers j := by simp [free, hP j]
  writer j := by simp [free, hQ j]
  nodup := List.nodup_nil

omit [DecidableEq ι] in
theorem Tracks.congr (ht : l.Tracks P Q) (hP : ∀ j, P' j ↔ P j) (hQ : ∀ j, Q' j ↔ Q j) :
    l.Tracks P' Q' where
  readers j := (ht.readers j).trans (hP j).symm
  writer j := (ht.writer j).trans (hQ j).symm
  nodup := ht.nodup

omit [DecidableEq ι] in
theorem Tracks.lockShared (ht : l.Tracks P Q) (h : l.lockShared i = some l') (hi : ¬ P i)
    (hP : ∀ j, P' j ↔ j = i ∨ P j) (hQ : ∀ j, Q' j ↔ Q j) : l'.Tracks P' Q' := by
  obtain ⟨hw, hr, hw'⟩ := lockShared_spec h
  constructor
  · intro j
    rw [hr, List.mem_cons, ht.readers, hP]
  · intro j
    rw [hw', ← hw, ht.writer, hQ]
  · rw [hr]
    exact List.nodup_cons.mpr ⟨fun hm => hi ((ht.readers i).mp hm), ht.nodup⟩

theorem Tracks.unlockShared (ht : l.Tracks P Q) (h : l.unlockShared i = some l')
    (hP : ∀ j, P' j ↔ j ≠ i ∧ P j) (hQ : ∀ j, Q' j ↔ Q j) : l'.Tracks P' Q' := by
  obtain ⟨hr, hw⟩ := unlockShared_spec h
  constructor
  · intro j
    rw [hr, ht.nodup.mem_erase_iff, ht.readers, hP]
  · intro j
    rw [hw, ht.writer, hQ]
  · rw [hr]
    exact ht.nodup.erase i

omit [DecidableEq ι] in
theorem Tracks.lock (ht : l.Tracks P Q) (h : l.lock i = some l') (hP : ∀ j, P' j ↔ P j)
    (hQ : ∀ j, Q' j ↔ j = i) : l'.Tracks P' Q' := by
  obtain ⟨hw, hr, hw'⟩ := lock_spec h
  have hr' : l'.readers = [] := l'.exclusive (by simp [hw'])
  constructor
  · intro j
    rw [hr', ← hr, ht.readers, hP]
  · intro j
    rw [hw', hQ, Option.some.injEq]
    exact eq_comm
  · rw [hr']
    exact List.nodup_nil

theorem Tracks.unlock (ht : l.Tracks P Q) (h : l.unlock i = some l') (hP : ∀ j, P' j ↔ P j)
    (hQ : ∀ j, ¬ Q' j) : l'.Tracks P' Q' := by
  have hr := l.exclusive (by simp [unlock_spec h])
  unfold SharedMutex.unlock at h
  split_ifs at h
  cases h
  constructor
  · intro j
    rw [hP, ← ht.readers, hr]
  · intro j
    simp [hQ j]
  · exact List.nodup_nil

omit [DecidableEq ι] in
/-- A reader waits for a writer only. -/
theorem Tracks.lockShared_blocked (ht : l.Tracks P Q) (h : l.lockShared i = none) :
    ∃ j, Q j := by
  unfold SharedMutex.lockShared at h
  split_ifs at h with hw
  obtain ⟨j, hj⟩ := Option.ne_none_iff_exists'.mp hw
  exact ⟨j, (ht.writer j).mp hj⟩

omit [DecidableEq ι] in
/-- A writer waits for another writer or for a reader. -/
theorem Tracks.lock_blocked (ht : l.Tracks P Q) (h : l.lock i = none) : ∃ j, P j ∨ Q j := by
  unfold SharedMutex.lock at h
  split_ifs at h with hl
  rw [not_and_or] at hl
  rcases hl with hl | hl
  · obtain ⟨j, hj⟩ := Option.ne_none_iff_exists'.mp hl
    exact ⟨j, Or.inr ((ht.writer j).mp hj)⟩
  · obtain ⟨j, hj⟩ := List.exists_mem_of_ne_nil _ hl
    exact ⟨j, Or.inl ((ht.readers j).mp hj)⟩

end tracks

end lemmas

end SharedMutex
