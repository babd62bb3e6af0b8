import Mathlib.Data.Int.Notation
import Mathlib.Data.List.AList

/-! # The counters

`CounterStatistic` (`CounterStatistic.h`) and the counters of `StatisticsManager`
(`StatisticsManager.cpp`).  A counter is kept twice, as a total and by subkey; the map of the
subkeys gets an entry for each subkey that it is asked for.  The manager finds or creates a
counter by its name and hands out pointers to it, which are indices into `counters` here.

The numbers and the map are unbounded here; in the source the numbers are 64 bits wide and
the bound of the map is that of `folly::AtomicUnorderedInsertMap`. -/

namespace Treadmill

/-! ### One counter -/

/-- `CounterStatistic`. -/
structure CounterStatistic where
  count : ℤ
  subkeyCount : AList fun _ : String => ℤ

namespace CounterStatistic

/-- `CounterStatistic::CounterStatistic`. -/
def new : CounterStatistic := ⟨0, ∅⟩

/-- `subkey_count_.findOrConstruct`: the number under the subkey, and the counter after it. -/
def findOrConstruct (c : CounterStatistic) (subkey : String) : ℤ × CounterStatistic :=
  match c.subkeyCount.lookup subkey with
  | some n => (n, c)
  | none => (0, { c with subkeyCount := c.subkeyCount.insert subkey 0 })

/-- `CounterStatistic::increase`. -/
def increase (c : CounterStatistic) (n : ℤ) (subkey : String) : CounterStatistic :=
  let c := { c with count := c.count + n }
  if subkey = "" then c
  else
    let (m, c) := c.findOrConstruct subkey
    { c with subkeyCount := c.subkeyCount.insert subkey (m + n) }

/-- `CounterStatistic::getCount()`. -/
def getCount (c : CounterStatistic) : ℤ := c.count

/-- `CounterStatistic::getCount(subkey)`, and the counter after it. -/
def getSubkeyCount (c : CounterStatistic) (subkey : String) : ℤ × CounterStatistic :=
  c.findOrConstruct subkey

variable {k' : String}

theorem findOrConstruct_fst (c : CounterStatistic) (k : String) :
    (c.findOrConstruct k).1 = (c.subkeyCount.lookup k).getD 0 := by
  unfold findOrConstruct
  split
  · rename_i n hn
    rw [hn, Option.getD_some]
  · rename_i hn
    rw [hn, Option.getD_none]

theorem findOrConstruct_count (c : CounterStatistic) (k : String) :
    (c.findOrConstruct k).2.count = c.count := by
  unfold findOrConstruct
  split <;> rfl

theorem findOrConstruct_lookup (c : CounterStatistic) (k k' : String) :
    ((c.findOrConstruct k).2.subkeyCount.lookup k').getD 0 =
      (c.subkeyCount.lookup k').getD 0 := by
  unfold findOrConstruct
  split
  · rfl
  · rename_i hn
    by_cases hk : k' = k
    · subst hk
      rw [AList.lookup_insert, hn]
      rfl
    · rw [AList.lookup_insert_ne hk]

theorem getCount_increase (c : CounterStatistic) (n : ℤ) (k : String) :
    (c.increase n k).getCount = c.getCount + n := by
  unfold increase getCount
  dsimp only
  split_ifs
  · rfl
  · rw [findOrConstruct_count]

/-- An increase adds to its own subkey only, unless that is the empty one. -/
theorem getSubkeyCount_increase (c : CounterStatistic) (n : ℤ) (k : String) (hk' : k' ≠ "") :
    ((c.increase n k).getSubkeyCount k').1 =
      (c.getSubkeyCount k').1 + if k = k' then n else 0 := by
  unfold getSubkeyCount
  rw [findOrConstruct_fst, findOrConstruct_fst]
  unfold increase
  dsimp only
  split_ifs with hempty heq heq
  · exact absurd (heq ▸ hempty) hk'
  · simp
  · subst heq
    rw [AList.lookup_insert, Option.getD_some, findOrConstruct_fst]
  · rw [AList.lookup_insert_ne (Ne.symm heq), findOrConstruct_lookup]
    simp

end CounterStatistic

/-! ### The counters by name -/

/-- The counters of `StatisticsManager`, and `count_map_`. -/
structure StatisticsManager where
  counters : List CounterStatistic
  countMap : AList fun _ : String => ℕ

namespace StatisticsManager

/-- `StatisticsManager::StatisticsManager`. -/
def new : StatisticsManager := ⟨[], ∅⟩

/-- `StatisticsManager::getCounterStat`. -/
def getCounterStat (m : StatisticsManager) (name : String) : ℕ × StatisticsManager :=
  match m.countMap.lookup name with
  | some p => (p, m)
  | none =>
      (m.counters.length,
        ⟨m.counters ++ [.new], m.countMap.insert name m.counters.length⟩)

/-- `increase` of the counter at a pointer. -/
def increase (m : StatisticsManager) (p : ℕ) (n : ℤ) (subkey : String) :
    Option StatisticsManager :=
  m.counters[p]?.map fun c => { m with counters := m.counters.set p (c.increase n subkey) }

/-- The counter of a name, or a new one. -/
def counter (m : StatisticsManager) (name : String) : CounterStatistic :=
  ((m.countMap.lookup name).bind fun p => m.counters[p]?).getD .new

/-- Different names have different counters. -/
structure Wf (m : StatisticsManager) : Prop where
  lt : ∀ name p, m.countMap.lookup name = some p → p < m.counters.length
  injective : ∀ name name' p, m.countMap.lookup name = some p →
    m.countMap.lookup name' = some p → name = name'

variable {m m' : StatisticsManager} {name name' k : String} {p : ℕ} {n : ℤ}

theorem wf_new : new.Wf where
  lt name p h := by cases h
  injective name name' p h := by cases h

theorem lookup_getCounterStat_self (m : StatisticsManager) (name : String) :
    (m.getCounterStat name).2.countMap.lookup name = some (m.getCounterStat name).1 := by
  unfold getCounterStat
  split
  · assumption
  · exact AList.lookup_insert _

theorem lookup_getCounterStat (hp : m.countMap.lookup name' = some p) (name : String) :
    (m.getCounterStat name).2.countMap.lookup name' = some p := by
  unfold getCounterStat
  split
  · exact hp
  · rename_i hnone
    have hne : name' ≠ name := by
      rintro rfl
      rw [hnone] at hp
      cases hp
    rw [AList.lookup_insert_ne hne]
    exact hp

theorem Wf.getCounterStat (hm : m.Wf) (name : String) : (m.getCounterStat name).2.Wf := by
  unfold StatisticsManager.getCounterStat
  split
  · exact hm
  · have hlookup : ∀ name' p,
        (m.countMap.insert name m.counters.length).lookup name' = some p →
          (name' = name ∧ p = m.counters.length) ∨
            (m.countMap.lookup name' = some p ∧ p < m.counters.length) := by
      intro name' p h
      by_cases hne : name' = name
      · subst hne
        rw [AList.lookup_insert, Option.some.injEq] at h
        exact Or.inl ⟨rfl, h.symm⟩
      · rw [AList.lookup_insert_ne hne] at h
        exact Or.inr ⟨h, hm.lt name' p h⟩
    constructor
    · intro name' p h
      rw [List.length_append, List.length_singleton]
      rcases hlookup name' p h with ⟨-, hp⟩ | ⟨-, hp⟩ <;> omega
    · intro name₁ name₂ p h₁ h₂
      rcases hlookup name₁ p h₁ with ⟨rfl, hp₁⟩ | ⟨h₁, hp₁⟩
      · rcases hlookup name₂ p h₂ with ⟨rfl, -⟩ | ⟨-, hp₂⟩
        · rfl
        · omega
      · rcases hlookup name₂ p h₂ with ⟨rfl, hp₂⟩ | ⟨h₂, -⟩
        · omega
        · exact hm.injective name₁ name₂ p h₁ h₂

theorem counter_getCounterStat (hm : m.Wf) (name name' : String) :
    (m.getCounterStat name).2.counter name' = m.counter name' := by
  unfold getCounterStat counter
  split
  · rfl
  · rename_i hnone
    by_cases hne : name' = name
    · subst hne
      simp [hnone]
    · rw [AList.lookup_insert_ne hne]
      cases hp : m.countMap.lookup name' with
      | none => rfl
      | some p =>
          have hlt := hm.lt name' p hp
          simp only [Option.bind_some]
          rw [List.getElem?_append_left hlt]

theorem Wf.increase (hm : m.Wf) (h : m.increase p n k = some m') : m'.Wf := by
  obtain ⟨c, -, rfl⟩ := Option.map_eq_some_iff.mp h
  constructor
  · intro name q hq
    rw [List.length_set]
    exact hm.lt name q hq
  · exact hm.injective

theorem counter_increase (hm : m.Wf) (hp : m.countMap.lookup name = some p)
    (h : m.increase p n k = some m') (name' : String) :
    m'.counter name' =
      if name' = name then (m.counter name).increase n k else m.counter name' := by
  obtain ⟨c, hc, rfl⟩ := Option.map_eq_some_iff.mp h
  unfold counter
  split_ifs with hne
  · subst hne
    have hlt := hm.lt name' p hp
    have hget : m.counters[p] = c := by
      rw [List.getElem?_eq_getElem hlt] at hc
      exact Option.some.inj hc
    simp [hp, hlt, hget]
  · cases hq : m.countMap.lookup name' with
    | none => rfl
    | some q =>
        have hpq : p ≠ q := by
          rintro rfl
          exact hne (hm.injective _ _ _ hq hp)
        simp [hpq]

end StatisticsManager

end Treadmill
