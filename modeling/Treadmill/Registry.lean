import Treadmill.Lib.Monitor
import Treadmill.Statistics

/-! # The statistics by name

`StatisticsManager::getContinuousStat` and `getCounterStat` (`StatisticsManager.cpp`): each finds
its statistic in a map or makes it, under the lock of the map.  The two are the same code on two
maps, `getStat` here; pointers are indices into the objects made.

The sender threads ask for their statistics all at once.  The maps are monitors, so the calls
happen one after another (`getStat_implements`): all who ask for a name share one object, and
nobody else has it (`statistics_shared`). -/

namespace Treadmill

/-- A map from names to objects, and the objects made so far. -/
structure StatMap (α : Type) where
  objects : List α
  map : AList fun _ : String => ℕ

namespace StatMap

variable {α : Type}

/-- No object has been made. -/
def empty : StatMap α := ⟨[], ∅⟩

/-- `std::make_shared` and `m.emplace(name, ptr)`: an entry that there is stays. -/
def emplace (construct : String → α) (m : StatMap α) (name : String) : StatMap α × ℕ :=
  (⟨m.objects ++ [construct name],
    if name ∈ m.map then m.map else m.map.insert name m.objects.length⟩, m.objects.length)

/-- The object of a name, found or made at once. -/
def intern (construct : String → α) (m : StatMap α) (name : String) : StatMap α × ℕ :=
  match m.map.lookup name with
  | some p => (m, p)
  | none => m.emplace construct name

/-- The objects of a map as counters. -/
def counters (f : α → CounterStatistic) (m : StatMap α) : StatisticsManager :=
  ⟨m.objects.map f, m.map⟩

/-- What `intern` does to the map is what `getCounterStat` does. -/
theorem intern_counters {construct : String → α} {f : α → CounterStatistic}
    (hf : ∀ name, f (construct name) = .new) (m : StatMap α) (name : String) :
    (m.counters f).getCounterStat name =
      ((m.intern construct name).2, (m.intern construct name).1.counters f) := by
  unfold StatisticsManager.getCounterStat intern
  cases hp : m.map.lookup name with
  | some p => simp [counters, hp]
  | none =>
      have hmem : name ∉ m.map := AList.lookup_eq_none.mp hp
      simp [counters, emplace, hp, hmem, hf]

end StatMap

/-! ### The code -/

/-- Where a call is under the lock of the map. -/
inductive StatPlace where
  /-- before `m.find(name)` -/
  | find
  /-- the name was not there -/
  | emplace
deriving DecidableEq, Repr

/-- The critical section of `getContinuousStat` and `getCounterStat`. -/
def getStat {α : Type} (construct : String → α) : Monitor (StatMap α) String ℕ StatPlace where
  shared _ := false
  enter _ := .find
  step name
    | .find, m =>
        match m.map.lookup name with
        | some p => (m, .inr p)
        | none => (m, .inl .emplace)
    | .emplace, m =>
        let (m', p) := m.emplace construct name
        (m', .inr p)
  readOnly _ _ _ h := by cases h

/-- `StatisticsManager::getContinuousStat`, where `histogram` is a new `Histogram`. -/
def StatisticsManager.getContinuousStat {α : Type} (histogram : α) :
    Monitor (StatMap α) String ℕ StatPlace :=
  getStat fun _ => histogram

/-- `StatisticsManager::getCounterStat` with its lock: the constructor of `Counter` ignores the
name. -/
def StatisticsManager.getCounterStatLocked :
    Monitor (StatMap CounterStatistic) String ℕ StatPlace :=
  getStat fun _ => .new

/-! ### One call after another -/

section shared
variable {α : Type} {construct : String → α}

/-- Maps whose objects are found or made at once. -/
def interning (construct : String → α) : Object (StatMap α) String ℕ := ⟨StatMap.intern construct⟩

theorem getStat_implements (construct : String → α) :
    (getStat construct).Implements (interning construct) := by
  intro name m
  change (getStat construct).Runs name .find m (m.intern construct name)
  unfold StatMap.intern
  cases hp : m.map.lookup name with
  | some p => exact .last (by simp [getStat, hp])
  | none =>
      have hfind : (getStat construct).step name .find m = (m, .inl .emplace) := by
        simp [getStat, hp]
      exact .next hfind (.last rfl)

/-- Forget what the objects are. -/
def StatMap.pointers (m : StatMap α) : StatisticsManager := m.counters fun _ => .new

theorem pointers_intern (construct : String → α) (m : StatMap α) (name : String) :
    m.pointers.getCounterStat name =
      ((m.intern construct name).2, (m.intern construct name).1.pointers) :=
  StatMap.intern_counters (f := fun _ => .new) (fun _ => rfl) m name

theorem lookup_final {l : List (Slot String ℕ)} (hl : (interning construct).Legal .empty l) :
    ((interning construct).final .empty l).pointers.Wf ∧
      ∀ e ∈ l, ((interning construct).final .empty l).map.lookup e.input = some e.response := by
  induction l using List.reverseRecOn with
  | nil => exact ⟨StatisticsManager.wf_new, by simp⟩
  | append_singleton l e ih =>
      obtain ⟨hl, he⟩ := (Object.legal_snoc _ _ _ _).mp hl
      obtain ⟨hwf, hlookup⟩ := ih hl
      rw [Object.final_snoc]
      have hstep := pointers_intern construct ((interning construct).final .empty l) e.input
      have hmap : ∀ m : StatMap α, m.pointers.countMap = m.map := fun _ => rfl
      constructor
      · have := hwf.getCounterStat e.input
        rw [hstep] at this
        exact this
      · intro e' he'
        rcases List.mem_append.mp he' with he' | he'
        · have := StatisticsManager.lookup_getCounterStat (m := StatMap.pointers _)
            (hlookup e' he') e.input
          rw [hstep] at this
          exact this
        · obtain rfl := List.mem_singleton.mp he'
          have := StatisticsManager.lookup_getCounterStat_self
            ((interning construct).final .empty l).pointers e'.input
          rw [hstep] at this
          rw [← he]
          exact this

/-- **A name has one object.**  However the threads interleave, the calls of `getContinuousStat` or
`getCounterStat` answer as they would one after another; and two of them return the same object
exactly when they ask for the same name. -/
theorem statistics_shared {κ : Type} [DecidableEq κ] {h : List (κ × Monitor.Op String ℕ)}
    {s : Monitor.State (StatMap α) κ String ℕ StatPlace}
    (hr : (getStat construct).lts.run (Monitor.start .empty) h = some s) :
    (interning construct).Linearizable .empty (Monitor.marks h) ∧
    ∀ n m p n' m' p' k k' name name', (Monitor.marks h)[n]? = some (.call k name) →
      Returns (Monitor.marks h) n m p → (Monitor.marks h)[n']? = some (.call k' name') →
      Returns (Monitor.marks h) n' m' p' → (p = p' ↔ name = name') := by
  have hlin := Monitor.linearizable (getStat_implements construct) hr
  refine ⟨hlin, ?_⟩
  obtain ⟨l, hl⟩ := hlin
  obtain ⟨hwf, hlookup⟩ := lookup_final hl.legal
  have hreturned : ∀ n m p k name, (Monitor.marks h)[n]? = some (.call k name) →
      Returns (Monitor.marks h) n m p →
        ((interning construct).final .empty l).map.lookup name = some p := by
    intro n m p k name hcall hret
    exact hlookup _ (hl.slot hcall hret)
  intro n m p n' m' p' k k' name name' hcall hret hcall' hret'
  have hp := hreturned n m p k name hcall hret
  have hp' := hreturned n' m' p' k' name' hcall' hret'
  constructor
  · rintro rfl
    exact hwf.injective name name' p hp hp'
  · rintro rfl
    rw [hp] at hp'
    exact Option.some.inj hp'

/-- Two senders ask for the throughput at once, and one of them for the latency after that. -/
def twoSenders : List (ℕ × Monitor.Op String ℕ) :=
  [(0, .call "throughput"), (1, .call "throughput"), (1, .acquire), (1, .work), (1, .work),
    (1, .release), (0, .acquire), (1, .ret 0), (0, .work), (1, .call "request_latency"),
    (0, .release), (1, .acquire), (0, .ret 0), (1, .work), (1, .work), (1, .release), (1, .ret 1)]

theorem statistics_shared_twoSenders :
    (interning fun _ : String => ()).Linearizable .empty (Monitor.marks twoSenders) ∧
      (0 = 0 ↔ "throughput" = "throughput") ∧ Returns (Monitor.marks twoSenders) 0 4 0 := by
  have hrun : ((getStat fun _ : String => ()).lts.run (Monitor.start .empty) twoSenders).isSome =
      true := by
    decide +kernel
  obtain ⟨s, hr⟩ := Option.isSome_iff_exists.mp hrun
  obtain ⟨hlin, hshared⟩ := statistics_shared hr
  have hlast : Returns (Monitor.marks twoSenders) 0 4 0 := by
    refine ⟨0, "throughput", ⟨rfl, fun m b hm hb => ?_⟩, rfl⟩
    have hlt : m < 4 := (List.getElem?_eq_some_iff.mp hb).1
    obtain rfl | rfl | rfl : m = 1 ∨ m = 2 ∨ m = 3 := by omega
    all_goals
      cases hb
      decide
  have hfirst : Returns (Monitor.marks twoSenders) 1 2 0 := by
    refine ⟨1, "throughput", ⟨rfl, fun m b hm hb => ?_⟩, rfl⟩
    have hlt : m < 2 := (List.getElem?_eq_some_iff.mp hb).1
    omega
  exact ⟨hlin, hshared 1 2 0 0 4 0 1 0 _ _ rfl hfirst rfl hlast, hlast⟩

end shared

end Treadmill
