import Treadmill.Rates

/-! # The pace of the loop

The loop sends by a schedule: the `k`-th request of a stretch is due `I_0 + ... + I_(k-1)`
after the reading at the top of the first round, where `I_0, I_1, ...` are the intervals
drawn.  The code never holds the schedule; it keeps a budget of time to wait, which it updates
in two places of a round and truncates each time.

`Stretch` records the readings and the intervals next to the loop (`Loop.paced`).  Between
rounds and in a round, the budget is what is left until the next request is due, up to less
than one nanosecond for each update (`Between`, `InRound`), so nothing that happens in a round
is lost to the schedule (`budget_follows_schedule`). -/

namespace Treadmill

/-! ### The schedule -/

/-- What a stretch has done: the readings at the tops of its rounds and the intervals it
drew, in order. -/
structure Stretch where
  tops : List ℤ := []
  intervals : List ℚ := []

namespace Stretch

/-- The record after an operation of the loop at this control point. -/
def observe (st : Stretch) (pc : Pc) (o : Op) : Stretch :=
  match pc, o with
  | .drawFirst, .draw mean x => ⟨[], [randomExponentialInterval mean x]⟩
  | .readB, .nowNs t => { st with tops := st.tops ++ [t] }
  | .drawNext, .draw mean x =>
      { st with intervals := st.intervals ++ [randomExponentialInterval mean x] }
  | _, _ => st

/-- The reading at the top of the first round. -/
def start (st : Stretch) : ℤ := st.tops.headD 0

/-- When request `k` of the stretch is due, counted from `1`. -/
def due (st : Stretch) (k : ℕ) : ℚ := st.start + (st.intervals.take k).sum

variable {st : Stretch} {budget a b t : ℤ}

/-- Outside a round, `budget` is what is left at `a` until the next request is due. -/
structure Between (st : Stretch) (budget a : ℤ) : Prop where
  length : st.intervals.length = st.tops.length + 1
  first : a = 0 ↔ st.tops = []
  error : |(budget : ℚ) - (st.due (st.tops.length + 1) - a)| < st.tops.length + 1

/-- In a round, `budget` is what is left at `b`, its top, until its request is due. -/
structure InRound (st : Stretch) (budget b : ℤ) : Prop where
  length : st.intervals.length = st.tops.length
  top : st.tops.getLast? = some b
  error : |(budget : ℚ) - (st.due st.tops.length - b)| < st.tops.length

theorem between_first (x : ℚ) : Between ⟨[], [x]⟩ (truncate x) 0 where
  length := rfl
  first := by simp
  error := by simpa [due, start] using abs_truncate_sub_lt x

theorem start_append (hst : st.tops ≠ []) (t : ℤ) :
    start { st with tops := st.tops ++ [t] } = st.start := by
  obtain ⟨tops, intervals⟩ := st
  cases tops with
  | nil => exact absurd rfl hst
  | cons b tops => rfl

theorem Between.top (hb : st.Between budget a) (t : ℤ) :
    InRound { st with tops := st.tops ++ [t] } (if a ≠ 0 then budget - (t - a) else budget) t
      where
  length := by
    rw [hb.length, List.length_append, List.length_singleton]
  top := by simp
  error := by
    have herr := hb.error
    have hcast : ((st.tops ++ [t]).length : ℚ) = st.tops.length + 1 := by simp
    rw [hcast]
    by_cases ha : a = 0
    · -- the first round: its top is the start of the schedule
      have htops := hb.first.mp ha
      simp only [due, start, htops, ha, List.length_nil, List.headD_nil, Int.cast_zero,
        List.nil_append, List.headD_cons, List.length_singleton, ne_eq, not_true_eq_false,
        if_false, Nat.cast_zero] at herr ⊢
      have he : (t : ℚ) + (st.intervals.take 1).sum - t =
          0 + (st.intervals.take (0 + 1)).sum - 0 := by ring
      rw [he]
      exact herr
    · have hne : st.tops ≠ [] := mt hb.first.mpr ha
      have hdue : due { st with tops := st.tops ++ [t] } (st.tops ++ [t]).length =
          st.due (st.tops.length + 1) := by
        rw [due, due, start_append hne, List.length_append, List.length_singleton]
      rw [hdue, if_pos ha]
      have he : ((budget - (t - a) : ℤ) : ℚ) - (st.due (st.tops.length + 1) - t) =
          budget - (st.due (st.tops.length + 1) - a) := by
        push_cast
        ring
      rw [he]
      exact herr

/-- A request does not come before it is due by as many nanoseconds as there were rounds. -/
theorem InRound.due_lt (hr : st.InRound budget b) (ha : b + budget ≤ a) :
    st.due st.tops.length - st.tops.length < a := by
  have herr := (abs_lt.mp hr.error).1
  have ha' : (b : ℚ) + budget ≤ a := by exact_mod_cast ha
  linarith

theorem InRound.draw (hr : st.InRound budget b) (ha : a ≠ 0) (x : ℚ) :
    Between { st with intervals := st.intervals ++ [x] }
      (truncate (budget + (x - (a - b : ℤ)))) a where
  length := by
    rw [List.length_append, List.length_singleton, hr.length]
  first := by
    refine ⟨fun h => absurd h ha, fun h => ?_⟩
    have htop := hr.top
    rw [h] at htop
    cases htop
  error := by
    have herr := abs_lt.mp hr.error
    have hround := abs_lt.mp (abs_truncate_sub_lt (budget + (x - (a - b : ℤ))))
    have hdue : due { st with intervals := st.intervals ++ [x] } (st.tops.length + 1) =
        st.due st.tops.length + x := by
      rw [due, due, ← hr.length, List.take_length, List.take_of_length_le (by simp),
        List.sum_append, List.sum_singleton, ← add_assoc]
      rfl
    rw [hdue, abs_lt]
    push_cast at hround ⊢
    constructor <;> linarith

/-- The requests drawn later do not change when an earlier one is due. -/
theorem due_append (st : Stretch) (x : ℚ) {k : ℕ} (hk : k ≤ st.intervals.length) :
    due { st with intervals := st.intervals ++ [x] } k = st.due k := by
  rw [due, due, List.take_append_of_le_length hk]
  rfl

end Stretch

/-! ### The loop on schedule -/

/-- The loop, with the record of its stretch. -/
def Loop.paced (S : Setup) : Lts (Loop × Stretch) Op where
  step s o := (s.1.step S o).map fun l => (l, s.2.observe s.1.pc o)

/-- The budget and the last readings are on schedule when the clock last read `c`. -/
def Loop.OnSchedule (l : Loop) (st : Stretch) (c : ℤ) : Prop :=
  match l.pc with
  | .checkRunning | .readB | .size | .compareRps | .reloadRps => st.Between l.budget l.a
  | .waitStart => st.InRound l.budget l.b ∧ l.b ≤ c
  | .waiting start => st.InRound l.budget l.b ∧ l.b ≤ start
  | .readA => st.InRound l.budget l.b ∧ l.b + l.budget ≤ c
  | .drawNext => st.InRound l.budget l.b ∧ l.b + l.budget ≤ l.a ∧ l.a ≤ c ∧ l.a ≠ 0
  | .put => st.Between l.budget l.a ∧ st.due st.tops.length - st.tops.length < c
  | _ => True

namespace Loop

variable {S : Setup} {l l' : Loop} {o : Op} {st : Stretch} {c c' : ℤ}

theorem OnSchedule.mono (hl : l.OnSchedule st c) (hc : c ≤ c') : l.OnSchedule st c' := by
  unfold OnSchedule at hl ⊢
  cases hpc : l.pc with
  | waitStart =>
      rw [hpc] at hl
      exact ⟨hl.1, hl.2.trans hc⟩
  | readA =>
      rw [hpc] at hl
      exact ⟨hl.1, hl.2.trans hc⟩
  | drawNext =>
      rw [hpc] at hl
      exact ⟨hl.1, hl.2.1, hl.2.2.1.trans hc, hl.2.2.2⟩
  | put =>
      rw [hpc] at hl
      exact ⟨hl.1, hl.2.trans_le (by exact_mod_cast hc)⟩
  | _ =>
      rw [hpc] at hl
      exact hl

theorem accessClock_mono (hc : Memory.accessClock c o = some c') : c ≤ c' := by
  cases o with
  | nowNs t =>
      simp only [Memory.accessClock] at hc
      split_ifs at hc with ht
      cases hc
      exact ht.1
  | _ =>
      cases hc
      exact le_refl _

theorem accessClock_nowNs {t : ℤ} (hc : Memory.accessClock c (.nowNs t) = some c') :
    c' = t ∧ c ≤ t ∧ t ≠ 0 := by
  simp only [Memory.accessClock] at hc
  split_ifs at hc with ht
  cases hc
  exact ⟨rfl, ht⟩

/-- **Every step of the loop keeps it on schedule.** -/
theorem OnSchedule.step (hl : l.OnSchedule st c) (h : l.step S o = some l')
    (hc : Memory.accessClock c o = some c') : l'.OnSchedule (st.observe l.pc o) c' := by
  have hmono := accessClock_mono hc
  unfold OnSchedule at hl
  cases step_iff.mp h with
  | reset hpc =>
      unfold OnSchedule resetFrom
      split_ifs <;> trivial
  | drawFirst hpc hx =>
      rw [hpc]
      exact Stretch.between_first _
  | running hpc =>
      rw [hpc] at hl ⊢
      exact hl
  | readB hpc t =>
      -- the top of a round
      rw [hpc] at hl ⊢
      obtain ⟨rfl, -, -⟩ := accessClock_nowNs hc
      exact ⟨hl.top _, le_refl _⟩
  | waitStart hpc t =>
      rw [hpc] at hl ⊢
      obtain ⟨rfl, ht, -⟩ := accessClock_nowNs hc
      exact ⟨hl.1, hl.2.trans ht⟩
  | waiting hpc hwait =>
      rw [hpc] at hl ⊢
      exact hl
  | waited hpc hwait =>
      -- the wait ends at a reading at least the budget after its start
      rw [hpc] at hl ⊢
      obtain ⟨rfl, -, -⟩ := accessClock_nowNs hc
      have hb := hl.2
      have hmax := le_max_left l.budget 0
      exact ⟨hl.1, by simp only; omega⟩
  | readA hpc t =>
      rw [hpc] at hl ⊢
      obtain ⟨rfl, ht, hne⟩ := accessClock_nowNs hc
      exact ⟨hl.1, hl.2.trans ht, le_refl _, hne⟩
  | drawNext hpc hx =>
      rw [hpc] at hl ⊢
      obtain ⟨hround, hbudget, hac, ha⟩ := hl
      have hdue := hround.due_lt hbudget
      have hclock : (l.a : ℚ) ≤ c' := by exact_mod_cast hac.trans hmono
      refine ⟨hround.draw ha _, ?_⟩
      show Stretch.due { st with intervals := st.intervals ++ [_] } st.tops.length - _ < _
      rw [Stretch.due_append _ _ hround.length.ge]
      exact hdue.trans_le hclock
  | put hpc =>
      rw [hpc] at hl ⊢
      exact hl.1
  | size hpc n =>
      rw [hpc] at hl ⊢
      exact hl
  | changed hpc hv =>
      rw [hpc] at hl ⊢
      exact hl
  | unchanged hpc =>
      rw [hpc] at hl ⊢
      exact hl
  | reloadRps hpc v =>
      rw [hpc] at hl ⊢
      exact hl
  | restart hpc hv =>
      unfold OnSchedule resetFrom
      split_ifs <;> trivial
  | halt hpc =>
      unfold OnSchedule stopFrom
      split_ifs <;> trivial
  | stop hpc =>
      unfold OnSchedule stopFrom
      split_ifs <;> trivial
  | _ => trivial

theorem onSchedule_new (S : Setup) (c : ℤ) : (new S).OnSchedule {} c := by
  unfold new resetFrom
  split_ifs <;> trivial

end Loop

section system
variable {ω ρ : Type} {S : Setup} {W : Workload ω ρ} {workload : ω} {clock : ℤ}
  {h : History} {s : System ω}

theorem Reaches.paced (hr : Reaches S W workload clock h s) :
    ∃ st, (Loop.paced S).run (.new S, {}) (Threads.own .loop h) = some (s.loc .loop, st) ∧
      (s.loc .loop).OnSchedule st s.mem.clock := by
  refine Lts.history_induction (P := fun h (s : System ω) => ∃ st,
    (Loop.paced S).run (.new S, {}) (Threads.own .loop h) = some (s.loc .loop, st) ∧
      (s.loc .loop).OnSchedule st s.mem.clock) ?_ ?_ hr
  · exact ⟨{}, rfl, Loop.onSchedule_new S clock⟩
  · rintro h s ⟨t, o⟩ s' - ⟨st, hrun, hl⟩ hs
    have hclock := (Memory.access_iff.mp (step_access hs)).2.2.2.2.1
    rw [Threads.own_append]
    by_cases ht : t = .loop
    · subst ht
      have hloc := Threads.step_loc hs
      refine ⟨st.observe (s.loc .loop).pc o, ?_, hl.step hloc hclock⟩
      rw [Threads.own_singleton_self]
      exact (Lts.run_snoc_iff _).mpr
        ⟨_, hrun, Option.map_eq_some_iff.mpr ⟨s'.loc .loop, hloc, rfl⟩⟩
    · rw [Threads.own_singleton_of_ne o ht, List.append_nil, Threads.step_frame hs (Ne.symm ht)]
      exact ⟨st, hrun, hl.mono (Loop.accessClock_mono hclock)⟩

/-- **The budget follows the schedule without drift.**  When the loop is about to wait in
round `k` of a stretch, its budget is the time from the top of the round to the instant at
which request `k` is due, up to less than `k` nanoseconds; and request `k` is not put `k`
nanoseconds or more before that instant. -/
theorem budget_follows_schedule (hr : Reaches S W workload clock h s) :
    ∃ st, (Loop.paced S).run (.new S, {}) (Threads.own .loop h) = some (s.loc .loop, st) ∧
      ((s.loc .loop).pc = .waitStart → ∃ b, st.tops.getLast? = some b ∧
        st.intervals.length = st.tops.length ∧
        |((s.loc .loop).budget : ℚ) - (st.due st.tops.length - b)| < st.tops.length) ∧
      ((s.loc .loop).pc = .put → st.due st.tops.length - st.tops.length < s.mem.clock) := by
  obtain ⟨st, hrun, hl⟩ := hr.paced
  refine ⟨st, hrun, fun hpc => ?_, fun hpc => ?_⟩
  · rw [Loop.OnSchedule, hpc] at hl
    exact ⟨_, hl.1.top, hl.1.length, hl.1.error⟩
  · rw [Loop.OnSchedule, hpc] at hl
    exact hl.2

/-- The loop about to wait in its second round, after a first one with half a nanosecond left
over. -/
def secondWait : History :=
  opening.take 2 ++ [(Tid.loop, Op.draw 976562 (1 / 1953124))] ++ round 2 ++
    [(Tid.loop, Op.loadState .running), (Tid.loop, Op.nowNs 5)]

theorem budget_follows_schedule_second_wait :
    ∃ s, Reaches (defaults 1) constantWorkload () 1 secondWait s ∧
      ∃ st, (Loop.paced (defaults 1)).run (.new (defaults 1), {})
          (Threads.own .loop secondWait) = some (s.loc .loop, st) ∧
        st.tops = [1, 5] ∧ |((s.loc .loop).budget : ℚ) - (st.due 2 - 5)| < 2 := by
  have hrun : ((system (defaults 1) constantWorkload).run (start (defaults 1) () 1)
      secondWait).any (fun s => decide ((s.loc .loop).pc = .waitStart)) = true := by
    decide +kernel
  have hrecord : ((Loop.paced (defaults 1)).run (.new (defaults 1), {})
      (Threads.own .loop secondWait)).any (fun p => decide (p.2.tops = [1, 5])) = true := by
    decide +kernel
  obtain ⟨s, hr, hpc⟩ := (Option.any_eq_true _ _).mp hrun
  obtain ⟨st, hst, hwait, -⟩ := budget_follows_schedule hr
  rw [hst, Option.any_some, decide_eq_true_eq] at hrecord
  obtain ⟨b, hb, -, herr⟩ := hwait (of_decide_eq_true hpc)
  rw [hrecord] at hb herr
  obtain rfl := Option.some.inj hb
  exact ⟨s, hr, st, hst, hrecord, by exact_mod_cast herr⟩

end system

end Treadmill
