import Treadmill.Lib.Turns
import Treadmill.Steps

/-! # Round-robin

The scheduler's loop hands out the requests in turn: `next_` starts at queue `0` after the
`RESET`s of a stretch and goes round.  A pause may cut a stretch anywhere, and the next one
starts at queue `0` again.

`InTurn` says at each control point how `next_` relates to the number of `SEND_REQUEST`s
since the last `RESET` on a queue; from it the loop takes turns (`takesTurns`), whatever it
reads and whatever sizes the queues have. -/

namespace Treadmill

/-! ### What the loop puts -/

/-- The queue that a `SEND_REQUEST` is put on. -/
def Op.sendsTo : Op → Option ℕ
  | .putMessage i e => if e = .sendRequest then some i else none
  | _ => none

/-- A `RESET` on queue `q`. -/
def Op.resets (q : ℕ) (o : Op) : Bool := o = .putMessage q .reset

/-- The queues that the loop has put a `SEND_REQUEST` on, in order. -/
def sendsOf (ops : List Op) : List ℕ := ops.filterMap Op.sendsTo

/-- The queues that the loop has put a `SEND_REQUEST` on since the last `RESET` on queue
`q`. -/
def sendsSince (q : ℕ) (ops : List Op) : List ℕ := stretch (Op.resets q) Op.sendsTo ops

/-- The `RESET`s that the loop has put on queue `q`. -/
def resetsOf (q : ℕ) (ops : List Op) : ℕ := ops.countP (Op.resets q)

theorem Op.sendsTo_eq_some {o : Op} {i : ℕ} :
    o.sendsTo = some i ↔ o = .putMessage i .sendRequest := by
  cases o with
  | putMessage j e => simp [sendsTo, and_comm]
  | _ => simp [sendsTo]

theorem Op.resets_of_sendsTo (q : ℕ) (o : Op) (i : ℕ) (ho : o.sendsTo = some i) :
    o.resets q = false := by
  rw [sendsTo_eq_some] at ho
  subst ho
  simp [resets, Event.sendRequest, Event.reset]

section puts
variable {q i : ℕ} {o : Op} (ops : List Op)

theorem resetsOf_snoc (o : Op) :
    resetsOf q (ops ++ [o]) = resetsOf q ops + if o.resets q then 1 else 0 := by
  rw [resetsOf, List.countP_append, List.countP_singleton, resetsOf]

theorem quiet_snoc (ho : ∀ j e, o ≠ .putMessage j e) :
    resetsOf q (ops ++ [o]) = resetsOf q ops ∧ sendsSince q (ops ++ [o]) = sendsSince q ops := by
  have hr : o.resets q = false := decide_eq_false (ho q .reset)
  have hs : o.sendsTo = none := by
    cases hs : o.sendsTo with
    | none => rfl
    | some j => exact absurd (Op.sendsTo_eq_some.mp hs) (ho j .sendRequest)
  constructor
  · rw [resetsOf_snoc, hr]
    rfl
  · exact stretch_idle ops hr hs

theorem send_snoc (i : ℕ) :
    resetsOf q (ops ++ [.putMessage i .sendRequest]) = resetsOf q ops ∧
      sendsSince q (ops ++ [.putMessage i .sendRequest]) = sendsSince q ops ++ [i] := by
  have hs : (Op.putMessage i .sendRequest).sendsTo = some i := Op.sendsTo_eq_some.mpr rfl
  have hr := Op.resets_of_sendsTo q _ i hs
  constructor
  · rw [resetsOf_snoc, hr]
    rfl
  · exact stretch_served ops hr hs

theorem reset_snoc :
    resetsOf q (ops ++ [.putMessage q .reset]) = resetsOf q ops + 1 ∧
      sendsSince q (ops ++ [.putMessage q .reset]) = [] := by
  have hr : (Op.putMessage q .reset).resets q = true := by simp [Op.resets]
  constructor
  · rw [resetsOf_snoc, if_pos hr]
  · exact stretch_restart ops hr

theorem reset_snoc_of_ne (hi : i ≠ q) :
    resetsOf q (ops ++ [.putMessage i .reset]) = resetsOf q ops ∧
      sendsSince q (ops ++ [.putMessage i .reset]) = sendsSince q ops := by
  have hr : (Op.putMessage i .reset).resets q = false := by simp [Op.resets, hi]
  constructor
  · rw [resetsOf_snoc, hr]
    rfl
  · exact stretch_idle ops hr (by simp [Op.sendsTo, Event.reset, Event.sendRequest])

end puts

/-! ### The position in the round -/

namespace Loop

/-- The loop on its own: what it reads, draws and observes is free. -/
def lts (S : Setup) : Lts Loop Op := ⟨Loop.step S⟩

/-- Where the loop is in the round, after `resets` `RESET`s on queue `q` and `sent`
`SEND_REQUEST`s since the last of them. -/
def InTurn (n q : ℕ) (l : Loop) (resets sent : ℕ) : Prop :=
  match l.pc with
  | .reset i => q < i → 0 < resets ∧ sent = 0
  | .loadRps => 0 < resets ∧ sent = 0
  -- between the put and `++next_`
  | .size => 0 < resets ∧ l.next < n ∧ (l.next + 1) % n = sent % n
  | .drawFirst | .checkRunning | .readB | .waitStart | .waiting _ | .readA | .drawNext
  | .put | .compareRps | .reloadRps => 0 < resets ∧ l.next = sent % n
  | _ => True

variable {S : Setup} {l l' : Loop} {o : Op} {q : ℕ} {ops : List Op}

theorem inTurn_resetFrom {i resets sent : ℕ} (hq : q < S.numberOfWorkers)
    (hi : q < i → 0 < resets ∧ sent = 0) :
    InTurn S.numberOfWorkers q (l.resetFrom S i) resets sent := by
  unfold resetFrom
  split_ifs with hlt
  · exact hi
  · exact hi (by omega)

theorem inTurn_stopFrom {i resets sent : ℕ} :
    InTurn S.numberOfWorkers q (l.stopFrom S i) resets sent := by
  unfold stopFrom
  split_ifs <;> trivial

theorem next_afterSize {sent : ℕ} (hnext : l.next < S.numberOfWorkers)
    (hturn : (l.next + 1) % S.numberOfWorkers = sent % S.numberOfWorkers) (n : ℕ) :
    (l.afterSize S n).next = sent % S.numberOfWorkers := by
  rw [← hturn]
  by_cases hlast : l.next + 1 = S.numberOfWorkers
  · simp [afterSize, hlast]
  · simp only [afterSize, if_neg hlast]
    rw [Nat.mod_eq_of_lt (by omega)]

theorem InTurn.quiet (ho : ∀ j e, o ≠ .putMessage j e)
    (ht : InTurn S.numberOfWorkers q l (resetsOf q ops) (sendsSince q ops).length) :
    InTurn S.numberOfWorkers q l (resetsOf q (ops ++ [o]))
      (sendsSince q (ops ++ [o])).length := by
  obtain ⟨hresets, hsends⟩ := quiet_snoc (q := q) ops ho
  rw [hresets, hsends]
  exact ht

/-- **A step keeps the position.** -/
theorem InTurn.step (hq : q < S.numberOfWorkers)
    (ht : InTurn S.numberOfWorkers q l (resetsOf q ops) (sendsSince q ops).length)
    (h : l.step S o = some l') :
    InTurn S.numberOfWorkers q l' (resetsOf q (ops ++ [o]))
      (sendsSince q (ops ++ [o])).length := by
  cases step_iff.mp h with
  | reset hpc =>
      rename_i i
      simp only [InTurn, hpc] at ht
      apply inTurn_resetFrom hq
      intro hlt
      by_cases hi : i = q
      · subst hi
        obtain ⟨hresets, hsends⟩ := reset_snoc (q := i) ops
        rw [hresets, hsends]
        exact ⟨by omega, rfl⟩
      · obtain ⟨hresets, hsends⟩ := reset_snoc_of_ne ops hi
        rw [hresets, hsends]
        exact ht (by omega)
  | put hpc =>
      simp only [InTurn, hpc] at ht
      obtain ⟨hresets, hsends⟩ := send_snoc (q := q) ops l.next
      rw [hresets, hsends, List.length_append, List.length_singleton]
      refine ⟨ht.1, ?_, ?_⟩
      · rw [ht.2]
        exact Nat.mod_lt _ (by omega)
      · rw [ht.2, Nat.mod_add_mod]
  | size hpc n =>
      simp only [InTurn, hpc] at ht
      refine InTurn.quiet (by simp) ?_
      exact ⟨ht.1, next_afterSize ht.2.1 ht.2.2 n⟩
  | loadRps hpc v =>
      simp only [InTurn, hpc] at ht
      refine InTurn.quiet (by simp) ?_
      rw [ht.2]
      exact ⟨ht.1, (Nat.zero_mod _).symm⟩
  | restart hpc hv =>
      apply inTurn_resetFrom hq
      intro hlt
      omega
  | notRunning hpc hv =>
      refine InTurn.quiet (by simp) ?_
      trivial
  | halt hpc => exact inTurn_stopFrom
  | stop hpc => exact inTurn_stopFrom
  | _ hpc =>
      simp only [InTurn, hpc] at ht
      refine InTurn.quiet (by simp) ?_
      exact ht

theorem inTurn_new (hq : q < S.numberOfWorkers) :
    InTurn S.numberOfWorkers q (.new S) (resetsOf q []) (sendsSince q []).length := by
  apply inTurn_resetFrom hq
  intro hlt
  omega

theorem InTurn.next_lt {resets sent : ℕ} (hN : 0 < S.numberOfWorkers)
    (ht : InTurn S.numberOfWorkers q l resets sent) (hpc : l.pc = .put ∨ l.pc = .size) :
    l.next < S.numberOfWorkers := by
  rcases hpc with hpc | hpc
  · simp only [InTurn, hpc] at ht
    rw [ht.2]
    exact Nat.mod_lt _ hN
  · simp only [InTurn, hpc] at ht
    exact ht.2.1

theorem InTurn.send {resets sent i : ℕ} (ht : InTurn S.numberOfWorkers q l resets sent)
    (h : l.step S o = some l') (ho : o.sendsTo = some i) :
    0 < resets ∧ i = sent % S.numberOfWorkers := by
  rw [Op.sendsTo_eq_some] at ho
  subst ho
  have hi := step_send h
  generalize he : Op.putMessage i .sendRequest = o at h
  cases step_iff.mp h with
  | put hpc =>
      simp only [InTurn, hpc] at ht
      rw [hi]
      exact ht
  | _ => simp [Event.sendRequest, Event.reset, Event.stop] at he

/-- **The loop takes turns**: it is where the number of sends since the last `RESET` says,
and each send went to the queue whose turn it was. -/
theorem takesTurns (hq : q < S.numberOfWorkers) (hr : (lts S).run (.new S) ops = some l) :
    InTurn S.numberOfWorkers q l (resetsOf q ops) (sendsSince q ops).length ∧
      TakesTurns (Op.resets q) Op.sendsTo S.numberOfWorkers ops := by
  refine Lts.history_induction (m := lts S)
    (P := fun ops l => InTurn S.numberOfWorkers q l (resetsOf q ops) (sendsSince q ops).length ∧
      TakesTurns (Op.resets q) Op.sendsTo S.numberOfWorkers ops) ?_ ?_ hr
  · exact ⟨inTurn_new hq, Always.nil⟩
  · rintro ops l o l' - ⟨hturn, htakes⟩ h
    exact ⟨hturn.step hq h, Always.snoc htakes fun i ho => hturn.send h ho⟩

end Loop

/-! ### The shares of the queues -/

/-- **Round-robin distribution.**  For any number of queues and any run of the loop:
`next_` is in range where it is used; the `k`-th `SEND_REQUEST` since the last `RESET` on any
queue is put on queue `k % n`; since then the numbers put on two queues differ by at most one,
the lower-numbered one never having fewer; and over the whole run they differ by at most the
number of `RESET`s on any queue. -/
theorem round_robin {S : Setup} (hN : 1 ≤ S.numberOfWorkers) {ops : List Op} {l : Loop}
    (hr : (Loop.lts S).run (.new S) ops = some l) :
    (l.pc = .put ∨ l.pc = .size → l.next < S.numberOfWorkers) ∧
    ∀ q < S.numberOfWorkers,
      (∀ before i after, ops = before ++ .putMessage i .sendRequest :: after →
        i = (sendsSince q before).length % S.numberOfWorkers) ∧
      ∀ i j, i ≤ j → j < S.numberOfWorkers →
        ((sendsSince q ops).count j ≤ (sendsSince q ops).count i ∧
          (sendsSince q ops).count i ≤ (sendsSince q ops).count j + 1) ∧
        (sendsOf ops).count j ≤ (sendsOf ops).count i ∧
          (sendsOf ops).count i ≤ (sendsOf ops).count j + resetsOf q ops := by
  refine ⟨(Loop.takesTurns hN hr).1.next_lt hN, ?_⟩
  intro q hq
  have htakes := (Loop.takesTurns hq hr).2
  refine ⟨?_, ?_⟩
  · intro before i after hops
    exact (htakes before _ after hops i (Op.sendsTo_eq_some.mpr rfl)).2
  · intro i j hij hj
    exact ⟨htakes.count_stretch hij hj, htakes.total (Op.resets_of_sendsTo q) hij hj⟩

/-- The `RESET`s of two queues and the first interval. -/
def Loop.openingOfTwo : List Op :=
  [.putMessage 0 .reset, .putMessage 1 .reset, .loadRps 1024, .draw 976562 0]

/-- A round that puts a request on queue `i` and finds `n` messages there. -/
def Loop.roundOn (i n : ℕ) : List Op :=
  [.loadState .running, .nowNs 1, .nowNs 1, .nowNs 1, .nowNs 1, .draw 976562 0,
    .putMessage i .sendRequest, .size i n, .loadRps 1024]

/-- The loop leaves a stretch and starts the next one: it sees a pause and then the
resumption. -/
def Loop.cut : List Op := [.loadState .paused, .loadState .running, .loadState .running]

/-- Two stretches that are both cut after queue `0`. -/
def Loop.cutStretches : List Op :=
  openingOfTwo ++ roundOn 0 1 ++ roundOn 1 1 ++ roundOn 0 2 ++ cut ++ openingOfTwo ++ roundOn 0 3

/-- Each cut stretch puts queue `0` one ahead. -/
theorem round_robin_cutStretches :
    (sendsOf Loop.cutStretches).count 0 = 3 ∧ (sendsOf Loop.cutStretches).count 1 = 1 ∧
      (sendsOf Loop.cutStretches).count 0 ≤
        (sendsOf Loop.cutStretches).count 1 + resetsOf 1 Loop.cutStretches := by
  have hrun :
      ((Loop.lts (defaults 2)).run (.new (defaults 2)) Loop.cutStretches).isSome = true := by
    decide +kernel
  obtain ⟨l, hr⟩ := Option.isSome_iff_exists.mp hrun
  obtain ⟨-, htotal⟩ := (round_robin (S := defaults 2) (by decide) hr).2 1 (by decide)
  exact ⟨by decide, by decide, (htotal 0 1 (by decide) (by decide)).2.2⟩

end Treadmill
