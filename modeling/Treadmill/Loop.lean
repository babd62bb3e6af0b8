import Treadmill.Memory

/-! # The scheduler's loop

The control of the thread that runs `Scheduler::loop`: where it is (`Pc`) and what it
holds, which are the locals of the function and the members `next_` and `logged_` that no
other thread touches.  Every read of a shared member, every `putMessage`, every reading of
the clock and every drawn interval is one operation.

The arithmetic on the `double` intervals is exact here and the conversion to `int64_t`
truncates.  `1.0 / rps` with a zero `rps` is left at Lean's value of the division. -/

namespace Treadmill

/-- Where the loop is. -/
inductive Pc where
  /-- in `messageAllWorkers(Event(EventType::RESET))`, before queue `i` -/
  | reset (i : ℕ)
  /-- `int32_t rps = rps_` -/
  | loadRps
  /-- the interval that `budget` starts with -/
  | drawFirst
  /-- `while (state_ == RUNNING)` -/
  | checkRunning
  /-- `b = nowNs()` -/
  | readB
  /-- `waitNs(std::max(budget, 0L))`, before its first reading -/
  | waitStart
  /-- the spin loop of that `waitNs` -/
  | waiting (start : ℤ)
  /-- `a = nowNs()` -/
  | readA
  /-- the interval added to `budget` -/
  | drawNext
  /-- `queues_[next_].putMessage(Event(EventType::SEND_REQUEST))` -/
  | put
  /-- `queues_[next_].size()` -/
  | size
  /-- `if (rps != rps_)` -/
  | compareRps
  /-- `rps = rps_` -/
  | reloadRps
  /-- `while (state_ == PAUSED)` -/
  | checkPaused
  /-- `waitNs(1000)`, before its first reading -/
  | pauseStart
  /-- the spin loop of that `waitNs` -/
  | pausing (start : ℤ)
  /-- `while (state_ != STOPPING)` -/
  | checkStopping
  /-- in `messageAllWorkers(Event(EventType::STOP))`, before queue `i` -/
  | stop (i : ℕ)
  /-- `promise_.setValue(folly::Unit())` -/
  | setValue
  | done
deriving DecidableEq, Repr

/-- The loop: where it is and what it holds. -/
structure Loop where
  pc : Pc
  next : ℕ
  logged : ℕ → UInt64
  rps : Int32
  intervalNs : ℤ
  a : ℤ
  b : ℤ
  budget : ℤ

/-- The conversion from `double` to `int64_t`. -/
def truncate (q : ℚ) : ℤ := q.num.tdiv q.den

/-- `k_ns_per_s`. -/
def kNsPerS : ℤ := 1000000000

/-- `interval_ns = 1.0 / rps * k_ns_per_s`.  At rate zero the source converts an infinite quotient
to `int64_t`; what is said of progress and of the pace is said at positive rates. -/
def meanInterval (rps : Int32) : ℤ := truncate (1 / (rps.toInt : ℚ) * kNsPerS)

/-- `Scheduler::randomExponentialInterval` when the logarithm drawn is `-x`. -/
def randomExponentialInterval (mean : ℤ) (x : ℚ) : ℚ := x * mean

namespace Loop

/-- Continue `messageAllWorkers(Event(EventType::RESET))` at queue `i`. -/
def resetFrom (S : Setup) (l : Loop) (i : ℕ) : Loop :=
  { l with pc := if i < S.numberOfWorkers then .reset i else .loadRps }

/-- Continue `messageAllWorkers(Event(EventType::STOP))` at queue `i`. -/
def stopFrom (S : Setup) (l : Loop) (i : ℕ) : Loop :=
  { l with pc := if i < S.numberOfWorkers then .stop i else .setValue }

/-- The loop of a new scheduler, about to message the first `RESET`. -/
def new (S : Setup) : Loop :=
  resetFrom S ⟨.reset 0, 0, fun _ => 1, 0, 0, 0, 0, 0⟩ 0

/-- The overload log after a put, and the step to the next queue. -/
def afterSize (S : Setup) (l : Loop) (size : ℕ) : Loop :=
  let threshold := S.maxOutstandingRequestsPerWorker.toUInt32.toUInt64
  let logged :=
    if (threshold * l.logged l.next).toNat < size then
      Function.update l.logged l.next (l.logged l.next * 2)
    else l.logged
  { l with
      pc := .compareRps
      logged := logged
      next := if l.next + 1 = S.numberOfWorkers then 0 else l.next + 1 }

/-- The control of the loop. -/
def step (S : Setup) (l : Loop) (o : Op) : Option Loop :=
  match l.pc, o with
  | .reset i, .putMessage j e =>
      if j = i ∧ e = .reset then some (l.resetFrom S (i + 1)) else none
  | .loadRps, .loadRps v =>
      some { l with
        pc := .drawFirst, next := 0, rps := v.toInt32, intervalNs := meanInterval v.toInt32 }
  | .drawFirst, .draw mean x =>
      if mean = l.intervalNs ∧ 0 ≤ x then
        some { l with
          pc := .checkRunning, a := 0, b := 0
          budget := truncate (randomExponentialInterval mean x) }
      else none
  | .checkRunning, .loadState v =>
      some { l with pc := if v = .running then .readB else .checkPaused }
  | .readB, .nowNs t =>
      some { l with
        pc := .waitStart, b := t
        -- account for time spent sending the message
        budget := if l.a ≠ 0 then l.budget - (t - l.a) else l.budget }
  | .waitStart, .nowNs t => some { l with pc := .waiting t }
  | .waiting start, .nowNs t =>
      some { l with pc := if t - start < max l.budget 0 then .waiting start else .readA }
  | .readA, .nowNs t => some { l with pc := .drawNext, a := t }
  | .drawNext, .draw mean x =>
      if mean = l.intervalNs ∧ 0 ≤ x then
        some { l with
          pc := .put
          budget := truncate (l.budget + (randomExponentialInterval mean x - (l.a - l.b : ℤ))) }
      else none
  | .put, .putMessage j e =>
      if j = l.next ∧ e = .sendRequest then some { l with pc := .size } else none
  | .size, .size j n => if j = l.next then some (l.afterSize S n) else none
  | .compareRps, .loadRps v =>
      some { l with pc := if l.rps.toUInt32 ≠ v then .reloadRps else .checkRunning }
  | .reloadRps, .loadRps v =>
      some { l with
        pc := .checkRunning, rps := v.toInt32, intervalNs := meanInterval v.toInt32 }
  | .checkPaused, .loadState v =>
      some { l with pc := if v = .paused then .pauseStart else .checkStopping }
  | .pauseStart, .nowNs t => some { l with pc := .pausing t }
  | .pausing start, .nowNs t =>
      some { l with pc := if t - start < 1000 then .pausing start else .checkPaused }
  | .checkStopping, .loadState v =>
      some (if v ≠ .stopping then l.resetFrom S 0 else l.stopFrom S 0)
  | .stop i, .putMessage j e =>
      if j = i ∧ e = .stop then some (l.stopFrom S (i + 1)) else none
  | .setValue, .setValue => some { l with pc := .done }
  | _, _ => none

end Loop

end Treadmill
