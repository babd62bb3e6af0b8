import Mathlib.Data.Rat.Defs
import Mathlib.Algebra.Order.Ring.Rat
import Treadmill.Event
import Treadmill.Lib.Tally

/-! # The worker

`Worker<Service>` (`Worker.h`): the handlers that run on the worker's event base, as
functions from the worker to the worker and the list of its effects on everything else
(connections, workload, statistics, scheduler), in the order of the source.

* The workload is a parameter (`Workload`), as the class template has it.  Its
  `getNextRequest` may read the phase and returns `none` for the null request.
* The environment of a handler supplies the clock readings and the completions that run
  inline in it.  A request's reply completes at most once, and so does the workload's
  future for it: `inFlight` and `openFutures` hold the requests for which this has not
  happened yet, numbered from `0` in the order they were sent.
* The statistics are `double`s in the source and rationals here. -/

namespace Treadmill

/-- The operations of a `Workload<Service>` specialisation over its own state `ω`; `ρ` is
`Service::Request`. -/
structure Workload (ω ρ : Type) where
  reset : ω → ω
  getNextRequest : String → ω → Option ρ × ω

/-- What a reply ends with: a value, or an exception of the class of this name. -/
inductive Reply where
  | value
  | exception (className : String)
deriving DecidableEq, Repr

/-- A continuation that runs on the event base: the reply to a request arrives, or the
workload's future for a request ends, possibly with an error. -/
inductive Completion where
  | reply (request : ℕ) (t : Reply) (recvTime : ℤ)
  | future (request : ℕ) (error : Option String)
deriving DecidableEq, Repr

/-- What the environment supplies to one `sendRequest`: the readings of the clock at the
send and after it, and the completions that run in between. -/
structure SendEnv where
  sendTime : ℤ := 0
  completions : List Completion := []
  now : ℤ := 0
deriving DecidableEq, Repr

/-- What a handler does outside the worker. -/
inductive Effect (ρ : Type) where
  /-- `workload_.reset()` -/
  | reset
  /-- `workload_.getNextRequest()` -/
  | getNextRequest
  /-- `connections_[connection]->sendRequest(request)` -/
  | sendRequest (connection : ℕ) (request : ρ)
  /-- the reply continuation of this request ran -/
  | reply (request : ℕ) (t : Reply)
  /-- `latency_statistic_->addValue` -/
  | latency (v : ℚ)
  /-- the error continuation on the workload's future of this request ran -/
  | uncaught (request : ℕ) (className : String)
  /-- the end of `sendRequest` was reached at this reading of the clock -/
  | estimate (t : ℤ)
  /-- `throughput_statistic_->addValue` -/
  | throughput (v : ℚ)
  /-- `outstanding_statistic_->addValue` -/
  | outstanding (v : ℤ)
  /-- `exceptions_statistic_->increase` -/
  | increaseExceptions (n : ℕ) (className : String)
  /-- `uncaught_exceptions_statistic_->increase` -/
  | increaseUncaughtExceptions (n : ℕ) (className : String)
  /-- `setWorkerCounter(kOutstandingRequestsCounter, v)` -/
  | setWorkerCounter (v : ℤ)
  /-- `stopConsuming()` -/
  | stopConsuming
  /-- `terminate_early_fn_()` -/
  | terminateEarly

/-- `Worker<Service>`. -/
structure Worker (ω : Type) where
  numberOfWorkers : ℤ
  numberOfConnections : ℕ
  maxOutstandingRequests : Int32
  workload : ω
  phase : String
  running : Bool
  consuming : Bool
  connIdx : ℕ
  outstandingRequests : ℤ
  lastThroughputTime : ℤ
  nThroughputRequests : ℤ
  nExceptionsByType : Tally String
  nUncaughtExceptionsByType : Tally String
  /-- requests sent so far; the next one gets this number -/
  sent : ℕ
  /-- requests whose reply has not completed, with their send times -/
  inFlight : List (ℕ × ℤ)
  /-- requests whose workload future has not ended -/
  openFutures : List ℕ

namespace Worker

variable {ω ρ : Type} (W : Workload ω ρ)

/-- A worker after its constructor and `run()`, when its sender thread starts to consume
the queue. -/
def start (numberOfWorkers : ℤ) (numberOfConnections : ℕ) (maxOutstandingRequests : Int32)
    (workload : ω) (now : ℤ) : Worker ω where
  numberOfWorkers := numberOfWorkers
  numberOfConnections := numberOfConnections
  maxOutstandingRequests := maxOutstandingRequests
  workload := workload
  phase := ""
  running := true
  consuming := true
  connIdx := 0
  outstandingRequests := 0
  lastThroughputTime := now
  nThroughputRequests := 0
  nExceptionsByType := .empty
  nUncaughtExceptionsByType := .empty
  sent := 0
  inFlight := []
  openFutures := []

/-- `Worker::hasMoreWork`. -/
def hasMoreWork (w : Worker ω) : Bool := w.running || decide (0 < w.outstandingRequests)

/-- `Worker::setMaxOutstanding`. -/
def setMaxOutstanding (w : Worker ω) (maxOutstandingRequests : Int32) : Worker ω :=
  { w with maxOutstandingRequests := maxOutstandingRequests }

/-- The continuation on a reply (the lambda of `Worker::sendRequest`). -/
def replyCallback (w : Worker ω) (request : ℕ) (sendTime : ℤ) (t : Reply) (recvTime : ℤ) :
    Worker ω × List (Effect ρ) :=
  -- a worker that is not running has already released its latency statistic
  let latency := if w.running then [Effect.latency ((recvTime - sendTime : ℤ) / 1000)] else []
  let nExceptionsByType := match t with
    | .exception className => w.nExceptionsByType.bump className
    | .value => w.nExceptionsByType
  ({ w with
      inFlight := w.inFlight.filter fun e => e.1 ≠ request
      nThroughputRequests := w.nThroughputRequests + 1
      nExceptionsByType := nExceptionsByType
      outstandingRequests := w.outstandingRequests - 1 },
    latency ++ [.reply request t, .setWorkerCounter (w.outstandingRequests - 1)])

/-- The error continuation on the workload's future. -/
def futureCallback (w : Worker ω) (request : ℕ) :
    Option String → Worker ω × List (Effect ρ)
  | none => ({ w with openFutures := w.openFutures.erase request }, [])
  | some className =>
      ({ w with
          openFutures := w.openFutures.erase request
          nUncaughtExceptionsByType := w.nUncaughtExceptionsByType.bump className },
        [.uncaught request className])

/-- Run a continuation, which must be due. -/
def complete (w : Worker ω) : Completion → Option (Worker ω × List (Effect ρ))
  | .reply request t recvTime =>
      (w.inFlight.lookup request).map fun sendTime =>
        w.replyCallback request sendTime t recvTime
  | .future request error =>
      if request ∈ w.openFutures then some (w.futureCallback request error) else none

/-- Run continuations one after another. -/
def completeAll (w : Worker ω) : List Completion → Option (Worker ω × List (Effect ρ))
  | [] => some (w, [])
  | c :: cs =>
      (w.complete c).bind fun (w', es) =>
        (w'.completeAll cs).map fun (w'', es') => (w'', es ++ es')

/-- The estimates of throughput and outstanding requests, at most ten times a second. -/
def sample (w : Worker ω) (t : ℤ) : Worker ω × List (Effect ρ) :=
  let throughputDelta : ℚ := (t - w.lastThroughputTime : ℤ) / 1000000000
  if 1 / 10 ≤ throughputDelta then
    ({ w with nThroughputRequests := 0, lastThroughputTime := t },
      [.throughput (w.nThroughputRequests / throughputDelta * w.numberOfWorkers),
        .outstanding (w.outstandingRequests * w.numberOfWorkers)])
  else (w, [])

/-- The end of `Worker::sendRequest`: estimate throughput and outstanding requests, and push
the exceptions counted since the last time to the shared counters. -/
def estimate (w : Worker ω) (t : ℤ) : Worker ω × List (Effect ρ) :=
  let (w', samples) := w.sample t
  ({ w' with nExceptionsByType := .empty, nUncaughtExceptionsByType := .empty },
    .estimate t :: samples
      ++ w.nExceptionsByType.entries.map (fun p => .increaseExceptions p.2 p.1)
      ++ w.nUncaughtExceptionsByType.entries.map (fun p => .increaseUncaughtExceptions p.2 p.1)
      ++ [.setWorkerCounter w.outstandingRequests])

/-- The members that change when a request is about to be sent. -/
def issue (w : Worker ω) (workload : ω) (sendTime : ℤ) : Worker ω :=
  { w with
      workload := workload
      outstandingRequests := w.outstandingRequests + 1
      connIdx := (w.connIdx + 1) % w.numberOfConnections
      sent := w.sent + 1
      inFlight := w.inFlight ++ [(w.sent, sendTime)]
      openFutures := w.openFutures ++ [w.sent] }

/-- The guard of `Worker::sendRequest`. -/
def maySend (w : Worker ω) : Bool :=
  decide (w.outstandingRequests < w.maxOutstandingRequests.toInt) && w.running

/-- `Worker::sendRequest`. -/
def sendRequest (w : Worker ω) (env : SendEnv) : Option (Worker ω × List (Effect ρ)) :=
  if w.maySend then
    match W.getNextRequest w.phase w.workload with
    | (none, workload) =>
        -- the null request ends the run, without the estimates
        some ({ w with workload := workload, running := false },
          [.getNextRequest, .terminateEarly])
    | (some request, workload) =>
        ((w.issue workload env.sendTime).completeAll env.completions).map fun (w', es) =>
          let (w'', es') := w'.estimate env.now
          (w'', .getNextRequest :: .sendRequest w.connIdx request :: es ++ es')
  else some (w.estimate env.now)

/-- `Worker::messageAvailable`. -/
def messageAvailable (w : Worker ω) (event : Event) (env : SendEnv) :
    Option (Worker ω × List (Effect ρ)) :=
  if event.eventType = .stop ∨ w.running = false then
    some ({ w with consuming := false, running := false }, [.stopConsuming])
  else
    match event.eventType with
    | .reset => some ({ w with workload := W.reset w.workload }, [.reset])
    | .sendRequest => w.sendRequest W env
    -- extra data of the wrong type is logged only
    | .setMaxOutstanding =>
        match event.extraData with
        | .int i => some (w.setMaxOutstanding i.toInt32, [])
        | .null | .string _ => some (w, [])
    | .setPhase =>
        match event.extraData with
        | .string phase => some ({ w with phase := phase }, [])
        | .null | .int _ => some (w, [])
    | .stop => some (w, [])

/-- One handler on the worker's event base, or the runner's call of `stop()`. -/
inductive Input where
  | message (event : Event) (env : SendEnv)
  | completion (c : Completion)
  | stop
deriving DecidableEq, Repr

/-- The handler of an input; messages come only while the queue is consumed. -/
def step (w : Worker ω) : Input → Option (Worker ω × List (Effect ρ))
  | .message event env => if w.consuming then w.messageAvailable W event env else none
  | .completion c => w.complete c
  | .stop => some ({ w with running := false }, [])

end Worker

end Treadmill
