import Treadmill.Steps
import Treadmill.Discipline
import Treadmill.Promptness
import Treadmill.Resync
import Treadmill.WorkerSteps
import Treadmill.Accounting
import Treadmill.Report
import Treadmill.Gate
import Treadmill.Watchdog
import Treadmill.PhaseCheck
import Treadmill.Delivery
import Treadmill.Agreement
import Treadmill.Limits
import Treadmill.Memcached
import Treadmill.Rates
import Treadmill.Arming
import Treadmill.Pacing
import Treadmill.Shutdown
import Treadmill.Phases
import Treadmill.Conservation
import Treadmill.Blocks
import Treadmill.Lib.Turns
import Treadmill.Lines
import Treadmill.Overload
import Treadmill.Lib.Linearizable
import Treadmill.Progress
import Treadmill.Drain
import Treadmill.Lifecycle
import Treadmill.Liveness
import Treadmill.Completion
import Treadmill.Requests
import Treadmill.KeyOrder
import Treadmill.Samples
import Treadmill.Lib.Monitor
import Treadmill.Registry
import Treadmill.Service
import Treadmill.Answers
import Treadmill.Connections
import Treadmill.Lib.Retry
import Treadmill.Launch
