import TaskLoop.CommandLine.Directory
import TaskLoop.CommandLine.Report
import TaskLoop.Main
import TaskLoop.Proofs.Allocation
import TaskLoop.Proofs.Budgets
import TaskLoop.Proofs.Bystander
import TaskLoop.Proofs.CallStack
import TaskLoop.Proofs.Cancellation
import TaskLoop.Proofs.Conservation
import TaskLoop.Proofs.Destruction
import TaskLoop.Proofs.Finality
import TaskLoop.Proofs.ForwardJumps
import TaskLoop.Proofs.HookSchedule
import TaskLoop.Proofs.Isolation
import TaskLoop.Proofs.Latency
import TaskLoop.Proofs.Ownership
import TaskLoop.Proofs.Pass
import TaskLoop.Proofs.Quiescence
import TaskLoop.Proofs.RaisedTexts
import TaskLoop.Proofs.Rendering
import TaskLoop.Proofs.RoundRobin
import TaskLoop.Proofs.SettingsText
import TaskLoop.Proofs.Simulation
import TaskLoop.Proofs.SingleStep
import TaskLoop.Proofs.StopRequests
import TaskLoop.Proofs.Submission
import TaskLoop.Proofs.Timeout
import TaskLoop.Proofs.Timers
import TaskLoop.Proofs.Tracebacks
import TaskLoop.Proofs.Truncation
import TaskLoop.Proofs.Verdicts
import TaskLoop.Proofs.Watchers
