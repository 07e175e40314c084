import Isolyx.Library.Descriptors
import Isolyx.Library.Feedback
import Isolyx.Library.Fifo
import Isolyx.Library.Json
import Isolyx.Library.LexicalPath
import Isolyx.Library.PathWalk
import Isolyx.Library.Progress
import Isolyx.Library.Rounds
import Isolyx.Library.Run
import Isolyx.Library.Select
import Isolyx.Library.Service
import Isolyx.Library.Simulation
import Isolyx.Library.Split
import Isolyx.Library.Streams
import Isolyx.Library.Tally
import Isolyx.Library.Utf8
import Isolyx.Core.Command
import Isolyx.Core.Scheduler
import Isolyx.Core.Pool
import Isolyx.Core.Schedule
import Isolyx.Core.Shutdown
import Isolyx.Core.Collector
import Isolyx.Core.Dump
import Isolyx.Core.Event
import Isolyx.Core.EventPipe
import Isolyx.Core.Reader
import Isolyx.Core.ApiServer
import Isolyx.Core.Parser
import Isolyx.Core.JobLine
import Isolyx.Core.Intake
import Isolyx.Core.Invocation
import Isolyx.Core.Lifecycle
import Isolyx.Core.Processes
import Isolyx.Core.Executor
import Isolyx.Core.Pipeline
import Isolyx.Core.Plumbing
import Isolyx.Core.Isolator
import Isolyx.Core.ProcessGroup
import Isolyx.Core.Cgroup
import Isolyx.Core.Rootfs
import Isolyx.Core.SharedTmp
import Isolyx.Core.Collection
import Isolyx.Core.Launch
import Isolyx.Core.Handshake
import Isolyx.Core.Watchdogs
import Isolyx.Core.WatcherThread
import Isolyx.Core.Engine
import Isolyx.Core.SubmitHandler
import Isolyx.Core.Numbering
import Isolyx.Core.ChildLocks
import Isolyx.Core.Waits
import Isolyx.Core.OldRoot
import Isolyx.Core.Portal
import Isolyx.Core.Browser
import Isolyx.Theory.ExactlyOnce
import Isolyx.Theory.Drain
import Isolyx.Theory.Wakeup
import Isolyx.Theory.Batch
import Isolyx.Theory.RoundRobin
import Isolyx.Theory.Levels
import Isolyx.Theory.Bypass
import Isolyx.Theory.Overflow
import Isolyx.Theory.OneProcess
import Isolyx.Theory.Serialization
import Isolyx.Theory.Iteration
import Isolyx.Theory.Chunking
import Isolyx.Theory.Delivery
import Isolyx.Theory.Survival
import Isolyx.Theory.Correlation
import Isolyx.Theory.Framing
import Isolyx.Theory.IntakeOnce
import Isolyx.Theory.Submission
import Isolyx.Theory.ShellLine
import Isolyx.Theory.Mediation
import Isolyx.Theory.Wiring
import Isolyx.Theory.FailedPipelines
import Isolyx.Theory.NullPath
import Isolyx.Theory.CgroupsApart
import Isolyx.Theory.Preemption
import Isolyx.Theory.Containment
import Isolyx.Theory.Transparency
import Isolyx.Theory.Diagnosis
import Isolyx.Theory.Confidentiality
import Isolyx.Theory.Attribution
import Isolyx.Theory.Quiescence
import Isolyx.Theory.Collected
import Isolyx.Theory.FailClosed
import Isolyx.Theory.Release
import Isolyx.Theory.Verdicts
import Isolyx.Theory.Readiness
import Isolyx.Theory.Recycling
import Isolyx.Theory.Cleanup
import Isolyx.Theory.OneRootfs
import Isolyx.Theory.RemoteJobs
import Isolyx.Theory.Announced
import Isolyx.Theory.Refusals
import Isolyx.Theory.BasePath
import Isolyx.Theory.Hangs
import Isolyx.Theory.Waiters
import Isolyx.Theory.Liveness
import Isolyx.Theory.Multilevel
import Isolyx.Theory.Overtaking
import Isolyx.Theory.JobLife
import Isolyx.Theory.Pivoting
import Isolyx.Theory.RoundTrip
import Isolyx.Theory.Foreground
import Isolyx.Theory.Quantum
import Isolyx.Theory.Feed
import Isolyx.Theory.Dataflow
import Isolyx.Theory.Completion
import Isolyx.Theory.Atomicity
import Isolyx.Theory.Reports
import Isolyx.Theory.Deadlock
