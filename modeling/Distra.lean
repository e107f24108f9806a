import Distra.Pa4.Mutex
import Distra.Pa5.Mutex
import Distra.Pa6.Mutex
import Distra.Pa4.Runs
import Distra.Exclusion.Order
import Distra.Exclusion.Lamport
import Distra.Pa4.Grants
import Distra.Pa4.Refinement
import Distra.Exclusion.RicartAgrawala
import Distra.Pa5.MutexSteps
import Distra.Pa5.Refinement
import Distra.Pa4.Progress
import Distra.Pa4.MutexProgress
import Distra.Pa5.Progress
import Distra.Exclusion.Forks
import Distra.Exclusion.Philosophers
import Distra.Pa6.MutexSteps
import Distra.Pa6.Refinement
import Distra.Pa6.Progress
import Distra.Pa2.Processes
import Distra.Pa3.Processes
import Distra.Pa23.Steps
import Distra.Pa23.Traffic
import Distra.Pa23.Shape
import Distra.Pa23.ShapeSteps
import Distra.Pa23.Progress
import Distra.Pa23.Shutdown
import Distra.Pa23.Termination
import Distra.Pa23.Doomed
import Distra.Pa23.Completion
import Distra.Pa23.EarlyDone
import Distra.Accounts.Transit
import Distra.Pa3.Ledger
import Distra.Pa3.Clocks
import Distra.Pa23.Lost
import Distra.Pa3.Histories
import Distra.Pa3.Determinism
import Distra.Pa4.Taken
import Distra.Pa5.Replies
import Distra.Pa6.Handovers
import Distra.Network.Script
import Distra.Pa1.Barriers
import Distra.Pa4.Shutdown
import Distra.Network.Potential
import Distra.Pa4.Parent
import Distra.Pa4.ClockBudget
import Distra.Pa5.ClockBound
import Distra.Pa23.Restored
import Distra.Pa2.Transfers
import Distra.Pa23.Robbery
import Distra.Network.Causality
import Distra.Pa3.ClockCondition
import Distra.Ipc.Packed
import Distra.Ipc.Calls
import Distra.Ipc.Pipe
import Distra.Pa4.QueueOrder
import Distra.Pa6.Pairs
import Distra.Accounts.Statement
import Distra.Pa23.Alone
import Distra.Pa3.ChildHistory
import Distra.Pa3.MachineHistory
import Distra.Pa2.ChildHistory
import Distra.Ipc.Reads
import Distra.Ipc.Attempts
import Distra.Ipc.Polling
import Distra.Pa4.Interruptions
import Distra.Pa5.Interruptions
import Distra.Ipc.Descriptors
import Distra.Ipc.Routing
import Distra.Exclusion.Requests
import Distra.Network.Traffic
import Distra.Pa6.Requests
import Distra.Pa6.ClockBound
import Distra.Network.Termination
import Distra.Network.Lockstep
import Distra.Pa4.Announcements
import Distra.Pa4.Departures
import Distra.Pa5.Shutdown
import Distra.Pa6.Shutdown
import Distra.Pa4.Tallies
import Distra.Pa4.Messages
import Distra.Pa5.Messages
import Distra.Pa4.Termination
import Distra.Pa4.Completion
import Distra.Pa5.Completion
import Distra.Pa6.Completion
import Distra.Pa4.ClockBound
import Distra.Ipc.Piped
import Distra.Ipc.Simulation
import Distra.Ipc.Advance
import Distra.Ipc.Headers
import Distra.Pa4.Wires
import Distra.Pa4.Pipes
import Distra.Pa5.Pipes
import Distra.Pa6.Pipes
import Distra.Exclusion.Overtaking
import Distra.Pa4.Overtaking
import Distra.Pa5.Overtaking
import Distra.Pa4.Waiting
import Distra.Pa5.Waiting
import Distra.Ipc.Replay
import Distra.Pa23.Payloads
import Distra.Pa23.Pipes
import Distra.Pa1.Termination
import Distra.Pa1.Pipes
import Distra.Ipc.Timestamp
import Distra.Pa3.Machine
import Distra.Pa3.MachineRuns
