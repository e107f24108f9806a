import Distra.Ipc.Message
import Distra.Network.Process

/-!
# The processes of `pa1`

`child_entry` and the end of `spawn_children`. Reads block: a receive that finds its channel empty
is still waiting. Nothing reads a message but for its type.
-/

namespace Distra.Pa1

open Network

/-- The lines that the processes log, without their texts. -/
inductive LogEntry where
  | started
  | receivedAllStarted
  | done
  | receivedAllDone
  deriving DecidableEq

/-- Where a process stands. -/
inductive Pc where
  | childBroadcastStarted
  /-- The end of `child_broadcast_started`, after its sends. -/
  | logStarted
  /-- `ipc_ext_await_all_started`, with the channel visited last. -/
  | awaitAllStarted (fr : Nat)
  | childBroadcastDone
  | logDone
  /-- `ipc_ext_await_all_done`, with the channel visited last. -/
  | awaitAllDone (fr : Nat)
  | exited
  /-- Ended by `log_panic`. -/
  | panicked
  deriving DecidableEq

structure Process where
  pc : Pc
  log : List LogEntry

abbrev ProcessNext := Next Nat Process MessageType

/-- Log a line and go on to `pc`. -/
def Process.logEvent (st : Process) (entry : LogEntry) (pc : Pc) : ProcessNext :=
  (⟨pc, st.log ++ [entry]⟩, [])

def Process.goTo (st : Process) (pc : Pc) (out : List (Nat × MessageType)) : ProcessNext :=
  ({ st with pc := pc }, out)

section Entry

variable (n self : Nat)

/-- `ipc_ext_receive_all_type`, and what comes after it. -/
def ipcExtReceiveAllType (st : Process) (type : MessageType) (fr : Nat) (pc : Nat → Pc)
    (next : ProcessNext) : Action Nat Process MessageType :=
  match ipcReceiveAllNext n self fr with
  | some q =>
    .receive q (fun m => st.goTo (if m = type then pc q else .panicked) []) (st, [])
  | none => .act next

def childEntry (st : Process) : Action Nat Process MessageType :=
  match st.pc with
  | .childBroadcastStarted => .act (st.goTo .logStarted (sendMulticast n self .started))
  | .logStarted => .act (st.logEvent .started (.awaitAllStarted parentId))
  | .awaitAllStarted fr =>
    ipcExtReceiveAllType n self st .started fr .awaitAllStarted
      (st.logEvent .receivedAllStarted .childBroadcastDone)
  | .childBroadcastDone => .act (st.goTo .logDone (sendMulticast n self .done))
  | .logDone => .act (st.logEvent .done (.awaitAllDone parentId))
  | .awaitAllDone fr =>
    ipcExtReceiveAllType n self st .done fr .awaitAllDone (st.logEvent .receivedAllDone .exited)
  | .exited | .panicked => .stop

/-- What `spawn_children` does in the parent after the last `fork`, up to its `wait`s. -/
def parentEntry (st : Process) : Action Nat Process MessageType :=
  match st.pc with
  | .awaitAllStarted fr =>
    ipcExtReceiveAllType n parentId st .started fr .awaitAllStarted
      (st.logEvent .receivedAllStarted (.awaitAllDone parentId))
  | .awaitAllDone fr =>
    ipcExtReceiveAllType n parentId st .done fr .awaitAllDone
      (st.logEvent .receivedAllDone .exited)
  | _ => .stop

end Entry

/-- What `spawn_children` runs in the process with local id `self`. -/
def spawnChildren (cfg : Config) : Code Nat Process MessageType := fun self st =>
  if self = parentId then parentEntry cfg.numChildren st
  else if self ≤ cfg.numChildren then childEntry cfg.numChildren self st
  else .stop

def initialProcess (self : Nat) : Process :=
  ⟨if self = parentId then .awaitAllStarted parentId else .childBroadcastStarted, []⟩

/-- All processes before their first step. -/
def initialState : State Nat Process MessageType := .initial initialProcess

/-- A run of the parent and all children. -/
abbrev BarrierRun (cfg : Config) := Execution (spawnChildren cfg) initialState

end Distra.Pa1
