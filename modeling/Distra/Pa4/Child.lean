import Distra.Ipc.Message
import Distra.Network.Process

/-!
# The processes of `pa4`

`child_entry` and `parent_entry`, linked with some `mutex.c`. A mutex is the list of pieces of
code that run between two receives: `child_entry` is the same for the three of them.
-/

namespace Distra

open Network

abbrev Sends := List (Nat × Message)

/-- What the functions of `mutex.c` work on: `struct Mutex` and the clock of the process. -/
structure Local (μ : Type) where
  mux : μ
  lamportTime : Nat

/-- Where `request_cs` or `handle_cs_requests` stands when it has dealt with a message. -/
inductive Verdict where
  | waits
  | entered
  | nonCsMessageReceived
  deriving DecidableEq, Repr

/-- The end of a round of `request_cs` with a CS message. The loop is left if `ready`, and `reset`
is what follows it. -/
def enterIf {μ : Type} (ready : Prop) [Decidable ready] (reset : μ → μ) (l : Local μ)
    (out : Sends) : Verdict × Local μ × Sends :=
  if ready then (.entered, { l with mux := reset l.mux }, out) else (.waits, l, out)

section EnterIf

variable {μ : Type} (ready : Prop) [Decidable ready] (reset : μ → μ) (l : Local μ) (out : Sends)

theorem enterIf_sends : (enterIf ready reset l out).2.2 = out := by
  unfold enterIf
  split <;> rfl

theorem enterIf_clock : (enterIf ready reset l out).2.1.lamportTime = l.lamportTime := by
  unfold enterIf
  split <;> rfl

theorem enterIf_keeps {α : Type} (part : μ → α) (keeps : ∀ mux, part (reset mux) = part mux) :
    part (enterIf ready reset l out).2.1.mux = part l.mux := by
  unfold enterIf
  split
  · exact keeps l.mux
  · rfl

theorem enterIf_cs : (enterIf ready reset l out).1 ≠ .nonCsMessageReceived := by
  unfold enterIf
  split <;> simp

end EnterIf

/-- A poll of `request_cs` that found nothing goes back to the poll. -/
def pollAgain {μ : Type} (l : Local μ) : Option (Verdict × Local μ × Sends) := some (.waits, l, [])

theorem pollAgain_waits {μ : Type} {l l' : Local μ} {verdict : Verdict} {out : Sends}
    (found : pollAgain l = some (verdict, l', out)) : verdict = .waits ∧ l' = l ∧ out = [] := by
  cases found
  exact ⟨rfl, rfl, rfl⟩

/-- The clock once `m` has been taken. -/
def Local.received {μ : Type} (l : Local μ) (m : Message) : Local μ :=
  { l with lamportTime := synchronizeTime m.localTime l.lamportTime }

theorem Local.received_heard {μ : Type} (l : Local μ) (m : Message) :
    max l.lamportTime m.localTime ≤ (l.received m).lamportTime :=
  max_le (lt_synchronizeTime _ _).le (received_lt_synchronizeTime _ _).le

/-- A `mutex.c`. Each function returns `none` where an assertion fails. -/
structure MutexCode (μ : Type) where
  mutexInit : Config → Nat → μ
  /-- `request_cs` from its call to its first poll. -/
  requestCs : Config → Nat → Local μ → Option (Local μ × Sends)
  /-- One round of `request_cs` with a message taken from a channel. -/
  requestCsTake : Config → Nat → Local μ → Nat → Message → Option (Verdict × Local μ × Sends)
  /-- One round of `request_cs` whose poll found nothing. -/
  requestCsEmpty : Config → Nat → Local μ → Option (Verdict × Local μ × Sends)
  releaseCs : Config → Nat → Local μ → Option (Local μ × Sends)
  /-- One round of `handle_cs_requests` with a message taken from a channel. -/
  handleCsRequests : Config → Nat → Local μ → Nat → Message → Option (Verdict × Local μ × Sends)

/-- Where a process stands. -/
inductive Pc where
  | childSyncStarted
  /-- `ipc_ext_await_all_started`, with the channel visited last. -/
  | awaitAllStarted (fr : Nat)
  /-- The test of the `for` loop of `child_entry`. -/
  | iteration (i : Nat)
  /-- A poll of `request_cs`. -/
  | requestCs (i : Nat)
  /-- `request_cs` has returned 0. -/
  | criticalSection (i : Nat)
  /-- A poll of `handle_cs_requests`. -/
  | handleCsRequests
  /-- `ipc_ext_await_all_done`, in the parent. -/
  | awaitAllDone (fr : Nat)
  | exited
  /-- Ended by `log_panic`. -/
  | panicked
  /-- Ended by a failed assertion. -/
  | aborted
  deriving DecidableEq, Repr

structure Process (μ : Type) where
  pc : Pc
  lamportTime : Nat
  mux : μ
  awaitingChildren : Int

namespace Process

variable {μ : Type}

def locals (st : Process μ) : Local μ := ⟨st.mux, st.lamportTime⟩

def at_ (st : Process μ) (pc : Pc) (l : Local μ) : Process μ :=
  { st with pc := pc, mux := l.mux, lamportTime := l.lamportTime }

def panic (st : Process μ) : Next Nat (Process μ) Message := ({ st with pc := .panicked }, [])

def abort (st : Process μ) : Next Nat (Process μ) Message := ({ st with pc := .aborted }, [])

end Process

section Entry

variable {μ : Type} (cfg : Config) (M : MutexCode μ) (mutexl : Bool) (self : Nat)

/-- The start of `child_sync_started`, up to the first receive of the barrier. -/
def childSyncStarted (st : Process μ) : Next Nat (Process μ) Message :=
  let time := advanceLamportTime st.lamportTime
  ({ st with pc := .awaitAllStarted parentId, lamportTime := time },
    sendMulticast cfg.numChildren self ⟨.started, time⟩)

/-- One message in `ipc_ext_receive_all`. -/
def ipcExtReceive (st : Process μ) (type : MessageType) (pc : Pc) (m : Message) :
    Next Nat (Process μ) Message :=
  if m.type = type then
    ({ st with pc := pc, lamportTime := synchronizeTime m.localTime st.lamportTime }, [])
  else st.panic

/-- A call of `request_cs` in iteration `i`. -/
def callRequestCs (i : Nat) (st : Process μ) : Next Nat (Process μ) Message :=
  match M.requestCs cfg self st.locals with
  | some (l, out) => (st.at_ (.requestCs i) l, out)
  | none => st.abort

/-- The test of the last loop of `child_entry`. -/
def finalLoop (awaitingChildren : Int) : Pc :=
  if awaitingChildren > 0 then .handleCsRequests else .exited

/-- `child_send_done`, up to the test of the last loop. -/
def childSendDone (st : Process μ) : Next Nat (Process μ) Message :=
  let time := advanceLamportTime st.lamportTime
  ({ st with
      pc := if mutexl then finalLoop st.awaitingChildren else .exited
      lamportTime := time },
    sendMulticast cfg.numChildren self ⟨.done, time⟩)

/-- The body of `while (request_cs(mutex) == NON_CS_MESSAGE_RECEIVED)` for a message. -/
def requestCsLoop (i : Nat) (st : Process μ) (fr : Nat) (m : Message) :
    Next Nat (Process μ) Message :=
  match M.requestCsTake cfg self st.locals fr m with
  | some (.waits, l, out) => (st.at_ (.requestCs i) l, out)
  | some (.entered, l, out) => (st.at_ (.criticalSection i) l, out)
  | some (.nonCsMessageReceived, l, _) =>
    if m.type = .done then
      callRequestCs cfg M self i
        { st.at_ (.requestCs i) l with awaitingChildren := st.awaitingChildren - 1 }
    else st.panic
  | none => st.abort

def requestCsIdle (i : Nat) (st : Process μ) : Next Nat (Process μ) Message :=
  match M.requestCsEmpty cfg self st.locals with
  | some (.entered, l, out) => (st.at_ (.criticalSection i) l, out)
  | some (_, l, out) => (st.at_ (.requestCs i) l, out)
  | none => st.abort

/-- The body of the last loop of `child_entry` for a message. -/
def handleCsLoop (st : Process μ) (fr : Nat) (m : Message) : Next Nat (Process μ) Message :=
  match M.handleCsRequests cfg self st.locals fr m with
  | some (.nonCsMessageReceived, l, _) =>
    if m.type = .done then
      let awaitingChildren := st.awaitingChildren - 1
      ({ st.at_ (finalLoop awaitingChildren) l with awaitingChildren := awaitingChildren }, [])
    else st.panic
  | some (_, l, out) => (st.at_ .handleCsRequests l, out)
  | none => st.abort

/-- `child_entry`. -/
def childEntry (st : Process μ) : Action Nat (Process μ) Message :=
  let n := cfg.numChildren
  match st.pc with
  | .childSyncStarted => .act (childSyncStarted cfg self st)
  | .awaitAllStarted fr =>
    match ipcReceiveAllNext n self fr with
    | some next => .receive next (ipcExtReceive st .started (.awaitAllStarted next)) (st, [])
    | none => .act ({ st with pc := .iteration 1 }, [])
  | .iteration i =>
    .act <|
      if i ≤ 5 * self then
        if mutexl then callRequestCs cfg M self i st else ({ st with pc := .iteration (i + 1) }, [])
      else childSendDone cfg mutexl self st
  | .requestCs i =>
    .poll (otherProcesses n self) (requestCsLoop cfg M self i st) (requestCsIdle cfg M self i st)
  | .criticalSection i =>
    .act <|
      match M.releaseCs cfg self st.locals with
      | some (l, out) => (st.at_ (.iteration (i + 1)) l, out)
      | none => st.abort
  | .handleCsRequests => .poll (otherProcesses n self) (handleCsLoop cfg M self st) (st, [])
  | .awaitAllDone _ | .exited | .panicked | .aborted => .stop

/-- `parent_entry`. -/
def parentEntry (st : Process μ) : Action Nat (Process μ) Message :=
  let n := cfg.numChildren
  match st.pc with
  | .awaitAllStarted fr =>
    match ipcReceiveAllNext n self fr with
    | some next => .receive next (ipcExtReceive st .started (.awaitAllStarted next)) (st, [])
    | none => .act ({ st with pc := .awaitAllDone parentId }, [])
  | .awaitAllDone fr =>
    match ipcReceiveAllNext n self fr with
    | some next => .receive next (ipcExtReceive st .done (.awaitAllDone next)) (st, [])
    | none => .act ({ st with pc := .exited }, [])
  | _ => .stop

/-- What `spawn_children` runs in the process with local id `self`. -/
def spawnChildren : Code Nat (Process μ) Message := fun self st =>
  if self = parentId then parentEntry cfg self st
  else if self ≤ cfg.numChildren then childEntry cfg M mutexl self st
  else .stop

def initialProcess (self : Nat) : Process μ where
  pc := if self = parentId then .awaitAllStarted parentId else .childSyncStarted
  lamportTime := 0
  mux := M.mutexInit cfg self
  awaitingChildren := cfg.numChildren - 1

end Entry

/-- All processes before their first step. -/
def initialState {μ : Type} (cfg : Config) (M : MutexCode μ) :
    State Nat (Process μ) Message := .initial (initialProcess cfg M)

/-- A run of all processes with `--mutexl`. -/
abbrev MutexRun {μ : Type} (cfg : Config) (M : MutexCode μ) :=
  Execution (spawnChildren cfg M true) (initialState cfg M)

end Distra
