import Distra.Network.Process
import Distra.Pa23.Banking

/-!
# The processes of `pa2` and `pa3`

`start` of `pa23.c`, linked with the `child.c` and `parent.c` of `pa2` or `pa3`. The two differ in
the pieces of code that run between two receives, and not in the order of the receives.
-/

namespace Distra.Pa23

open Network

/-- How an iteration of the loop of `child_entry` ends. -/
inductive Loop where
  | goesOn
  | breaks
  deriving DecidableEq

/-- A `child.c` with a `parent.c`. -/
structure BankCode (δ : Type) where
  /-- The variables of process `self` before its first step. -/
  start : Nat → Balance → δ
  childSyncStarted : (numChildren self : Nat) → δ → δ × BankSends
  /-- A message of the expected type in `ipc_ext_receive_all`. -/
  ipcExtReceive : δ → BankMessage → δ
  /-- The body of the loop of `child_entry` for a message taken by `receive_any`. -/
  childLoop : (self : Nat) → δ → BankMessage → Loop × δ × BankSends
  childSyncDone : (numChildren self : Nat) → δ → δ × BankSends
  /-- The end of `child_entry`. -/
  sendHistory : δ → δ × BankSends
  /-- `transfer`, up to its receive. -/
  transfer : δ → TransferOrder → δ × BankSends
  /-- `transfer`, after its receive. -/
  transferReceived : δ → BankMessage → δ
  sendStop : (numChildren : Nat) → δ → δ × BankSends

/-- Where a process stands. -/
inductive Pc where
  | childSyncStarted
  /-- `ipc_ext_await_all_started`, with the channel visited last. -/
  | awaitAllStarted (fr : Nat)
  /-- `receive_any` in the loop of `child_entry`, before it looks at a channel. -/
  | receiveAny (fr : Nat)
  | childSyncDone
  /-- `ipc_ext_await_all_done`, with the channel visited last. -/
  | awaitAllDone (fr : Nat)
  /-- `bank_robbery`, with the transfers that are left. -/
  | bankRobbery (orders : List TransferOrder)
  /-- The receive of `transfer`. -/
  | awaitAck (order : TransferOrder) (orders : List TransferOrder)
  /-- `ipc_ext_receive_all` for the histories, with the channel visited last. -/
  | receiveHistories (fr : Nat)
  | exited
  /-- Ended by `log_panic`. -/
  | panicked
  /-- Ended by a failed assertion. -/
  | aborted
  deriving DecidableEq

structure Process (δ : Type) where
  pc : Pc
  data : δ
  /-- `history` of `parent_entry`. -/
  allHistory : AllHistory
  /-- What `print_history` has been called with. -/
  printed : Option AllHistory

section Entry

variable {δ : Type} (n : Nat) (B : BankCode δ) (self : Nat)

abbrev ProcessNext (δ : Type) := Next Nat (Process δ) BankMessage

/-- Go on to `pc` after a piece of code. -/
def Process.goTo (st : Process δ) (pc : Pc) (run : δ × BankSends) : ProcessNext δ :=
  ({ st with pc := pc, data := run.1 }, run.2)

@[simp] theorem Process.goTo_pc (st : Process δ) (pc : Pc) (run : δ × BankSends) :
    (st.goTo pc run).1.pc = pc := rfl

@[simp] theorem Process.goTo_sends (st : Process δ) (pc : Pc) (run : δ × BankSends) :
    (st.goTo pc run).2 = run.2 := rfl

/-- `ipc_ext_receive_all`, whose callback returns `none` when its assertion fails, and what comes
after it. -/
def ipcExtReceiveAll (st : Process δ) (type : MessageType) (fr : Nat) (pc : Nat → Pc)
    (callback : Nat → BankMessage → Process δ → Option (Process δ)) (next : ProcessNext δ) :
    Action Nat (Process δ) BankMessage :=
  match ipcReceiveAllNext n self fr with
  | some q =>
    .receive q
      (fun m =>
        if m.body.type = type then
          match callback q m { st with pc := pc q, data := B.ipcExtReceive st.data m } with
          | some st => (st, [])
          | none => ({ st with pc := .aborted }, [])
        else ({ st with pc := .panicked }, []))
      (st, [])
  | none => .act next

/-- The channel that `receive_any` looks at after `fr`. After the last one it returns, and is
called again. -/
def receiveAnyNext (fr : Nat) : Nat := (ipcReceiveAllNext n self fr).getD 0

def childEntry (st : Process δ) : Action Nat (Process δ) BankMessage :=
  match st.pc with
  | .childSyncStarted =>
    .act (st.goTo (.awaitAllStarted parentId) (B.childSyncStarted n self st.data))
  | .awaitAllStarted fr =>
    ipcExtReceiveAll n B self st .started fr .awaitAllStarted (fun _ _ => some)
      (st.goTo (.receiveAny 0) (st.data, []))
  | .receiveAny fr =>
    .receive fr
      (fun m =>
        match B.childLoop self st.data m with
        | (.goesOn, run) => st.goTo (.receiveAny 0) run
        | (.breaks, run) => st.goTo .childSyncDone run)
      ({ st with pc := .receiveAny (receiveAnyNext n self fr) }, [])
  | .childSyncDone =>
    .act (st.goTo (.awaitAllDone parentId) (B.childSyncDone n self st.data))
  | .awaitAllDone fr =>
    ipcExtReceiveAll n B self st .done fr .awaitAllDone (fun _ _ => some)
      (st.goTo .exited (B.sendHistory st.data))
  | _ => .stop

/-- `parent_fill_history_callback`. -/
def parentFillHistoryCallback (fr : Nat) (m : BankMessage) (st : Process δ) :
    Option (Process δ) :=
  match m.body with
  | .balanceHistory history =>
    if st.allHistory.historyLen = fr - 1 then
      some { st with allHistory :=
        { historyLen := succUInt8 st.allHistory.historyLen
          history := Function.update st.allHistory.history (fr - 1) history } }
    else none
  | _ => none

def parentEntry (orders : List TransferOrder) (st : Process δ) :
    Action Nat (Process δ) BankMessage :=
  match st.pc with
  | .awaitAllStarted fr =>
    ipcExtReceiveAll n B parentId st .started fr .awaitAllStarted (fun _ _ => some)
      (st.goTo (.bankRobbery orders) (st.data, []))
  | .bankRobbery (order :: orders) =>
    .act (st.goTo (.awaitAck order orders) (B.transfer st.data order))
  | .bankRobbery [] => .act (st.goTo (.awaitAllDone parentId) (B.sendStop n st.data))
  | .awaitAck order orders =>
    .receive order.dst
      (fun m => st.goTo (if m.body.type = .ack then .bankRobbery orders else .aborted)
        (B.transferReceived st.data m, []))
      (st, [])
  | .awaitAllDone fr =>
    ipcExtReceiveAll n B parentId st .done fr .awaitAllDone (fun _ _ => some)
      ({ st with
          pc := .receiveHistories parentId
          allHistory := ⟨0, fun _ => ⟨0, 0, fun _ => ⟨0, 0, 0⟩⟩⟩ }, [])
  | .receiveHistories fr =>
    ipcExtReceiveAll n B parentId st .balanceHistory fr .receiveHistories
      parentFillHistoryCallback ({ st with pc := .exited, printed := some st.allHistory }, [])
  | _ => .stop

end Entry

/-- `start`: the parent is process 0, its children are `1..num_children`. -/
def start {δ : Type} (cfg : BankConfig) (B : BankCode δ) : Code Nat (Process δ) BankMessage :=
  fun p st =>
    if p = parentId then parentEntry cfg.numChildren B cfg.orders st
    else if p ≤ cfg.numChildren then childEntry cfg.numChildren B p st
    else .stop

def initialProcess {δ : Type} (cfg : BankConfig) (B : BankCode δ) (p : Nat) : Process δ where
  pc := if p = parentId then .awaitAllStarted parentId else .childSyncStarted
  data := B.start p (cfg.startBalances p)
  allHistory := ⟨0, fun _ => ⟨0, 0, fun _ => ⟨0, 0, 0⟩⟩⟩
  printed := none

/-- All processes before their first step. -/
def initialState {δ : Type} (cfg : BankConfig) (B : BankCode δ) :
    State Nat (Process δ) BankMessage := .initial (initialProcess cfg B)

/-- A run of the parent and all children. -/
abbrev BankRun {δ : Type} (cfg : BankConfig) (B : BankCode δ) :=
  Execution (start cfg B) (initialState cfg B)

end Distra.Pa23
