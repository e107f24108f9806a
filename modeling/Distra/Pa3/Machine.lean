import Distra.Ipc.Timestamp
import Distra.Pa3.Processes

/-!
# `pa3` in machine words

`bank` of `pa3` counts time without end, and its histories have an entry for every time. Here is the
same code with the types of the source: `timestamp_t` wraps, `s_history_len` is a `uint8_t`, and
`s_history` an array. Both do the same for as long as no value of `lamport_time` is beyond `MAX_T`.
-/

namespace Distra.Machine

open Pa23

structure BalanceState where
  balance : Balance
  time : Timestamp
  balancePendingIn : Balance

structure BalanceHistory where
  id : Nat
  historyLen : BitVec 8
  history : Fin (maxT + 1) → BalanceState
  /-- There has been a write outside of `s_history`. What it overwrites is not modelled. -/
  overrun : Bool

def initialHistory (id : Nat) (balance : Balance) : BalanceHistory where
  id := id
  historyLen := 1
  history := Function.update (fun _ => ⟨0, 0, 0⟩) 0 ⟨balance, 0, 0⟩
  overrun := false

def recordHistory (history : BalanceHistory) (state : BalanceState) : BalanceHistory :=
  { history with
    history := fun t => if state.time.toInt = t then state else history.history t
    historyLen := history.historyLen + 1
    overrun := history.overrun || !decide (0 ≤ state.time.toInt ∧ state.time.toInt ≤ maxT) }

/-- The loop that fills in the missing entries before `recvT`. -/
def fillHistory (history : BalanceHistory) (balance : Balance) (recvT : Timestamp) :
    BalanceHistory :=
  (List.range' history.historyLen.toNat (recvT.toInt - history.historyLen.toNat).toNat).foldl
    (fun history t => recordHistory history ⟨balance, BitVec.ofNat 16 t, 0⟩) history

/-- The variables of a process. A child has all of them, the parent the first two. -/
structure Locals where
  lamportTime : LamportTime
  /-- `s_local_time` in the buffer. -/
  bufTime : Timestamp
  balance : Balance
  history : BalanceHistory

def initialLocals (self : Nat) (balance : Balance) : Locals :=
  ⟨⟨0, 0⟩, 0, balance, initialHistory self balance⟩

/-! ## Messages

A `BankMessage` has the 16 bits of `s_local_time` as a number. -/

def received (m : BankMessage) : Timestamp := BitVec.ofNat 16 m.localTime

def stamp (lamportTime : LamportTime) : Nat := lamportTime.value.toNat

def BalanceState.sent (state : BalanceState) : Distra.BalanceState :=
  ⟨state.balance, state.time.toNat, state.balancePendingIn⟩

/-- The array as it is sent. -/
def BalanceHistory.sent (history : BalanceHistory) : Distra.BalanceHistory where
  id := history.id
  historyLen := history.historyLen.toNat
  history t := if lt : t < maxT + 1 then (history.history ⟨t, lt⟩).sent else ⟨0, 0, 0⟩

/-! ## `child.c` and `parent.c` -/

def childSyncStarted (numChildren self : Nat) (l : Locals) : Locals × BankSends :=
  let time := advanceLamportTime l.lamportTime
  ({ l with lamportTime := time, bufTime := time.value },
    sendMulticast numChildren self ⟨.started, stamp time⟩)

def ipcExtReceive (l : Locals) (m : BankMessage) : Locals :=
  { l with lamportTime := synchronizeTime (received m) l.lamportTime, bufTime := received m }

/-- The loop of `child_entry` up to the test of the message type. -/
def childReceived (l : Locals) (m : BankMessage) : Locals :=
  let recvT := synchronizeTime (received m) l.lamportTime
  { l with
    lamportTime := recvT
    bufTime := received m
    history := fillHistory l.history l.balance recvT.value }

/-- From there on. -/
def childReacts (self : Nat) (l : Locals) (m : BankMessage) : Loop × Locals × BankSends :=
  let recvT := l.lamportTime.value
  match m.body with
  | .stop => (.breaks, l, [])
  | .transfer transfer =>
    let time := advanceLamportTime l.lamportTime
    let l := { l with lamportTime := time, bufTime := time.value }
    if transfer.src = self then
      let balance := l.balance - transfer.amount
      let history := recordHistory l.history ⟨balance, recvT, transfer.amount⟩
      let history := recordHistory history ⟨balance, time.value, transfer.amount⟩
      (.goesOn, { l with balance := balance, history := history },
        [(transfer.dst, ⟨.transfer transfer, stamp time⟩)])
    else if transfer.dst = self then
      (.goesOn, { l with balance := l.balance + transfer.amount },
        [(parentId, ⟨.ack, stamp time⟩)])
    else (.goesOn, l, [])
  | _ => (.goesOn, l, [])

def childLoop (self : Nat) (l : Locals) (m : BankMessage) : Loop × Locals × BankSends :=
  childReacts self (childReceived l m) m

def childSyncDone (numChildren self : Nat) (l : Locals) : Locals × BankSends :=
  let time := advanceLamportTime l.lamportTime
  ({ l with lamportTime := time, bufTime := time.value },
    sendMulticast numChildren self ⟨.done, stamp time⟩)

def sendHistory (l : Locals) : Locals × BankSends :=
  let recvT := synchronizeTime l.bufTime l.lamportTime
  let history := fillHistory l.history l.balance recvT.value
  let time := advanceLamportTime recvT
  ({ l with lamportTime := time, bufTime := time.value, history := history },
    [(parentId, ⟨.balanceHistory history.sent, stamp time⟩)])

def transfer (l : Locals) (order : TransferOrder) : Locals × BankSends :=
  let time := advanceLamportTime l.lamportTime
  ({ l with lamportTime := time }, [(order.src, ⟨.transfer order, stamp time⟩)])

def transferReceived (l : Locals) (m : BankMessage) : Locals :=
  { l with lamportTime := synchronizeTime (received m) l.lamportTime }

def sendStop (numChildren : Nat) (l : Locals) : Locals × BankSends :=
  let time := advanceLamportTime l.lamportTime
  ({ l with lamportTime := time, bufTime := time.value },
    sendMulticast numChildren parentId ⟨.stop, stamp time⟩)

def bank : BankCode Locals :=
  { start := initialLocals, childSyncStarted, ipcExtReceive, childLoop, childSyncDone, sendHistory,
    transfer, transferReceived, sendStop }

end Distra.Machine
