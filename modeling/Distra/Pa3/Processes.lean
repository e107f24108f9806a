import Distra.Pa23.Traffic

/-!
# `child.c` and `parent.c` of `pa3`

Time is the Lamport clock. An amount is pending at the two ticks between its dispatch and its
arrival.
-/

namespace Distra.Pa3

open Pa23

/-- The variables of a process. A child has all of them, the parent the first two. -/
structure Locals where
  lamportTime : Nat
  /-- `s_local_time` in the buffer. -/
  bufTime : Nat
  balance : Balance
  history : BalanceHistory

def initialLocals (self : Nat) (balance : Balance) : Locals :=
  ⟨0, 0, balance, initialHistory self balance⟩

def childSyncStarted (numChildren self : Nat) (l : Locals) : Locals × BankSends :=
  let time := advanceLamportTime l.lamportTime
  ({ l with lamportTime := time, bufTime := time },
    sendMulticast numChildren self ⟨.started, time⟩)

def ipcExtReceive (l : Locals) (m : BankMessage) : Locals :=
  { l with lamportTime := synchronizeTime m.localTime l.lamportTime, bufTime := m.localTime }

/-- The loop of `child_entry` up to the test of the message type. -/
def childReceived (l : Locals) (m : BankMessage) : Locals :=
  { l with
    lamportTime := synchronizeTime m.localTime l.lamportTime
    bufTime := m.localTime
    history := fillHistory l.history l.balance (synchronizeTime m.localTime l.lamportTime) }

/-- From there on. -/
def childReacts (self : Nat) (l : Locals) (m : BankMessage) : Loop × Locals × BankSends :=
  let recvT := l.lamportTime
  match m.body with
  | .stop => (.breaks, l, [])
  | .transfer transfer =>
    let time := advanceLamportTime l.lamportTime
    let l := { l with lamportTime := time, bufTime := time }
    if transfer.src = self then
      let balance := l.balance - transfer.amount
      let history := recordHistory l.history ⟨balance, recvT, transfer.amount⟩
      let history := recordHistory history ⟨balance, time, transfer.amount⟩
      (.goesOn, { l with balance := balance, history := history },
        [(transfer.dst, ⟨.transfer transfer, time⟩)])
    else if transfer.dst = self then
      (.goesOn, { l with balance := l.balance + transfer.amount }, [(parentId, ⟨.ack, time⟩)])
    else (.goesOn, l, [])
  | _ => (.goesOn, l, [])

def childLoop (self : Nat) (l : Locals) (m : BankMessage) : Loop × Locals × BankSends :=
  childReacts self (childReceived l m) m

def childSyncDone (numChildren self : Nat) (l : Locals) : Locals × BankSends :=
  let time := advanceLamportTime l.lamportTime
  ({ l with lamportTime := time, bufTime := time }, sendMulticast numChildren self ⟨.done, time⟩)

def sendHistory (l : Locals) : Locals × BankSends :=
  let recvT := synchronizeTime l.bufTime l.lamportTime
  let history := fillHistory l.history l.balance recvT
  let time := advanceLamportTime recvT
  ({ l with lamportTime := time, bufTime := time, history := history },
    [(parentId, ⟨.balanceHistory history, time⟩)])

def transfer (l : Locals) (order : TransferOrder) : Locals × BankSends :=
  let time := advanceLamportTime l.lamportTime
  ({ l with lamportTime := time }, [(order.src, ⟨.transfer order, time⟩)])

def transferReceived (l : Locals) (m : BankMessage) : Locals :=
  { l with lamportTime := synchronizeTime m.localTime l.lamportTime }

def sendStop (numChildren : Nat) (l : Locals) : Locals × BankSends :=
  let time := advanceLamportTime l.lamportTime
  ({ l with lamportTime := time, bufTime := time },
    sendMulticast numChildren parentId ⟨.stop, time⟩)

def bank : BankCode Locals :=
  { start := initialLocals, childSyncStarted, ipcExtReceive, childLoop, childSyncDone, sendHistory,
    transfer, transferReceived, sendStop }

theorem bank_lawful : bank.Lawful := by
  constructor
  · exact fun n p d => ⟨_, rfl⟩
  · exact fun n p d => ⟨_, rfl⟩
  · exact fun d => ⟨_, _, rfl⟩
  · exact fun d order => ⟨_, rfl⟩
  · exact fun n d => ⟨_, rfl⟩
  · intro p d m x mem
    simp only [bank, childLoop, childReacts] at mem
    split at mem
    next => cases mem
    next order body =>
      split at mem
      next =>
        rw [List.mem_singleton.mp mem]
        nofun
      next =>
        split at mem
        next =>
          rw [List.mem_singleton.mp mem]
          nofun
        next => cases mem
    next => cases mem
  · exact fun p d t => ⟨_, rfl⟩
  · intro p d order t src
    simp only [bank, childLoop, childReacts, if_pos src]
    exact ⟨_, _, rfl⟩
  · intro p d order t src dst
    simp only [bank, childLoop, childReacts, if_neg src, if_pos dst]
    exact ⟨_, _, rfl⟩

end Distra.Pa3
