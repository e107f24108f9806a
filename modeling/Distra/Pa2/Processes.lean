import Distra.Pa23.Traffic

/-!
# `child.c` and `parent.c` of `pa2`

Time is physical. `s_local_time` is only set in `transfer`, and never read: other messages carry
what is left in the buffer.
-/

namespace Distra.Pa2

open Pa23

/-- What the processes cannot tell beforehand: the values that their calls of `get_physical_time`
return, counted from 0, and the time that is left in an unused buffer. -/
structure Physical where
  getPhysicalTime : (process call : Nat) → Nat
  unused : Nat → Nat

/-- The variables of a process. A child has all of them, the parent the first three. -/
structure Locals where
  self : Nat
  /-- The calls of `get_physical_time` so far, apart from those for the log. -/
  calls : Nat
  /-- `s_local_time` in the buffer. -/
  bufTime : Nat
  balance : Balance
  history : BalanceHistory

def initialLocals (physical : Physical) (self : Nat) (balance : Balance) : Locals :=
  ⟨self, 0, physical.unused self, balance, initialHistory self balance⟩

def childSyncStarted (numChildren self : Nat) (l : Locals) : Locals × BankSends :=
  (l, sendMulticast numChildren self ⟨.started, l.bufTime⟩)

def ipcExtReceive (l : Locals) (m : BankMessage) : Locals := { l with bufTime := m.localTime }

def childLoop (physical : Physical) (self : Nat) (l : Locals) (m : BankMessage) :
    Loop × Locals × BankSends :=
  let recvT := physical.getPhysicalTime self l.calls
  let l := { l with
    calls := l.calls + 1
    bufTime := m.localTime
    history := fillHistory l.history l.balance recvT }
  match m.body with
  | .stop =>
    (.breaks, { l with history := recordHistory l.history ⟨l.balance, recvT, 0⟩ }, [])
  | .transfer transfer =>
    if transfer.src = self then
      (.goesOn, { l with balance := l.balance - transfer.amount }, [(transfer.dst, m)])
    else if transfer.dst = self then
      (.goesOn, { l with balance := l.balance + transfer.amount },
        [(parentId, { m with body := .ack })])
    else (.goesOn, l, [])
  | _ => (.goesOn, l, [])

def childSyncDone (numChildren self : Nat) (l : Locals) : Locals × BankSends :=
  (l, sendMulticast numChildren self ⟨.done, l.bufTime⟩)

def sendHistory (l : Locals) : Locals × BankSends :=
  (l, [(parentId, ⟨.balanceHistory l.history, l.bufTime⟩)])

def transfer (physical : Physical) (l : Locals) (order : TransferOrder) : Locals × BankSends :=
  ({ l with calls := l.calls + 1 },
    [(order.src, ⟨.transfer order, physical.getPhysicalTime l.self l.calls⟩)])

def transferReceived (l : Locals) (_ : BankMessage) : Locals := l

def sendStop (numChildren : Nat) (l : Locals) : Locals × BankSends :=
  (l, sendMulticast numChildren parentId ⟨.stop, l.bufTime⟩)

def bank (physical : Physical) : BankCode Locals :=
  { start := initialLocals physical, childSyncStarted, ipcExtReceive
    childLoop := childLoop physical
    childSyncDone, sendHistory
    transfer := transfer physical
    transferReceived, sendStop }

theorem bank_lawful (physical : Physical) : (bank physical).Lawful := by
  constructor
  · exact fun n p d => ⟨_, rfl⟩
  · exact fun n p d => ⟨_, rfl⟩
  · exact fun d => ⟨_, _, rfl⟩
  · exact fun d order => ⟨_, rfl⟩
  · exact fun n d => ⟨_, rfl⟩
  · intro p d m x mem
    simp only [bank, childLoop] at mem
    split at mem
    next => cases mem
    next order body =>
      split at mem
      next =>
        rw [List.mem_singleton.mp mem]
        rw [body]
        nofun
      next =>
        split at mem
        next =>
          rw [List.mem_singleton.mp mem]
          nofun
        next => cases mem
    next => cases mem
  · exact fun p d t => ⟨_, rfl⟩
  · intro p d order t src
    simp only [bank, childLoop, if_pos src]
    exact ⟨_, _, rfl⟩
  · intro p d order t src dst
    simp only [bank, childLoop, if_neg src, if_pos dst]
    exact ⟨_, _, rfl⟩

end Distra.Pa2
