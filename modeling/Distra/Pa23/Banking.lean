import Distra.Ipc.Message
import Mathlib.Logic.Function.Basic

/-!
# `banking.h`

Balances are 16-bit integers and wrap. The lengths of histories are of type `uint8_t`. Times are
numbers without a bound, and a history has an entry for every one of them: the model is that of the
code for as long as no time is beyond `MAX_T`. After that the code writes outside of `s_history`.
-/

namespace Distra

/-- `balance_t`. -/
abbrev Balance := BitVec 16

structure TransferOrder where
  src : Nat
  dst : Nat
  amount : Balance
  deriving DecidableEq

structure BalanceState where
  balance : Balance
  time : Nat
  balancePendingIn : Balance
  deriving DecidableEq

/-- The increment of a `uint8_t`. -/
def succUInt8 (n : Nat) : Nat := (n + 1) % 2 ^ 8

structure BalanceHistory where
  id : Nat
  historyLen : Nat
  history : Nat → BalanceState

structure AllHistory where
  historyLen : Nat
  history : Nat → BalanceHistory

def maxT : Nat := 255

/-- The type of a message with what is read of its payload. The texts of `STARTED` and `DONE` are
only logged. -/
inductive Body where
  | started
  | done
  | ack
  | stop
  | transfer (order : TransferOrder)
  | balanceHistory (history : BalanceHistory)
  | csRequest
  | csReply
  | csRelease

def Body.type : Body → MessageType
  | .started => .started
  | .done => .done
  | .ack => .ack
  | .stop => .stop
  | .transfer _ => .transfer
  | .balanceHistory _ => .balanceHistory
  | .csRequest => .csRequest
  | .csReply => .csReply
  | .csRelease => .csRelease

structure BankMessage where
  body : Body
  localTime : Nat

abbrev BankSends := List (Nat × BankMessage)

/-- The history of a child before its first message. -/
def initialHistory (id : Nat) (balance : Balance) : BalanceHistory where
  id := id
  historyLen := 1
  history := Function.update (fun _ => ⟨0, 0, 0⟩) 0 ⟨balance, 0, 0⟩

def recordHistory (history : BalanceHistory) (state : BalanceState) : BalanceHistory :=
  { history with
    history := Function.update history.history state.time state
    historyLen := succUInt8 history.historyLen }

/-- The loop that fills in the missing entries before `recvT`. -/
def fillHistory (history : BalanceHistory) (balance : Balance) (recvT : Nat) : BalanceHistory :=
  (List.range' history.historyLen (recvT - history.historyLen)).foldl
    (fun history t => recordHistory history ⟨balance, t, 0⟩) history

/-- A transfer between two different children. -/
def TransferOrder.Valid (n : Nat) (order : TransferOrder) : Prop :=
  (IsChild n order.src ∧ IsChild n order.dst) ∧ order.src ≠ order.dst

instance (n : Nat) (order : TransferOrder) : Decidable (order.Valid n) :=
  inferInstanceAs (Decidable (_ ∧ _))

/-- `MAX_CHILDREN` of `ipcio.h`. -/
def maxChildren : Nat := 15

/-- The arguments of `main`, with the bounds that it checks, and the transfers of `bank_robbery`. -/
structure BankConfig where
  numChildren : Nat
  pos : 1 ≤ numChildren
  le_max : numChildren ≤ maxChildren
  startBalances : Nat → Balance
  orders : List TransferOrder
  valid : ∀ order ∈ orders, order.Valid numChildren

end Distra
