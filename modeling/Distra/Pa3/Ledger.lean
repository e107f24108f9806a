import Distra.Accounts.Transit
import Distra.Pa23.Entries
import Distra.Pa3.Processes
import Mathlib.Data.BitVec

/-!
# What the histories ought to say

The parent sends its `TRANSFER`s six ticks apart, and an amount is in transit for two ticks. So
what every child has at every tick is known beforehand (`ledger`). A history is right as far as it
goes (`Entered`), and what comes after it follows from the balance of the child and the transfers
that it has not heard of yet (`Booked`).
-/

namespace Distra.Pa3

open Pa23 Accounts

/-! ## The loop of `child_entry` -/

section Loop

variable {c t recvT : Nat} {l : Locals} {order : TransferOrder}
  (recv : synchronizeTime t l.lamportTime = recvT)
include recv

theorem childLoop_src (src : order.src = c) :
    childLoop c l ⟨.transfer order, t⟩ =
      (.goesOn,
        { lamportTime := recvT + 1
          bufTime := recvT + 1
          balance := l.balance - order.amount
          history :=
            recordHistory
              (recordHistory (fillHistory l.history l.balance recvT)
                ⟨l.balance - order.amount, recvT, order.amount⟩)
              ⟨l.balance - order.amount, recvT + 1, order.amount⟩ },
        [(order.dst, ⟨.transfer order, recvT + 1⟩)]) := by
  subst recv
  simp only [childLoop, childReacts, childReceived, if_pos src, advanceLamportTime]

theorem childLoop_dst (src : order.src ≠ c) (dst : order.dst = c) :
    childLoop c l ⟨.transfer order, t⟩ =
      (.goesOn,
        { lamportTime := recvT + 1
          bufTime := recvT + 1
          balance := l.balance + order.amount
          history := fillHistory l.history l.balance recvT },
        [(parentId, ⟨.ack, recvT + 1⟩)]) := by
  subst recv
  simp only [childLoop, childReacts, childReceived, if_neg src, if_pos dst, advanceLamportTime]

theorem childLoop_stop :
    childLoop c l ⟨.stop, t⟩ =
      (.breaks,
        { l with
          lamportTime := recvT
          bufTime := t
          history := fillHistory l.history l.balance recvT },
        []) := by
  subst recv
  rfl

end Loop

/-! ## The ledger -/

/-- The Lamport time of the parent's next `TRANSFER`, with the transfers that are left, and that
of its `STOP` in the end. -/
def departure (cfg : BankConfig) (orders : List TransferOrder) : Nat :=
  cfg.numChildren + 2 + 6 * (cfg.orders.length - orders.length)

/-- The Lamport time at which every child ends its history. -/
def lastTick (cfg : BankConfig) : Nat := departure cfg [] + cfg.numChildren + 2

def toTransfer (order : TransferOrder) : Transfer Nat Balance :=
  ⟨order.src, order.dst, order.amount⟩

/-- What child `c` has at tick `t`, with `balance` before the transfers that are left, the first of
which departs at `start`. -/
def stateAt (c start : Nat) (balance : Balance) (orders : List TransferOrder) (t : Nat) :
    BalanceState :=
  let entry := bookAt 2 6 c start balance (orders.map toTransfer) t
  ⟨entry.1, t, entry.2⟩

def ledger (cfg : BankConfig) (c t : Nat) : BalanceState :=
  stateAt c (departure cfg cfg.orders) (cfg.startBalances c) cfg.orders t

section StateAt

variable {c start t : Nat} {balance : Balance} {order : TransferOrder}
  {orders : List TransferOrder}

theorem stateAt_of_le (le : t ≤ start) : stateAt c start balance orders t = ⟨balance, t, 0⟩ := by
  rw [stateAt, bookAt_of_le le]

theorem stateAt_transit (src : order.src = c) (lt : start < t) (le : t ≤ start + 2) :
    stateAt c start balance (order :: orders) t =
      ⟨balance - order.amount, t, order.amount⟩ := by
  have src : c = (toTransfer order).src := src.symm
  rw [stateAt, List.map_cons, bookAt_transit lt le, if_pos src]
  rfl

theorem stateAt_dst (src : order.src ≠ c) (le : t ≤ start + 2) :
    stateAt c start balance (order :: orders) t = ⟨balance, t, 0⟩ := by
  have src : c ≠ (toTransfer order).src := src.symm
  rw [stateAt, List.map_cons, bookAt_dst src le]

theorem stateAt_settle (lt : start + 2 < t) :
    stateAt c start balance (order :: orders) t =
      stateAt c (start + 6) ((toTransfer order).settle c balance) orders t := by
  rw [stateAt, List.map_cons, bookAt_settle lt]
  rfl

theorem stateAt_skip (src : order.src ≠ c) (dst : order.dst ≠ c) :
    stateAt c start balance (order :: orders) t = stateAt c (start + 6) balance orders t := by
  have src : c ≠ (toTransfer order).src := src.symm
  have dst : c ≠ (toTransfer order).dst := dst.symm
  rw [stateAt, List.map_cons, bookAt_skip src dst (by decide)]
  rfl

theorem settle_src (src : order.src = c) :
    (toTransfer order).settle c balance = balance - order.amount :=
  if_pos src.symm

theorem settle_dst (src : order.src ≠ c) (dst : order.dst = c) :
    (toTransfer order).settle c balance = balance + order.amount :=
  (if_neg src.symm).trans (if_pos dst.symm)

end StateAt

theorem departure_nil (cfg : BankConfig) :
    departure cfg [] = cfg.numChildren + 2 + 6 * cfg.orders.length := rfl

theorem departure_orders (cfg : BankConfig) : departure cfg cfg.orders = cfg.numChildren + 2 := by
  rw [departure, Nat.sub_self]

theorem departure_cons {cfg : BankConfig} {order : TransferOrder} {orders : List TransferOrder}
    (suffix : order :: orders <:+ cfg.orders) :
    departure cfg orders = departure cfg (order :: orders) + 6 := by
  have := suffix.length_le
  rw [List.length_cons] at this
  rw [departure, departure, List.length_cons]
  omega

theorem departure_le (cfg : BankConfig) (orders : List TransferOrder) :
    departure cfg orders ≤ departure cfg [] := by
  rw [departure, departure_nil]
  omega

/-- The balances and pending amounts of all children add up to the start balances, at every
tick. -/
theorem sum_ledger (cfg : BankConfig) (t : Nat) :
    ∑ c ∈ Finset.Icc 1 cfg.numChildren,
        ((ledger cfg c t).balance + (ledger cfg c t).balancePendingIn) =
      ∑ c ∈ Finset.Icc 1 cfg.numChildren, cfg.startBalances c := by
  apply sum_bookAt
  intro o mem
  obtain ⟨order, listed, rfl⟩ := List.mem_map.mp mem
  obtain ⟨⟨src, dst⟩, ne⟩ := cfg.valid order listed
  exact ⟨Finset.mem_Icc.mpr src, Finset.mem_Icc.mpr dst, ne⟩

/-! ## Right histories -/

/-- All entries are right. -/
structure Entered (cfg : BankConfig) (c : Nat) (history : BalanceHistory) : Prop where
  id : history.id = c
  entries : ∀ t < history.historyLen, history.history t = ledger cfg c t

theorem Entered.fill {cfg : BankConfig} {c recvT : Nat} {history : BalanceHistory}
    (h : Entered cfg c history) (balance : Balance) (le : history.historyLen ≤ recvT)
    (small : recvT ≤ maxT)
    (right : ∀ t, history.historyLen ≤ t → t < recvT → ledger cfg c t = ⟨balance, t, 0⟩) :
    Entered cfg c (fillHistory history balance recvT) ∧
      (fillHistory history balance recvT).historyLen = recvT := by
  have follows : Follows (ledger cfg c) history := h.entries
  obtain ⟨follows, len⟩ := follows.fill balance le small right
  have id := (fillHistory_spec history balance le small).1
  exact ⟨⟨id.trans h.id, follows⟩, len⟩

theorem Entered.record {cfg : BankConfig} {c : Nat} {history : BalanceHistory}
    (h : Entered cfg c history) (state : BalanceState) (time : state.time = history.historyLen)
    (small : history.historyLen < maxT) (right : ledger cfg c state.time = state) :
    Entered cfg c (recordHistory history state) ∧
      (recordHistory history state).historyLen = history.historyLen + 1 := by
  have follows : Follows (ledger cfg c) history := h.entries
  obtain ⟨follows, len⟩ := follows.record state time small right
  exact ⟨⟨h.id, follows⟩, len⟩

/-- A right history that covers what the child knows, and a balance from which the rest follows. -/
structure Booked (cfg : BankConfig) (c : Nat) (orders : List TransferOrder) (l : Locals) :
    Prop where
  entered : Entered cfg c l.history
  len : l.history.historyLen ≤ departure cfg orders + 1
  rest : ∀ t, l.history.historyLen ≤ t →
    ledger cfg c t = stateAt c (departure cfg orders) l.balance orders t

section Booked

variable {cfg : BankConfig} {c : Nat} {order : TransferOrder} {orders : List TransferOrder}
  {l : Locals}

theorem booked_initial (cfg : BankConfig) (c : Nat) :
    Booked cfg c cfg.orders (initialLocals c (cfg.startBalances c)) := by
  have start : 1 ≤ departure cfg cfg.orders := by
    rw [departure_orders]
    omega
  constructor
  · refine ⟨rfl, fun t lt => ?_⟩
    obtain rfl : t = 0 := Nat.lt_one_iff.mp lt
    exact (stateAt_of_le (Nat.zero_le _)).symm
  · exact Nat.le_succ_of_le start
  · intro t _
    rfl

/-- A transfer that the child has no part in. -/
theorem Booked.skip (h : Booked cfg c (order :: orders) l)
    (suffix : order :: orders <:+ cfg.orders) (src : order.src ≠ c) (dst : order.dst ≠ c) :
    Booked cfg c orders l := by
  have next := departure_cons suffix
  have len := h.len
  refine ⟨h.entered, by omega, fun t le => ?_⟩
  rw [h.rest t le, stateAt_skip src dst, next]

section Transfers

variable (suffix : order :: orders <:+ cfg.orders) (small : lastTick cfg ≤ maxT)
include suffix small

/-- The source of a transfer books it. -/
theorem Booked.forward (h : Booked cfg c (order :: orders) l) (src : order.src = c)
    (clock : l.lamportTime ≤ departure cfg (order :: orders)) :
    Booked cfg c orders
      (childLoop c l ⟨.transfer order, departure cfg (order :: orders)⟩).2.1 := by
  have next := departure_cons suffix
  have bound := departure_le cfg orders
  have len := h.len
  rw [lastTick] at small
  rw [childLoop_src (synchronizeTime_of_le clock) src]
  obtain ⟨filled, len₀⟩ := h.entered.fill l.balance len (by omega)
    (fun t le lt => (h.rest t le).trans (stateAt_of_le (Nat.le_of_lt_succ lt)))
  obtain ⟨first, len₁⟩ := filled.record
    ⟨l.balance - order.amount, departure cfg (order :: orders) + 1, order.amount⟩ len₀.symm
    (by omega) ((h.rest _ len).trans (stateAt_transit src (by omega) (by omega)))
  rw [len₀] at len₁
  obtain ⟨second, len₂⟩ := first.record
    ⟨l.balance - order.amount, departure cfg (order :: orders) + 1 + 1, order.amount⟩ len₁.symm
    (by omega)
    ((h.rest _ (Nat.le_succ_of_le len)).trans (stateAt_transit src (by omega) (by omega)))
  rw [len₁] at len₂
  refine ⟨second, by rw [len₂]; omega, fun t le => ?_⟩
  rw [len₂] at le
  rw [h.rest t (by omega), stateAt_settle (by omega), settle_src src, next]

/-- The destination of a transfer books it. -/
theorem Booked.deliver (h : Booked cfg c (order :: orders) l) (src : order.src ≠ c)
    (dst : order.dst = c) (clock : l.lamportTime ≤ departure cfg (order :: orders)) :
    Booked cfg c orders
      (childLoop c l ⟨.transfer order, departure cfg (order :: orders) + 2⟩).2.1 := by
  have next := departure_cons suffix
  have bound := departure_le cfg orders
  have len := h.len
  rw [lastTick] at small
  rw [childLoop_dst (synchronizeTime_of_le (Nat.le_add_right_of_le clock)) src dst]
  have covered : l.history.historyLen ≤ departure cfg (order :: orders) + 2 + 1 := by omega
  obtain ⟨filled, len₀⟩ := h.entered.fill l.balance covered (by omega)
    (fun t le lt => (h.rest t le).trans (stateAt_dst src (Nat.le_of_lt_succ lt)))
  refine ⟨filled, by rw [len₀]; omega, fun t le => ?_⟩
  rw [len₀] at le
  rw [h.rest t (by omega), stateAt_settle (by omega), settle_dst src dst, next]

end Transfers

/-- After the last transfer nothing changes. -/
theorem Booked.fill (h : Booked cfg c [] l) {recvT : Nat} (le : l.history.historyLen ≤ recvT)
    (small : recvT ≤ maxT) :
    Entered cfg c (fillHistory l.history l.balance recvT) ∧
      (fillHistory l.history l.balance recvT).historyLen = recvT := by
  apply h.entered.fill l.balance le small
  intro t le _
  exact h.rest t le

theorem Booked.stop (h : Booked cfg c [] l) (small : lastTick cfg ≤ maxT)
    (clock : l.lamportTime ≤ departure cfg []) :
    Booked cfg c [] (childLoop c l ⟨.stop, departure cfg []⟩).2.1 := by
  rw [lastTick] at small
  rw [childLoop_stop (synchronizeTime_of_le clock)]
  obtain ⟨filled, len⟩ := h.fill h.len (by omega)
  refine ⟨filled, len.le, fun t le => ?_⟩
  rw [len] at le
  exact h.rest t (h.len.trans le)

/-- A right history of all ticks. -/
structure Closed (cfg : BankConfig) (c : Nat) (history : BalanceHistory) : Prop where
  entered : Entered cfg c history
  len : history.historyLen = lastTick cfg

theorem Closed.entry {history : BalanceHistory} (h : Closed cfg c history) {t : Nat}
    (lt : t < lastTick cfg) : history.history t = ledger cfg c t := by
  apply h.entered.entries
  rw [h.len]
  exact lt

theorem Booked.sendHistory (h : Booked cfg c [] l) (small : lastTick cfg ≤ maxT)
    (recv : synchronizeTime l.bufTime l.lamportTime = lastTick cfg) :
    Closed cfg c (Pa3.sendHistory l).1.history := by
  have len := h.len
  have after : departure cfg [] + 1 ≤ lastTick cfg := by
    rw [lastTick]
    omega
  rw [Pa3.sendHistory, recv]
  obtain ⟨filled, len⟩ := h.fill (len.trans after) small
  exact ⟨filled, len⟩

end Booked

end Distra.Pa3
