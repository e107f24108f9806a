import Distra.Ipc.Headers
import Distra.Pa23.Banking

/-!
# `banking.h` as bytes

The packed structures that travel as payloads. Children are counted in `int8_t`s, times in
`int16_t`s, and a `BalanceHistory` has an entry for every time up to `MAX_T`.
-/

namespace Distra

open Ipc

def TransferOrder.bytes (order : TransferOrder) : List Byte :=
  [BitVec.ofNat 8 order.src, BitVec.ofNat 8 order.dst] ++ uint16Bytes order.amount

def BalanceState.bytes (state : BalanceState) : List Byte :=
  uint16Bytes state.balance ++ uint16Bytes (BitVec.ofNat 16 state.time) ++
    uint16Bytes state.balancePendingIn

/-- `s_history`. -/
def entryBytes (history : Nat → BalanceState) (n : Nat) : List Byte :=
  (List.range n).flatMap fun t => (history t).bytes

def BalanceHistory.bytes (history : BalanceHistory) : List Byte :=
  [BitVec.ofNat 8 history.id, BitVec.ofNat 8 history.historyLen] ++
    entryBytes history.history (maxT + 1)

def readTransferOrder (mem : Memory) : TransferOrder :=
  ⟨(mem 0).toInt.toNat, (mem 1).toInt.toNat, uint16 mem 2⟩

def readBalanceState (mem : Memory) (off : Nat) : BalanceState :=
  ⟨uint16 mem off, (uint16 mem (off + 2)).toInt.toNat, uint16 mem (off + 4)⟩

def readBalanceHistory (mem : Memory) : BalanceHistory where
  id := (mem 0).toInt.toNat
  historyLen := (mem 1).toNat
  history t := if t ≤ maxT then readBalanceState mem (2 + 6 * t) else ⟨0, 0, 0⟩

/-- The ids are those of processes. -/
def TransferOrder.Packs (order : TransferOrder) : Prop := order.src ≤ 127 ∧ order.dst ≤ 127

/-- No entry is outside of the array, and no time overflows. -/
structure BalanceHistory.Packs (history : BalanceHistory) : Prop where
  id : history.id ≤ 127
  historyLen : history.historyLen ≤ maxT
  time : ∀ t, (history.history t).time ≤ int16Max
  rest : ∀ t, maxT < t → history.history t = ⟨0, 0, 0⟩

section Bytes

variable {mem mem' : Memory}

@[simp] theorem length_transferOrder (order : TransferOrder) : order.bytes.length = 4 := rfl

@[simp] theorem length_balanceState (state : BalanceState) : state.bytes.length = 6 := rfl

theorem entryBytes_succ (history : Nat → BalanceState) (n : Nat) :
    entryBytes history (n + 1) = entryBytes history n ++ (history n).bytes := by
  rw [entryBytes, List.range_succ, List.flatMap_append, List.flatMap_singleton]
  rfl

@[simp] theorem length_entryBytes (history : Nat → BalanceState) (n : Nat) :
    (entryBytes history n).length = 6 * n := by
  induction n with
  | zero => rfl
  | succ n ih =>
    rw [entryBytes_succ, List.length_append, ih]
    rfl

@[simp] theorem length_balanceHistory (history : BalanceHistory) : history.bytes.length = 1538 := by
  rw [BalanceHistory.bytes, List.length_append, length_entryBytes]
  rfl

/-- A process id is read as it was written. -/
theorem toInt_id {p : Nat} (le : p ≤ 127) : (BitVec.ofNat 8 p).toInt.toNat = p := by
  have same : (BitVec.ofNat 8 p).toNat = p := by
    rw [BitVec.toNat_ofNat, Nat.mod_eq_of_lt (by omega)]
  have positive : 2 * (BitVec.ofNat 8 p).toNat < 2 ^ 8 := by omega
  rw [BitVec.toInt_eq_toNat_of_lt positive, Int.toNat_natCast, same]

/-- The bytes in memory, one by one. -/
theorem byte_of_load {bytes : List Byte} {off i : Nat} {b : Byte}
    (eq : load mem off bytes.length = bytes) (get : bytes[i]? = some b) : mem (off + i) = b := by
  have lt : i < bytes.length := (List.getElem?_eq_some_iff.mp get).1
  have loaded := getElem?_load lt mem off
  rw [eq, get] at loaded
  exact (Option.some.inj loaded).symm

theorem uint16_of_load {bytes : List Byte} {off i : Nat} {v : BitVec 16}
    (eq : load mem off bytes.length = bytes) (low : bytes[i]? = some (v.setWidth 8))
    (high : bytes[i + 1]? = some ((v >>> 8).setWidth 8)) : uint16 mem (off + i) = v := by
  have first := byte_of_load eq low
  have second := byte_of_load eq high
  rw [uint16, first, Nat.add_assoc, second]
  exact uint16_bytes v

theorem readTransferOrder_of_load {order : TransferOrder} (packs : order.Packs)
    (eq : load mem 0 order.bytes.length = order.bytes) : readTransferOrder mem = order := by
  have src : mem 0 = BitVec.ofNat 8 order.src := byte_of_load (i := 0) eq rfl
  have dst : mem 1 = BitVec.ofNat 8 order.dst := byte_of_load (i := 1) eq rfl
  have amount : uint16 mem 2 = order.amount := uint16_of_load (i := 2) eq rfl rfl
  rw [readTransferOrder, src, dst, amount, toInt_id packs.1, toInt_id packs.2]

theorem readBalanceState_of_load {state : BalanceState} {off : Nat} (le : state.time ≤ int16Max)
    (eq : load mem off state.bytes.length = state.bytes) : readBalanceState mem off = state := by
  have balance : uint16 mem off = state.balance := uint16_of_load (i := 0) eq rfl rfl
  have time : uint16 mem (off + 2) = BitVec.ofNat 16 state.time :=
    uint16_of_load (i := 2) eq rfl rfl
  have pending : uint16 mem (off + 4) = state.balancePendingIn :=
    uint16_of_load (i := 4) eq rfl rfl
  rw [readBalanceState, balance, time, pending, toInt_time le]

/-- A part of what has been loaded. -/
theorem load_append {off : Nat} {l l' : List Byte}
    (eq : load mem off (l ++ l').length = l ++ l') :
    load mem off l.length = l ∧ load mem (off + l.length) l'.length = l' := by
  rw [List.length_append, load_add] at eq
  exact List.append_inj eq (length_load _ _ _)

/-- Every entry is in its place. -/
theorem load_entry {history : Nat → BalanceState} {off n t : Nat}
    (eq : load mem off (entryBytes history n).length = entryBytes history n) (lt : t < n) :
    load mem (off + 6 * t) (history t).bytes.length = (history t).bytes := by
  induction n with
  | zero => cases lt
  | succ n ih =>
    rw [entryBytes_succ] at eq
    obtain ⟨before, last⟩ := load_append eq
    rcases Nat.lt_succ_iff_lt_or_eq.mp lt with lt | rfl
    · exact ih before lt
    · rw [length_entryBytes] at last
      exact last

theorem readBalanceHistory_of_load {history : BalanceHistory} (packs : history.Packs)
    (eq : load mem 0 history.bytes.length = history.bytes) : readBalanceHistory mem = history := by
  obtain ⟨head, entries⟩ := load_append eq
  have id : mem 0 = BitVec.ofNat 8 history.id := byte_of_load (i := 0) head rfl
  have len : mem 1 = BitVec.ofNat 8 history.historyLen := byte_of_load (i := 1) head rfl
  have small : history.historyLen < 2 ^ 8 := Nat.lt_succ_of_le packs.historyLen
  obtain ⟨i, n, entry⟩ := history
  rw [readBalanceHistory, BalanceHistory.mk.injEq, id, len, BitVec.toNat_ofNat,
    Nat.mod_eq_of_lt small]
  refine ⟨toInt_id packs.id, rfl, ?_⟩
  funext t
  split
  next le =>
    exact readBalanceState_of_load (packs.time t) (load_entry entries (Nat.lt_succ_of_le le))
  next later => exact (packs.rest t (Nat.not_le.mp later)).symm

end Bytes

end Distra
