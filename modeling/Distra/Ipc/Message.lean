import Distra.Network.Channels
import Mathlib.Data.List.Basic
import Mathlib.Data.List.Range
import Mathlib.Order.Interval.Finset.Nat

/-!
# Messages, destinations and the Lamport clock

What `ipc.h`, `ipcio.c` and `time.c` give to the programs: message headers, the order in which
multicasts and receive loops visit the other processes, and the clock operations. Clocks are
natural numbers, so they do not wrap.
-/

namespace Distra

/-- `MessageType` of `ipc.h`. -/
inductive MessageType where
  | started
  | done
  | ack
  | stop
  | transfer
  | balanceHistory
  | csRequest
  | csReply
  | csRelease
  deriving DecidableEq, Repr

/-- The part of `MessageHeader` that a receiver looks at. -/
structure Message where
  type : MessageType
  localTime : Nat
  deriving DecidableEq, Repr

/-- `PARENT_ID` of `ipc.h`. -/
def parentId : Nat := 0

/-- The largest value of a `timestamp_t`. -/
def int16Max : Nat := 32767

/-- `num_children` with the bound that `main` checks, `MAX_CHILDREN` being the size of the arrays
that are indexed by child. -/
structure Config where
  numChildren : Nat
  maxChildren : Nat
  pos : 1 ≤ numChildren
  le_max : numChildren ≤ maxChildren

def IsChild (n p : Nat) : Prop := 1 ≤ p ∧ p ≤ n

instance (n p : Nat) : Decidable (IsChild n p) := inferInstanceAs (Decidable (_ ∧ _))

theorem parent_le (n : Nat) : parentId ≤ n := Nat.zero_le n

theorem IsChild.ne_parent {n p : Nat} (child : IsChild n p) : p ≠ parentId :=
  Nat.ne_of_gt child.1

/-- The children other than `self`, in ascending order. -/
def otherChildren (n self : Nat) : List Nat := (List.range' 1 n).filter (· ≠ self)

/-- The processes other than `self`, the parent first. -/
def otherProcesses (n self : Nat) : List Nat := (List.range (n + 1)).filter (· ≠ self)

/-- The sends of `send_multicast`. -/
def sendMulticast {M : Type} (n self : Nat) (m : M) : List (Nat × M) :=
  (otherProcesses n self).map (fun dst => (dst, m))

/-- The sends of `ipc_multicast_to_children`. -/
def ipcMulticastToChildren {M : Type} (n self : Nat) (m : M) : List (Nat × M) :=
  (otherChildren n self).map (fun dst => (dst, m))

/-- The next channel of `ipc_receive_all_next`, `none` standing for `RECEIVE_ALL_END`. -/
def ipcReceiveAllNext (n self fr : Nat) : Option Nat :=
  let next := if fr + 1 = self then fr + 2 else fr + 1
  if n < next then none else some next

/-- `advance_lamport_time` of `time.c`, for a clock that has not come to `int16Max`: this one counts
without end. -/
def advanceLamportTime (lamportTime : Nat) : Nat := lamportTime + 1

/-- `synchronize_time` of `time.c`, for as long as the result is within `int16Max`. -/
def synchronizeTime (receivedTime lamportTime : Nat) : Nat :=
  (if receivedTime > lamportTime then receivedTime else lamportTime) + 1

theorem lt_advanceLamportTime (t : Nat) : t < advanceLamportTime t := Nat.lt_succ_self t

theorem lt_synchronizeTime (r t : Nat) : t < synchronizeTime r t := by
  unfold synchronizeTime
  split <;> omega

theorem received_lt_synchronizeTime (r t : Nat) : r < synchronizeTime r t := by
  unfold synchronizeTime
  split <;> omega

theorem synchronizeTime_eq_max (r t : Nat) : synchronizeTime r t = max r t + 1 := by
  unfold synchronizeTime
  split <;> omega

@[simp] theorem mem_otherChildren {n self c : Nat} :
    c ∈ otherChildren n self ↔ (1 ≤ c ∧ c ≤ n) ∧ c ≠ self := by
  simp only [otherChildren, List.mem_filter, List.mem_range'_1, decide_eq_true_eq]
  omega

@[simp] theorem mem_otherProcesses {n self c : Nat} :
    c ∈ otherProcesses n self ↔ c ≤ n ∧ c ≠ self := by
  simp only [otherProcesses, List.mem_filter, List.mem_range, decide_eq_true_eq,
    Nat.lt_succ_iff]

theorem otherChildren_nodup (n self : Nat) : (otherChildren n self).Nodup :=
  List.Nodup.filter _ List.nodup_range'

theorem otherProcesses_nodup (n self : Nat) : (otherProcesses n self).Nodup :=
  List.Nodup.filter _ List.nodup_range

theorem length_otherProcesses {n self : Nat} (le : self ≤ n) :
    (otherProcesses n self).length = n := by
  have erased : otherProcesses n self = (List.range (n + 1)).erase self := by
    rw [List.nodup_range.erase_eq_filter, otherProcesses]
    refine List.filter_congr fun x _ => ?_
    by_cases same : x = self <;> simp [same]
  rw [erased, List.length_erase_of_mem (List.mem_range.mpr (Nat.lt_succ_iff.mpr le)),
    List.length_range]
  rfl

theorem length_otherChildren {n self : Nat} (child : IsChild n self) :
    (otherChildren n self).length = n - 1 := by
  have erased : otherChildren n self = (List.range' 1 n).erase self := by
    rw [List.Nodup.erase_eq_filter List.nodup_range', otherChildren]
    refine List.filter_congr fun x _ => ?_
    by_cases same : x = self <;> simp [same]
  rw [erased, List.length_erase_of_mem, List.length_range']
  rw [List.mem_range'_1]
  obtain ⟨pos, le⟩ := child
  omega

/-- A multicast reaches every other process once. -/
theorem outTo_sendMulticast {M : Type} {n p a : Nat} (le : a ≤ n) (ne : a ≠ p) (m : M) :
    Network.outTo (sendMulticast n p m) a = [m] := by
  rw [sendMulticast, Network.outTo_multicast _ (otherProcesses_nodup n p), if_pos]
  exact mem_otherProcesses.mpr ⟨le, ne⟩

theorem synchronizeTime_of_le {r t : Nat} (le : t ≤ r) : synchronizeTime r t = r + 1 := by
  rw [synchronizeTime_eq_max, Nat.max_eq_left le]

theorem synchronizeTime_of_ge {r t : Nat} (le : r ≤ t) : synchronizeTime r t = t + 1 := by
  rw [synchronizeTime_eq_max, Nat.max_eq_right le]

/-- `ipc_receive_all_next` goes to the next child that is not `self`. -/
theorem ipcReceiveAllNext_eq_some {n self fr next : Nat}
    (h : ipcReceiveAllNext n self fr = some next) :
    fr < next ∧ next ≤ n ∧ next ≠ self ∧ ∀ c, fr < c → c < next → c = self := by
  simp only [ipcReceiveAllNext] at h
  split_ifs at h with skip
  all_goals
    cases h
    refine ⟨by omega, by omega, by omega, fun c lower upper => by omega⟩

/-- It ends when no child other than `self` is left. -/
theorem ipcReceiveAllNext_eq_none {n self fr : Nat} (h : ipcReceiveAllNext n self fr = none) :
    ∀ c, fr < c → c ≤ n → c = self := by
  simp only [ipcReceiveAllNext] at h
  split_ifs at h <;> intros <;> omega

/-- The channels still ahead of the loop are the next one and those after it. -/
theorem ipcReceiveAllNext_ahead {n self fr next c : Nat}
    (h : ipcReceiveAllNext n self fr = some next) (ne : c ≠ self) : fr < c ↔ next ≤ c := by
  obtain ⟨lt, -, -, between⟩ := ipcReceiveAllNext_eq_some h
  constructor
  · intro ahead
    by_contra early
    exact ne (between c ahead (Nat.not_le.mp early))
  · exact lt.trans_le

/-- The parent takes no channel out. -/
theorem ipcReceiveAllNext_parent {n fr next : Nat}
    (h : ipcReceiveAllNext n parentId fr = some next) : next = fr + 1 := by
  obtain ⟨ahead, -, -, between⟩ := ipcReceiveAllNext_eq_some h
  by_contra gap
  exact Nat.succ_ne_zero fr (between (fr + 1) (Nat.lt_succ_self fr) (by omega))

theorem ipcReceiveAllNext_last {n self fr c : Nat} (h : ipcReceiveAllNext n self fr = none)
    (le : c ≤ n) (ne : c ≠ self) : ¬fr < c :=
  fun ahead => ne (ipcReceiveAllNext_eq_none h c ahead le)

end Distra
