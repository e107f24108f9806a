import Distra.Ipc.Message
import Mathlib.Data.BitVec

/-!
# `time.c` in machine words

`timestamp_t` is an `int16_t`: it is signed, and the increment of 32767 gives -32768. A clock that
counts without end does the same for as long as its values are in the range of the type.
-/

namespace Distra.Machine

/-- `timestamp_t`. -/
abbrev Timestamp := BitVec 16

/-- The variable `lamport_time`, with the highest value that it has had. -/
structure LamportTime where
  value : Timestamp
  highest : Int

def LamportTime.assign (lamportTime : LamportTime) (value : Timestamp) : LamportTime :=
  ⟨value, max lamportTime.highest value.toInt⟩

def advanceLamportTime (lamportTime : LamportTime) : LamportTime :=
  lamportTime.assign (lamportTime.value + 1)

def synchronizeTime (receivedTime : Timestamp) (lamportTime : LamportTime) : LamportTime :=
  let lamportTime := lamportTime.assign
    (if receivedTime.toInt > lamportTime.value.toInt then receivedTime else lamportTime.value)
  lamportTime.assign (lamportTime.value + 1)

example : (synchronizeTime 32767 ⟨5, 5⟩).value.toInt = -32768 := by decide

/-! ## Clocks in range -/

/-- The number that the bits of a time stamp stand for, if it is not negative. -/
theorem toInt_of_le {t : Timestamp} (le : t.toNat ≤ int16Max) : t.toInt = t.toNat :=
  BitVec.toInt_eq_toNat_of_lt (by rw [int16Max] at le; omega)

theorem toNat_ofNat_of_le {t : Nat} (le : t ≤ int16Max) : (BitVec.ofNat 16 t).toNat = t := by
  rw [BitVec.toNat_ofNat, Nat.mod_eq_of_lt (by rw [int16Max] at le; omega)]

theorem toNat_succ {t : Timestamp} (le : t.toNat ≤ int16Max) : (t + 1).toNat = t.toNat + 1 := by
  rw [int16Max] at le
  rw [BitVec.toNat_add_of_lt (by simp; omega)]
  rfl

/-- `lamport_time` counts like `time`, up to the first value beyond `limit`. -/
structure Tracks (limit : Nat) (lamportTime : LamportTime) (time : Nat) : Prop where
  small : lamportTime.highest ≤ limit ↔ time ≤ limit
  value : time ≤ limit → lamportTime.value.toNat = time

section Tracks

variable {limit time time' : Nat} {value t : Timestamp} {lamportTime : LamportTime}
  (h : Tracks limit lamportTime time)
include h

theorem Tracks.assign (grows : time ≤ time')
    (same : time ≤ limit → value.toNat = time' ∧ time' ≤ int16Max) :
    Tracks limit (lamportTime.assign value) time' := by
  refine ⟨⟨fun small => ?_, fun small => ?_⟩, fun small => (same (grows.trans small)).1⟩
  · obtain ⟨eq, nonneg⟩ := same (h.small.mp ((le_max_left _ _).trans small))
    have reached := (le_max_right _ _).trans small
    rw [toInt_of_le (eq.trans_le nonneg), eq] at reached
    exact Int.ofNat_le.mp reached
  · obtain ⟨eq, nonneg⟩ := same (grows.trans small)
    refine max_le (h.small.mpr (grows.trans small)) ?_
    rw [toInt_of_le (eq.trans_le nonneg), eq]
    exact Int.ofNat_le.mpr small

variable (inRange : limit < int16Max)
include inRange

/-- Beyond `limit` comes the next value, and not -32768. -/
theorem Tracks.advance :
    Tracks limit (advanceLamportTime lamportTime) (Distra.advanceLamportTime time) := by
  refine h.assign (Nat.le_succ _) fun le => ?_
  have value := h.value le
  have eq := toNat_succ (value.trans_le (le.trans inRange.le))
  rw [value] at eq
  exact ⟨eq, Nat.succ_le_of_lt (le.trans_lt inRange)⟩

theorem Tracks.synchronize {t' : Nat} (same : time ≤ limit → t.toNat = t' ∧ t' ≤ int16Max) :
    Tracks limit (synchronizeTime t lamportTime) (Distra.synchronizeTime t' time) := by
  rw [synchronizeTime_eq_max]
  refine Tracks.advance (h.assign (le_max_right t' time) fun le => ?_) inRange
  obtain ⟨eq, nonneg⟩ := same le
  have value := h.value le
  have inside : time ≤ int16Max := le.trans inRange.le
  refine ⟨?_, max_le nonneg inside⟩
  rw [toInt_of_le (eq.trans_le nonneg), toInt_of_le (value.trans_le inside), eq, value]
  by_cases later : time < t'
  · rw [if_pos (Int.ofNat_lt.mpr later), eq, max_eq_left later.le]
  · rw [if_neg fun lt => later (Int.ofNat_lt.mp lt), value, max_eq_right (not_lt.mp later)]

end Tracks

end Distra.Machine
