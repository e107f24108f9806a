import Mathlib.Data.List.Range
import Mathlib.Logic.Function.Basic

/-!
# The request queue of `pa4/mutex.c` and `pa5/mutex.c`

One slot for every child, holding the time of its request. Time 0 marks an empty slot.
-/

namespace Distra

def emptyRequestTime : Nat := 0

structure RequestQueue where
  ts : Nat → Nat

namespace RequestQueue

/-- The zeroed queue of `calloc`. -/
def zeroed : RequestQueue := ⟨fun _ => emptyRequestTime⟩

def queueLookup (q : RequestQueue) (id : Nat) : Nat := q.ts (id - 1)

def queueContains (q : RequestQueue) (fr : Nat) : Bool := q.ts (fr - 1) != emptyRequestTime

/-- The assignment `q->ts[from - 1] = t`. -/
def setSlot (q : RequestQueue) (fr t : Nat) : RequestQueue := ⟨Function.update q.ts (fr - 1) t⟩

def enqueueRequest (q : RequestQueue) (fr t : Nat) : Option RequestQueue :=
  if queueContains q fr then none else some (q.setSlot fr t)

def releaseRequest (q : RequestQueue) (fr : Nat) : Option RequestQueue :=
  if queueContains q fr then some (q.setSlot fr emptyRequestTime) else none

/-- The body of the scan in `top_enqueued_request`, with the best child and time so far. -/
def scanSlot (q : RequestQueue) (top : Nat × Nat) (i : Nat) : Nat × Nat :=
  if q.ts i = emptyRequestTime then top
  else if top.2 = emptyRequestTime ∨ q.ts i < top.2 then (i, q.ts i) else top

def topEnqueuedRequest (maxChildren : Nat) (q : RequestQueue) : Nat :=
  ((List.range maxChildren).foldl (scanSlot q) (0, q.ts 0)).1 + 1

/-- The entry `(t, i)` comes before the entry `(t', i')`, ties going to the smaller slot. -/
def Precedes (a b : Nat × Nat) : Prop := a.1 < b.1 ∨ a.1 = b.1 ∧ a.2 ≤ b.2

/-- After the first `k` slots the scan stands on the smallest request among them, or still on
slot 0 when there is none. -/
theorem scan_spec (q : RequestQueue) (k : Nat) :
    let top := (List.range k).foldl (scanSlot q) (0, q.ts 0)
    top.2 = q.ts top.1 ∧ top.1 ≤ k ∧
      ∀ i < k, q.ts i ≠ emptyRequestTime →
        top.2 ≠ emptyRequestTime ∧ Precedes (top.2, top.1) (q.ts i, i) := by
  induction k with
  | zero => simp
  | succ k ih =>
    obtain ⟨slot, bound, least⟩ := ih
    rw [List.range_succ, List.foldl_append]
    generalize (List.range k).foldl (scanSlot q) (0, q.ts 0) = top at slot bound least
    obtain ⟨child, time⟩ := top
    simp only [List.foldl_cons, List.foldl_nil, scanSlot] at *
    split
    next vacant =>
      refine ⟨slot, by omega, fun i hi occupied => least i ?_ occupied⟩
      rcases Nat.lt_succ_iff_lt_or_eq.mp hi with hi | rfl
      · exact hi
      · exact absurd vacant occupied
    next occupied =>
      split
      next better =>
        refine ⟨rfl, by simp, fun i hi hocc => ⟨occupied, ?_⟩⟩
        rcases Nat.lt_succ_iff_lt_or_eq.mp hi with hi | rfl
        · obtain ⟨found, first⟩ := least i hi hocc
          simp only [Precedes] at *
          have : q.ts k < time := better.resolve_left found
          omega
        · simp [Precedes]
      next worse =>
        push Not at worse
        refine ⟨slot, by simp only; omega, fun i hi hocc => ?_⟩
        rcases Nat.lt_succ_iff_lt_or_eq.mp hi with hi | rfl
        · exact least i hi hocc
        · refine ⟨worse.1, ?_⟩
          simp only [Precedes]
          omega

/-- `top_enqueued_request` names a child whose request comes first among those in the queue. -/
theorem topEnqueuedRequest_le (q : RequestQueue) {maxChildren fr : Nat} (child : 1 ≤ fr)
    (inside : fr ≤ maxChildren) (queued : queueLookup q fr ≠ emptyRequestTime) :
    Precedes (queueLookup q (topEnqueuedRequest maxChildren q), topEnqueuedRequest maxChildren q)
      (queueLookup q fr, fr) := by
  obtain ⟨slot, -, least⟩ := scan_spec q maxChildren
  have first := (least (fr - 1) (by omega) queued).2
  simp only [Precedes, queueLookup, topEnqueuedRequest, Nat.add_sub_cancel] at *
  rw [← slot]
  omega

/-- `top_enqueued_request` names a child that has a request. -/
theorem topEnqueuedRequest_queued (q : RequestQueue) {maxChildren fr : Nat} (child : 1 ≤ fr)
    (inside : fr ≤ maxChildren) (queued : queueLookup q fr ≠ emptyRequestTime) :
    queueLookup q (topEnqueuedRequest maxChildren q) ≠ emptyRequestTime ∧
      topEnqueuedRequest maxChildren q ≤ maxChildren := by
  obtain ⟨slot, -, least⟩ := scan_spec q maxChildren
  have occupied := (least (fr - 1) (by omega) queued).1
  rw [slot] at occupied
  refine ⟨occupied, ?_⟩
  obtain ⟨k, rfl⟩ := Nat.exists_eq_add_of_le' (child.trans inside)
  have before := (scan_spec q k).2.1
  rw [topEnqueuedRequest, List.range_succ, List.foldl_append, List.foldl_cons, List.foldl_nil]
  rw [scanSlot]
  split_ifs <;> omega

/-- A request that comes before all others in the queue is the top one. -/
theorem topEnqueuedRequest_eq {q : RequestQueue} {maxChildren fr : Nat} (child : 1 ≤ fr)
    (inside : fr ≤ maxChildren) (queued : queueLookup q fr ≠ emptyRequestTime)
    (least : ∀ id, 1 ≤ id → id ≠ fr → queueLookup q id ≠ emptyRequestTime →
      queueLookup q fr < queueLookup q id ∨ queueLookup q fr = queueLookup q id ∧ fr < id) :
    topEnqueuedRequest maxChildren q = fr := by
  have precedes := topEnqueuedRequest_le q child inside queued
  have queued' := (topEnqueuedRequest_queued q child inside queued).1
  by_contra other
  have pos : 1 ≤ topEnqueuedRequest maxChildren q := Nat.le_add_left 1 _
  have := least _ pos other queued'
  simp only [Precedes] at precedes
  omega

/-! ## The queue slot by slot -/

theorem queueContains_eq (q : RequestQueue) (fr : Nat) :
    queueContains q fr = true ↔ queueLookup q fr ≠ emptyRequestTime := by
  simp [queueContains, queueLookup]

@[simp] theorem queueLookup_setSlot_self (q : RequestQueue) (fr t : Nat) :
    queueLookup (q.setSlot fr t) fr = t := by
  simp [queueLookup, setSlot]

theorem queueLookup_setSlot_ne (q : RequestQueue) {fr id : Nat} (t : Nat) (hfr : 1 ≤ fr)
    (hid : 1 ≤ id) (ne : id ≠ fr) : queueLookup (q.setSlot fr t) id = queueLookup q id := by
  have : id - 1 ≠ fr - 1 := by omega
  simp [queueLookup, setSlot, this]

/-- No slot but that of `fr` is written. -/
inductive Writes (fr : Nat) (q : RequestQueue) : RequestQueue → Prop
  | nothing : Writes fr q q
  | slot (t : Nat) : Writes fr q (q.setSlot fr t)

/-- What comes from a peer leaves the own request alone. -/
theorem Writes.own {q q' : RequestQueue} {fr id : Nat} (h : Writes fr q q') (hid : 1 ≤ id)
    (hfr : 1 ≤ fr) (ne : fr ≠ id) : queueLookup q' id = queueLookup q id := by
  cases h with
  | nothing => rfl
  | slot t => exact queueLookup_setSlot_ne q t hfr hid ne.symm

theorem enqueueRequest_eq_some {q q' : RequestQueue} {fr t : Nat} :
    enqueueRequest q fr t = some q' ↔
      queueLookup q fr = emptyRequestTime ∧ q' = q.setSlot fr t := by
  by_cases h : queueContains q fr = true
  · simp [enqueueRequest, h, (queueContains_eq q fr).mp h]
  · have vacant := mt (queueContains_eq q fr).mpr h
    push Not at vacant
    simp [enqueueRequest, h, vacant, eq_comm]

theorem releaseRequest_eq_some {q q' : RequestQueue} {fr : Nat} :
    releaseRequest q fr = some q' ↔
      queueLookup q fr ≠ emptyRequestTime ∧ q' = q.setSlot fr emptyRequestTime := by
  by_cases h : queueContains q fr = true
  · simp [releaseRequest, h, (queueContains_eq q fr).mp h, eq_comm]
  · have vacant := mt (queueContains_eq q fr).mpr h
    push Not at vacant
    simp [releaseRequest, h, vacant]

end RequestQueue

end Distra
