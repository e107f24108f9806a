import Distra.Ipc.Message
import Distra.Pa4.RequestQueue
import Mathlib.Data.Prod.Lex
import Mathlib.Order.Bounds.Basic

/-!
# The request queue as a set of requests

Whatever is enqueued and released, the queue holds the requests that stand, and its top is the
least of them: by time, then by child.
-/

namespace Distra.RequestQueue

inductive Call where
  | enqueueRequest (fr t : Nat)
  | releaseRequest (fr : Nat)
  deriving DecidableEq

def Call.run (q : RequestQueue) : Call → Option RequestQueue
  | .enqueueRequest fr t => RequestQueue.enqueueRequest q fr t
  | .releaseRequest fr => RequestQueue.releaseRequest q fr

/-- Some calls, from the zeroed queue on. -/
def runCalls (calls : List Call) : Option RequestQueue := calls.foldlM Call.run zeroed

/-- The calls are about children, and requests are made after the clock has started. -/
def Call.Valid (maxChildren : Nat) : Call → Prop
  | .enqueueRequest fr t => IsChild maxChildren fr ∧ emptyRequestTime < t
  | .releaseRequest fr => IsChild maxChildren fr

instance (maxChildren : Nat) : DecidablePred (Call.Valid maxChildren)
  | .enqueueRequest _ _ => inferInstanceAs (Decidable (_ ∧ _))
  | .releaseRequest _ => inferInstanceAs (Decidable (IsChild _ _))

/-! ## Standing requests -/

/-- A request by its time and its child. -/
abbrev Request := Nat ×ₗ Nat

def Call.apply (S : Finset Request) : Call → Finset Request
  | .enqueueRequest fr t => insert (toLex (t, fr)) S
  | .releaseRequest fr => S.filter (fun request => (ofLex request).2 ≠ fr)

/-- The requests that have been enqueued and not been released since. -/
def standing (calls : List Call) : Finset Request := calls.foldl Call.apply ∅

/-- The occupied slots of `q` are the requests in `S`. -/
def Represents (maxChildren : Nat) (q : RequestQueue) (S : Finset Request) : Prop :=
  ∀ t id, toLex (t, id) ∈ S ↔
    IsChild maxChildren id ∧ t ≠ emptyRequestTime ∧ queueLookup q id = t

section Represents

variable {maxChildren : Nat} {q q' : RequestQueue} {S : Finset Request} {call : Call}

theorem represents_zeroed (maxChildren : Nat) : Represents maxChildren zeroed ∅ := by
  intro t id
  constructor
  · exact fun mem => absurd mem (Finset.notMem_empty _)
  · rintro ⟨-, occupied, rfl⟩
    exact absurd rfl occupied

/-- One call does the same to the queue and to the set. -/
theorem Represents.step (h : Represents maxChildren q S) (valid : call.Valid maxChildren)
    (run : call.run q = some q') : Represents maxChildren q' (call.apply S) := by
  intro t id
  cases call with
  | enqueueRequest fr time =>
    obtain ⟨child, pos⟩ := valid
    obtain ⟨vacant, rfl⟩ := enqueueRequest_eq_some.mp run
    rw [Call.apply, Finset.mem_insert, h t id]
    by_cases own : id = fr
    · subst own
      rw [queueLookup_setSlot_self, vacant]
      constructor
      · rintro (new | ⟨-, occupied, old⟩)
        · obtain rfl : t = time := congrArg (fun x => (ofLex x).1) new
          exact ⟨child, Nat.ne_of_gt pos, rfl⟩
        · exact absurd old.symm occupied
      · rintro ⟨-, -, rfl⟩
        exact .inl rfl
    · have other : toLex (t, id) ≠ toLex (time, fr) :=
        fun eq => own (congrArg (fun x => (ofLex x).2) eq)
      rw [or_iff_right other]
      refine and_congr_right fun idChild => ?_
      rw [queueLookup_setSlot_ne q time child.1 idChild.1 own]
  | releaseRequest fr =>
    obtain ⟨-, rfl⟩ := releaseRequest_eq_some.mp run
    rw [Call.apply, Finset.mem_filter, h t id]
    by_cases own : id = fr
    · subst own
      rw [queueLookup_setSlot_self]
      constructor
      · exact fun stands => absurd rfl stands.2
      · rintro ⟨-, occupied, empty⟩
        exact absurd empty.symm occupied
    · have other : (ofLex (toLex (t, id))).2 ≠ fr := own
      rw [and_iff_left other]
      refine and_congr_right fun idChild => ?_
      rw [queueLookup_setSlot_ne q emptyRequestTime (show IsChild maxChildren fr from valid).1
        idChild.1 own]

theorem Represents.calls (h : Represents maxChildren q S) {calls : List Call}
    (valid : ∀ call ∈ calls, call.Valid maxChildren) (run : calls.foldlM Call.run q = some q') :
    Represents maxChildren q' (calls.foldl Call.apply S) := by
  induction calls generalizing q S with
  | nil =>
    cases run
    exact h
  | cons call calls ih =>
    obtain ⟨valid, later⟩ := List.forall_mem_cons.mp valid
    obtain ⟨q₁, first, run⟩ := Option.bind_eq_some_iff.mp run
    exact ih (h.step valid first) later run

theorem Represents.contains (h : Represents maxChildren q S) {id : Nat}
    (child : IsChild maxChildren id) :
    queueContains q id = true ↔ ∃ t, toLex (t, id) ∈ S := by
  rw [queueContains_eq]
  constructor
  · intro occupied
    exact ⟨queueLookup q id, (h _ _).mpr ⟨child, occupied, rfl⟩⟩
  · rintro ⟨t, stands⟩
    obtain ⟨-, occupied, rfl⟩ := (h _ _).mp stands
    exact occupied

theorem le_of_precedes {a b : Nat × Nat} (h : Precedes a b) : toLex a ≤ toLex b := by
  rw [Prod.Lex.toLex_le_toLex]
  exact h

/-- The scan ends on the least request. -/
theorem Represents.top (h : Represents maxChildren q S) (some_ : S.Nonempty) :
    ∃ t, IsLeast (S : Set Request) (toLex (t, topEnqueuedRequest maxChildren q)) := by
  have first {t id : Nat} (stands : toLex (t, id) ∈ S) :
      toLex (queueLookup q (topEnqueuedRequest maxChildren q), topEnqueuedRequest maxChildren q) ≤
        toLex (t, id) := by
    obtain ⟨child, occupied, rfl⟩ := (h _ _).mp stands
    exact le_of_precedes (topEnqueuedRequest_le q child.1 child.2 occupied)
  refine ⟨queueLookup q (topEnqueuedRequest maxChildren q), ?_, fun request stands => first stands⟩
  obtain ⟨request, stands⟩ := some_
  obtain ⟨child, occupied, slot⟩ := (h (ofLex request).1 (ofLex request).2).mp stands
  rw [← slot] at occupied
  obtain ⟨found, inside⟩ := topEnqueuedRequest_queued q child.1 child.2 occupied
  exact (h _ _).mpr ⟨⟨Nat.le_add_left 1 _, inside⟩, found, rfl⟩

end Represents

/-- The queue holds the requests that stand, and `top_enqueued_request` finds the least of them. -/
theorem top_of_standing {maxChildren : Nat} {calls : List Call} {q : RequestQueue}
    (valid : ∀ call ∈ calls, call.Valid maxChildren) (run : runCalls calls = some q) :
    Represents maxChildren q (standing calls) ∧
      (∀ id, IsChild maxChildren id →
        (queueContains q id = true ↔ ∃ t, toLex (t, id) ∈ standing calls)) ∧
      ((standing calls).Nonempty →
        ∃ t, IsLeast (standing calls : Set Request)
          (toLex (t, topEnqueuedRequest maxChildren q))) := by
  have represents : Represents maxChildren q (standing calls) :=
    (represents_zeroed maxChildren).calls valid run
  exact ⟨represents, fun _ => represents.contains, represents.top⟩

/-- Three requests, two of them at the same time, and the release of the first one. -/
def someCalls : List Call :=
  [.enqueueRequest 1 2, .enqueueRequest 3 5, .enqueueRequest 2 5, .releaseRequest 1]

theorem top_of_standing_someCalls :
    ∃ q, runCalls someCalls = some q ∧ topEnqueuedRequest 3 q = 2 ∧
      ∃ t, IsLeast (standing someCalls : Set Request)
        (toLex (t, topEnqueuedRequest 3 q)) := by
  have run : (runCalls someCalls).any (fun q => topEnqueuedRequest 3 q = 2) = true := by decide
  obtain ⟨q, run, top⟩ := (Option.any_eq_true _ _).mp run
  have result := @top_of_standing 3 someCalls q (by decide) run
  exact ⟨q, run, of_decide_eq_true top, result.2.2 (by decide)⟩

end Distra.RequestQueue
