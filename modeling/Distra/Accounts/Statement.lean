import Distra.Accounts.Transit
import Mathlib.Algebra.BigOperators.Group.List.Basic
import Mathlib.Tactic.Abel

/-!
# Statements of an account

The balance of one account at a time follows from the transfers that have been posted by then. What
it has sent is in transit for some time after that.
-/

namespace Distra.Accounts

universe u v
variable {A : Type u} {G : Type v}

/-- A transfer with the time at which it is posted. -/
structure Posting (A : Type u) (G : Type v) where
  time : Nat
  transfer : Transfer A G

variable [DecidableEq A]

section Balance

variable [AddCommGroup G]

def sentBy (a : A) (postings : List (Posting A G)) (t : Nat) : G :=
  ((postings.filter (fun p => p.transfer.src = a ∧ p.time ≤ t)).map (·.transfer.amount)).sum

def receivedBy (a : A) (postings : List (Posting A G)) (t : Nat) : G :=
  ((postings.filter (fun p => p.transfer.dst = a ∧ p.time ≤ t)).map (·.transfer.amount)).sum

/-- The balance of `a` at time `t`, with `b` before all postings. -/
def balanceAt (a : A) (b : G) (postings : List (Posting A G)) (t : Nat) : G :=
  b - sentBy a postings t + receivedBy a postings t

variable {a : A} {b : G} {p : Posting A G} {postings : List (Posting A G)} {t : Nat}

@[simp] theorem balanceAt_nil (a : A) (b : G) (t : Nat) : balanceAt a b [] t = b := by
  simp [balanceAt, sentBy, receivedBy]

/-- A posting that is still to come changes nothing. -/
theorem balanceAt_cons_of_lt (later : t < p.time) :
    balanceAt a b (p :: postings) t = balanceAt a b postings t := by
  have out (q : Prop) [Decidable q] : decide (q ∧ p.time ≤ t) = false :=
    decide_eq_false fun h => Nat.not_le.mpr later h.2
  rw [balanceAt, balanceAt, sentBy, sentBy, receivedBy, receivedBy, List.filter_cons_of_neg,
    List.filter_cons_of_neg]
  · rw [out]
    exact Bool.false_ne_true
  · rw [out]
    exact Bool.false_ne_true

/-- A posting is settled when it is there. -/
theorem balanceAt_cons_of_le (valid : p.transfer.src ≠ p.transfer.dst) (le : p.time ≤ t) :
    balanceAt a b (p :: postings) t = balanceAt a (p.transfer.settle a b) postings t := by
  have sent : sentBy a (p :: postings) t =
      (if p.transfer.src = a then p.transfer.amount else 0) + sentBy a postings t := by
    by_cases src : p.transfer.src = a <;> simp [sentBy, src, le]
  have received : receivedBy a (p :: postings) t =
      (if p.transfer.dst = a then p.transfer.amount else 0) + receivedBy a postings t := by
    by_cases dst : p.transfer.dst = a <;> simp [receivedBy, dst, le]
  rw [balanceAt, balanceAt, sent, received, Transfer.settle]
  by_cases src : p.transfer.src = a
  · have dst : ¬p.transfer.dst = a := fun dst => valid (src.trans dst.symm)
    rw [if_pos src, if_neg dst, if_pos src.symm, zero_add, sub_add_eq_sub_sub]
  · rw [if_neg src, if_neg (Ne.symm src), zero_add]
    by_cases dst : p.transfer.dst = a
    · rw [if_pos dst, if_pos dst.symm]
      abel
    · rw [if_neg dst, if_neg (Ne.symm dst), zero_add]

/-- Before the first posting the balance is the old one. -/
theorem balanceAt_of_lt (later : ∀ p ∈ postings, t < p.time) : balanceAt a b postings t = b := by
  induction postings with
  | nil => exact balanceAt_nil a b t
  | cons p postings ih =>
    obtain ⟨first, rest⟩ := List.forall_mem_cons.mp later
    rw [balanceAt_cons_of_lt first, ih rest]

end Balance

/-! ## What is in transit -/

section Transit

variable [Zero G]

/-- What `a` has sent is in transit at the time of the posting and for `delay` ticks after it. -/
def inTransit (delay : Nat) (a : A) : List (Posting A G) → Nat → G
  | [], _ => 0
  | p :: postings, t =>
    if p.transfer.src = a ∧ p.time ≤ t ∧ t ≤ p.time + delay then p.transfer.amount
    else inTransit delay a postings t

variable {delay : Nat} {a : A} {p : Posting A G} {postings : List (Posting A G)} {t : Nat}

theorem inTransit_cons_of_lt (later : t < p.time) :
    inTransit delay a (p :: postings) t = inTransit delay a postings t :=
  if_neg fun h => Nat.not_le.mpr later h.2.1

theorem inTransit_of_lt (later : ∀ p ∈ postings, t < p.time) :
    inTransit delay a postings t = 0 := by
  induction postings with
  | nil => rfl
  | cons p postings ih =>
    obtain ⟨first, rest⟩ := List.forall_mem_cons.mp later
    rw [inTransit_cons_of_lt first, ih rest]

/-- Nothing is in transit outside the times of the postings of `a`. -/
theorem inTransit_eq_zero
    (quiet : ∀ p ∈ postings, p.transfer.src = a → ¬(p.time ≤ t ∧ t ≤ p.time + delay)) :
    inTransit delay a postings t = 0 := by
  induction postings with
  | nil => rfl
  | cons p postings ih =>
    obtain ⟨first, rest⟩ := List.forall_mem_cons.mp quiet
    rw [inTransit, if_neg fun h => first h.1 h.2, ih rest]

/-- The postings of `a` follow each other after the delay. -/
def Spaced (delay : Nat) (a : A) : List (Posting A G) → Prop :=
  List.Pairwise fun p q => p.transfer.src = a → p.time + delay < q.time

omit [DecidableEq A] [Zero G] in
theorem spaced_cons : Spaced delay a (p :: postings) ↔
    (∀ q ∈ postings, p.transfer.src = a → p.time + delay < q.time) ∧ Spaced delay a postings :=
  List.pairwise_cons

/-- The amount of a posting is what is in transit during its time. -/
theorem inTransit_eq_amount (spaced : Spaced delay a postings) {q : Posting A G}
    (mem : q ∈ postings) (src : q.transfer.src = a) (le : q.time ≤ t) (lt : t ≤ q.time + delay) :
    inTransit delay a postings t = q.transfer.amount := by
  induction postings with
  | nil => cases mem
  | cons p postings ih =>
    obtain ⟨first, rest⟩ := spaced_cons.mp spaced
    rcases List.mem_cons.mp mem with rfl | mem
    · exact if_pos ⟨src, le, lt⟩
    · rw [inTransit, if_neg, ih rest mem]
      rintro ⟨own, -, within⟩
      have := first q mem own
      omega

end Transit

end Distra.Accounts
