import Mathlib.Algebra.BigOperators.Group.Finset.Basic
import Mathlib.Algebra.BigOperators.Group.Finset.Piecewise

/-!
# Money in transit

Transfers between accounts, one after another, `period` ticks apart. An amount leaves its source
after the tick at which the transfer starts, is in transit for `delay` ticks, and counts for the
source during that time. At every tick all accounts together hold the same.
-/

namespace Distra.Accounts

universe u v
variable {A : Type u} {G : Type v}

structure Transfer (A : Type u) (G : Type v) where
  src : A
  dst : A
  amount : G

variable [DecidableEq A] [AddCommGroup G]

/-- The balance of account `a` after a transfer. -/
def Transfer.settle (o : Transfer A G) (a : A) (b : G) : G :=
  if a = o.src then b - o.amount else if a = o.dst then b + o.amount else b

/-- The balance of account `a` and the amount in transit from it at tick `t`, when it has balance
`b` before the transfers, the first of which starts at tick `start`. -/
def bookAt (delay period : Nat) (a : A) :
    (start : Nat) → (b : G) → List (Transfer A G) → Nat → G × G
  | _, b, [], _ => (b, 0)
  | start, b, o :: os, t =>
    if t ≤ start then (b, 0)
    else if t ≤ start + delay then if a = o.src then (b - o.amount, o.amount) else (b, 0)
    else bookAt delay period a (start + period) (o.settle a b) os t

section Book

variable {delay period start t : Nat} {a : A} {b : G} {o : Transfer A G} {os : List (Transfer A G)}

theorem bookAt_of_le (le : t ≤ start) : bookAt delay period a start b os t = (b, 0) := by
  cases os with
  | nil => rfl
  | cons o os => exact if_pos le

/-- While the amount is in transit. -/
theorem bookAt_transit (lt : start < t) (le : t ≤ start + delay) :
    bookAt delay period a start b (o :: os) t =
      if a = o.src then (b - o.amount, o.amount) else (b, 0) := by
  rw [bookAt, if_neg (not_le.mpr lt), if_pos le]

theorem bookAt_settle (lt : start + delay < t) :
    bookAt delay period a start b (o :: os) t =
      bookAt delay period a (start + period) (o.settle a b) os t := by
  rw [bookAt, if_neg (by omega), if_neg (not_le.mpr lt)]

/-- The destination has its old balance until the amount arrives. -/
theorem bookAt_dst (ne : a ≠ o.src) (le : t ≤ start + delay) :
    bookAt delay period a start b (o :: os) t = (b, 0) := by
  by_cases early : t ≤ start
  · exact bookAt_of_le early
  · rw [bookAt_transit (not_le.mp early) le, if_neg ne]

/-- A transfer between other accounts. -/
theorem bookAt_skip (ne_src : a ≠ o.src) (ne_dst : a ≠ o.dst) (short : delay ≤ period) :
    bookAt delay period a start b (o :: os) t = bookAt delay period a (start + period) b os t := by
  by_cases early : t ≤ start + delay
  · rw [bookAt_dst ne_src early, bookAt_of_le]
    omega
  · rw [bookAt_settle (not_le.mp early), Transfer.settle, if_neg ne_src, if_neg ne_dst]

/-- After all transfers. -/
theorem bookAt_settled (short : delay < period) (late : start + period * os.length ≤ t) :
    bookAt delay period a start b os t = (os.foldl (fun b o => o.settle a b) b, 0) := by
  induction os generalizing start b with
  | nil => rfl
  | cons o os ih =>
    rw [List.length_cons, Nat.mul_succ] at late
    rw [bookAt_settle (by omega), ih (by omega), List.foldl_cons]

end Book

section Conservation

variable {s : Finset A} (balance : A → G) {o : Transfer A G}

theorem sum_settle (src : o.src ∈ s) (dst : o.dst ∈ s) (ne : o.src ≠ o.dst) :
    ∑ a ∈ s, o.settle a (balance a) = ∑ a ∈ s, balance a := by
  have change (a : A) : o.settle a (balance a) =
      balance a + ((if a = o.dst then o.amount else 0) - if a = o.src then o.amount else 0) := by
    rw [Transfer.settle]
    by_cases eq_src : a = o.src
    · rw [if_pos eq_src, if_pos eq_src, if_neg (eq_src ▸ ne), zero_sub, sub_eq_add_neg]
    · rw [if_neg eq_src, if_neg eq_src, sub_zero]
      by_cases eq_dst : a = o.dst
      · rw [if_pos eq_dst, if_pos eq_dst]
      · rw [if_neg eq_dst, if_neg eq_dst, add_zero]
  rw [Finset.sum_congr rfl (fun a _ => change a), Finset.sum_add_distrib, Finset.sum_sub_distrib,
    Finset.sum_ite_eq', Finset.sum_ite_eq', if_pos src, if_pos dst, sub_self, add_zero]

/-- At every tick, the balances and what is in transit add up to the balances at the start. -/
theorem sum_bookAt (delay period : Nat) (os : List (Transfer A G))
    (valid : ∀ o ∈ os, o.src ∈ s ∧ o.dst ∈ s ∧ o.src ≠ o.dst) (start t : Nat) :
    ∑ a ∈ s, ((bookAt delay period a start (balance a) os t).1 +
      (bookAt delay period a start (balance a) os t).2) = ∑ a ∈ s, balance a := by
  induction os generalizing start balance with
  | nil =>
    apply Finset.sum_congr rfl
    intro a _
    exact add_zero _
  | cons o os ih =>
    obtain ⟨src, dst, ne⟩ := valid o List.mem_cons_self
    by_cases early : t ≤ start + delay
    · apply Finset.sum_congr rfl
      intro a _
      by_cases eq_src : a = o.src
      · by_cases before : t ≤ start
        · rw [bookAt_of_le before, add_zero]
        · rw [bookAt_transit (not_le.mp before) early, if_pos eq_src, sub_add_cancel]
      · rw [bookAt_dst eq_src early, add_zero]
    · have settled (a : A) : bookAt delay period a start (balance a) (o :: os) t =
          bookAt delay period a (start + period) (o.settle a (balance a)) os t :=
        bookAt_settle (not_le.mp early)
      simp only [settled]
      rw [ih (fun a => o.settle a (balance a)) (fun o mem => valid o (List.mem_cons_of_mem _ mem))]
      exact sum_settle balance src dst ne

end Conservation

end Distra.Accounts
