import Distra.Network.History
import Mathlib.Algebra.BigOperators.Ring.Finset
import Mathlib.Algebra.Order.BigOperators.Group.Finset

/-!
# Clocks on a budget

The largest clock of a system of processes grows with every tick, whoever ticks. A potential counts
the ticks that are still to come: those that the local state of a process leads to, and those that
a message leads to at its receiver and by what it makes the receiver send. Where every step pays
for its ticks out of the potential, no clock and no time stamp goes beyond the potential of the
initial state.
-/

namespace Distra.Network

variable {P σ M : Type} [DecidableEq P]

section Timed

variable {clockOf : σ → Nat} {timeOf : M → Nat} {v : View P σ M} {p : P}
  {input : Option (P × M)} {next : Next P σ M} {K ticks : Nat}

/-- A step that raises the clock by `ticks` at most, and stamps what it sends. -/
structure Ticks (clockOf : σ → Nat) (timeOf : M → Nat) (st : σ) (input : Option (P × M))
    (next : Next P σ M) (ticks : Nat) : Prop where
  clock : ∀ K, clockOf st ≤ K → (∀ x ∈ input, timeOf x.2 ≤ K) → clockOf next.1 ≤ K + ticks
  times : ∀ x ∈ next.2, timeOf x.2 ≤ clockOf next.1

/-- No clock and no time stamp is beyond `K`. -/
structure Timed (clockOf : σ → Nat) (timeOf : M → Nat) (v : View P σ M) (K : Nat) : Prop where
  clock : ∀ a, clockOf (v.loc a) ≤ K
  times : ∀ a b, ∀ m ∈ v.chan a b, timeOf m ≤ K

omit [DecidableEq P] in
theorem Timed.taken (h : Timed clockOf timeOf v K) (offers : v.Offers p input) :
    ∀ x ∈ input, timeOf x.2 ≤ K := by
  rintro ⟨q, m⟩ rfl
  obtain ⟨rest, head⟩ := offers
  exact h.times q p m (head ▸ List.mem_cons_self)

theorem Timed.step_le (h : Timed clockOf timeOf v K) (offers : v.Offers p input)
    (after : clockOf next.1 ≤ K + ticks) (sent : ∀ x ∈ next.2, timeOf x.2 ≤ K + ticks) :
    Timed clockOf timeOf ((v.consume p input).become p next) (K + ticks) := by
  refine ⟨fun a => ?_, fun a b m hm => ?_⟩
  · rw [View.consume_become_loc]
    split
    · exact after
    · exact Nat.le_add_right_of_le (h.clock a)
  · rw [View.consume_become_chan] at hm
    rcases List.mem_append.mp hm with hm | hm
    · exact Nat.le_add_right_of_le (h.times a b m (offers.mem_of_consume hm))
    · split at hm
      · exact sent (b, m) (mem_outTo.mp hm)
      · cases hm

theorem Timed.step (h : Timed clockOf timeOf v K) (offers : v.Offers p input)
    (ticked : Ticks clockOf timeOf (v.loc p) input next ticks) :
    Timed clockOf timeOf ((v.consume p input).become p next) (K + ticks) :=
  let after := ticked.clock K (h.clock p) (h.taken offers)
  h.step_le offers after fun x mem => (ticked.times x mem).trans after

end Timed

/-- What the clocks of the processes in `S` can still be raised by. -/
structure Budget (P σ M : Type) where
  procs : Finset P
  clock : σ → Nat
  time : M → Nat
  /-- The ticks that a local state leads to. -/
  work : P → σ → Nat
  /-- The ticks that a message leads to. -/
  cost : M → Nat

namespace Budget

variable (B : Budget P σ M) {v : View P σ M} {p : P} {input : Option (P × M)} {next : Next P σ M}

def total (l : List M) : Nat := (l.map B.cost).sum

omit [DecidableEq P] in
@[simp] theorem total_append (l l' : List M) : B.total (l ++ l') = B.total l + B.total l' := by
  simp [total]

/-- The ticks that the messages of a buffer lead to. -/
def outCost (out : List (P × M)) : Nat := (out.map (fun x => B.cost x.2)).sum

def potential (v : View P σ M) : Nat :=
  ∑ a ∈ B.procs, B.work a (v.loc a) + ∑ b ∈ B.procs, ∑ a ∈ B.procs, B.total (v.chan a b)

/-- Each message of a buffer goes to one process. -/
theorem sum_total_outTo (out : List (P × M)) :
    ∑ b ∈ B.procs, B.total (outTo out b) =
      (out.map (fun x => if x.1 ∈ B.procs then B.cost x.2 else 0)).sum := by
  induction out with
  | nil => simp [total]
  | cons x out ih =>
    have head (b : P) : B.total (outTo (x :: out) b) =
        (if x.1 = b then B.cost x.2 else 0) + B.total (outTo out b) := by
      rw [outTo_cons, total_append]
      split <;> simp [total]
    simp only [head, Finset.sum_add_distrib, ih, Finset.sum_ite_eq, List.map_cons, List.sum_cons]

theorem sum_total_outTo_le (out : List (P × M)) :
    ∑ b ∈ B.procs, B.total (outTo out b) ≤ B.outCost out := by
  rw [sum_total_outTo]
  refine List.sum_le_sum fun x _ => ?_
  split
  · exact Nat.le_refl _
  · exact Nat.zero_le _

theorem work_step (v : View P σ M) (input : Option (P × M)) (next : Next P σ M)
    (mem : p ∈ B.procs) :
    ∑ a ∈ B.procs, B.work a (((v.consume p input).become p next).loc a) + B.work p (v.loc p) =
      ∑ a ∈ B.procs, B.work a (v.loc a) + B.work p next.1 := by
  have others : ∑ a ∈ B.procs.erase p, B.work a (((v.consume p input).become p next).loc a) =
      ∑ a ∈ B.procs.erase p, B.work a (v.loc a) := by
    refine Finset.sum_congr rfl fun a ha => ?_
    rw [View.consume_become_loc, if_neg (Finset.ne_of_mem_erase ha)]
  rw [← Finset.add_sum_erase _ _ mem, ← Finset.add_sum_erase _ _ mem, others,
    View.consume_become_loc, if_pos rfl]
  omega

/-- What is sent adds to the traffic. -/
theorem traffic_become (v : View P σ M) (input : Option (P × M)) (next : Next P σ M)
    (mem : p ∈ B.procs) :
    ∑ b ∈ B.procs, ∑ a ∈ B.procs, B.total (((v.consume p input).become p next).chan a b) ≤
      ∑ b ∈ B.procs, ∑ a ∈ B.procs, B.total ((v.consume p input).chan a b) + B.outCost next.2 := by
  have chan (a b : P) : B.total (((v.consume p input).become p next).chan a b) =
      B.total ((v.consume p input).chan a b) +
        if a = p then B.total (outTo next.2 b) else 0 := by
    rw [View.consume_become_chan, total_append]
    split <;> rfl
  simp only [chan, Finset.sum_add_distrib, Finset.sum_ite_eq', if_pos mem]
  exact Nat.add_le_add_left (B.sum_total_outTo_le next.2) _

/-- What is taken is no longer traffic. -/
theorem traffic_consume (mem : p ∈ B.procs) (offers : v.Offers p input)
    (sources : ∀ x ∈ input, x.1 ∈ B.procs) :
    ∑ b ∈ B.procs, ∑ a ∈ B.procs, B.total (v.chan a b) =
      ∑ b ∈ B.procs, ∑ a ∈ B.procs, B.total ((v.consume p input).chan a b) +
        B.outCost input.toList := by
  have chan (b : P) : ∑ a ∈ B.procs, B.total (v.chan a b) =
      ∑ a ∈ B.procs, B.total ((v.consume p input).chan a b) +
        if b = p then B.outCost input.toList else 0 := by
    by_cases receiver : b = p
    · subst receiver
      have taken : ∑ a ∈ B.procs, B.total (outTo input.toList a) = B.outCost input.toList := by
        rw [sum_total_outTo, outCost]
        congr 1
        refine List.map_congr_left fun x hx => if_pos (sources x (Option.mem_toList.mp hx))
      simp only [offers.chan_eq, total_append, Finset.sum_add_distrib, taken, if_pos]
      omega
    · rw [if_neg receiver, Nat.add_zero]
      simp only [View.consume_chan_ne v input receiver]
  simp only [chan, Finset.sum_add_distrib, Finset.sum_ite_eq', if_pos mem]

/-- The potential after a step. -/
theorem potential_step (next : Next P σ M) (mem : p ∈ B.procs) (offers : v.Offers p input)
    (sources : ∀ x ∈ input, x.1 ∈ B.procs) :
    B.potential ((v.consume p input).become p next) + B.work p (v.loc p) + B.outCost input.toList ≤
      B.potential v + B.work p next.1 + B.outCost next.2 := by
  have work := B.work_step v input next mem
  have sent := B.traffic_become v input next mem
  have taken := B.traffic_consume mem offers sources
  simp only [potential]
  omega

/-- The ticks of a step are paid for by the potential that it uses up. -/
structure Pays (p : P) (st : σ) (input : Option (P × M)) (next : Next P σ M) (ticks : Nat) :
    Prop where
  clock : ∀ K, B.clock st ≤ K → (∀ x ∈ input, B.time x.2 ≤ K) → B.clock next.1 ≤ K + ticks
  times : ∀ x ∈ next.2, B.time x.2 ≤ B.clock next.1
  paid : ticks + B.work p next.1 + B.outCost next.2 ≤ B.work p st + B.outCost input.toList

/-- No clock and no time stamp is beyond `K`, and the potential covers what is left up to
`limit`. -/
structure Within (limit : Nat) (v : View P σ M) (K : Nat) : Prop where
  clock : ∀ a, B.clock (v.loc a) ≤ K
  times : ∀ a b, ∀ m ∈ v.chan a b, B.time m ≤ K
  covered : K + B.potential v ≤ limit

omit [DecidableEq P] in
theorem Within.timed {limit K : Nat} (h : B.Within limit v K) : Timed B.clock B.time v K :=
  ⟨h.clock, h.times⟩

theorem Within.step_le {limit K ticks : Nat} (h : B.Within limit v K) (mem : p ∈ B.procs)
    (offers : v.Offers p input) (sources : ∀ x ∈ input, x.1 ∈ B.procs)
    (clock : B.clock next.1 ≤ K + ticks) (times : ∀ x ∈ next.2, B.time x.2 ≤ B.clock next.1)
    (paid : ticks + B.work p next.1 + B.outCost next.2 ≤
      B.work p (v.loc p) + B.outCost input.toList) :
    B.Within limit ((v.consume p input).become p next) (K + ticks) := by
  have after := h.timed.step_le offers clock fun x mem => (times x mem).trans clock
  refine ⟨after.clock, after.times, ?_⟩
  have := B.potential_step next mem offers sources
  have := h.covered
  omega

theorem Within.step {limit K ticks : Nat} (h : B.Within limit v K) (mem : p ∈ B.procs)
    (offers : v.Offers p input) (sources : ∀ x ∈ input, x.1 ∈ B.procs)
    (pays : B.Pays p (v.loc p) input next ticks) :
    B.Within limit ((v.consume p input).become p next) (K + ticks) :=
  h.step_le B mem offers sources (pays.clock K (h.clock p) (h.timed.taken offers)) pays.times
    pays.paid

end Budget

end Distra.Network
