import Distra.Network.Potential

/-!
# All that has been sent and taken

A process puts what it sends into its buffer when it moves to its next local state, and has written
all of it before it moves on. So what has been written was written in the local state to which the
process had moved. Where a step raises a clock by no more than the number of messages that it takes
and sends, no clock goes beyond the number of messages sent and taken so far.
-/

namespace Distra.Network

open Function

variable {P σ M : Type} [DecidableEq P]

/-- What every process has sent to every other one, each time with the local state of the sender,
and what it has taken from it. -/
structure Traffic (P σ M : Type) where
  sent : P → P → List (σ × M)
  taken : P → P → List M

namespace Traffic

def none : Traffic P σ M := ⟨fun _ _ => [], fun _ _ => []⟩

/-- The traffic after a step of `p`. -/
def step (t : Traffic P σ M) (p : P) (input : Option (P × M)) (next : Next P σ M) :
    Traffic P σ M where
  sent a b := t.sent a b ++ if a = p then (outTo next.2 b).map (next.1, ·) else []
  taken a b := t.taken a b ++ if a = p then outTo input.toList b else []

end Traffic

/-- What `p` has written to `q`, with the local states in which it was written. -/
def writtenAt (ts : List (Transition P σ M)) (p q : P) : List (σ × M) :=
  ts.filterMap fun t => (t.event.written p q).map (t.before.loc p, ·)

/-- What `p` is still to write to `q`. -/
def State.pending (s : State P σ M) (p q : P) : List (σ × M) :=
  (outTo (s.outbox p) q).map (s.loc p, ·)

/-- The traffic of a run that ends in `s`. -/
def traffic (ts : List (Transition P σ M)) (s : State P σ M) : Traffic P σ M where
  sent a b := writtenAt ts a b ++ s.pending a b
  taken := taken ts

section Runs

variable {code : Code P σ M} {s₀ s s' : State P σ M} {e : Event P M} {p : P}
  {ts : List (Transition P σ M)} {n next : Next P σ M}

theorem writtenAt_snoc (t : Transition P σ M) (a b : P) :
    writtenAt (ts ++ [t]) a b =
      writtenAt ts a b ++ ((t.event.written a b).map (t.before.loc a, ·)).toList := by
  simp only [writtenAt, List.filterMap_append]
  cases h : t.event.written a b <;> simp [h]

theorem map_snd_writtenAt (ts : List (Transition P σ M)) (a b : P) :
    (writtenAt ts a b).map Prod.snd = written ts a b := by
  rw [writtenAt, written, List.map_filterMap]
  congr 1
  funext t
  cases t.event.written a b <;> rfl

/-- What has been sent has been written, or it is still to be written. -/
theorem map_snd_sent (ts : List (Transition P σ M)) (s : State P σ M) (a b : P) :
    ((Network.traffic ts s).sent a b).map Prod.snd = written ts a b ++ outTo (s.outbox a) b := by
  rw [Network.traffic, List.map_append, map_snd_writtenAt, State.pending, List.map_map]
  exact congrArg _ (List.map_id _)

theorem State.pending_become (idle : s.outbox p = []) (next : Next P σ M) (a b : P) :
    (s.become p next).pending a b =
      s.pending a b ++ if a = p then (outTo next.2 b).map (next.1, ·) else [] := by
  by_cases actor : a = p
  · subst actor
    simp [pending, become, idle]
  · simp [pending, become, actor]

/-- The views before and after show what has been sent in between. -/
theorem State.become_congr (idle : s.outbox p = [])
    (same : (s.become p n).view = s.view.become p next) :
    n.1 = next.1 ∧ ∀ b, outTo n.2 b = outTo next.2 b := by
  rw [State.view_become idle] at same
  constructor
  · have loc := congrFun (congrArg View.loc same) p
    simpa [View.become] using loc
  · intro b
    have chan := congrFun (congrFun (congrArg View.chan same) p) b
    simpa [View.become] using chan

theorem traffic_become (s₁ : State P σ M) (idle : s.outbox p = []) (loc : s₁.loc = s.loc)
    (outbox : s₁.outbox = s.outbox) {input : Option (P × M)}
    (silent : ∀ a b, e.written a b = .none) (takes : ∀ a b,
      (e.taken a b).toList = if a = p then outTo input.toList b else [])
    (same : (s₁.become p n).view = s₁.view.become p next) :
    traffic (ts ++ [⟨s, e, s₁.become p n⟩]) (s₁.become p n) =
      (traffic ts s).step p input next := by
  have idle₁ : s₁.outbox p = [] := by rw [outbox, idle]
  obtain ⟨state, sends⟩ := State.become_congr idle₁ same
  have pending (a b : P) : s₁.pending a b = s.pending a b := by
    rw [State.pending, State.pending, loc, outbox]
  simp only [traffic, Traffic.step, Traffic.mk.injEq]
  constructor
  · funext a b
    rw [writtenAt_snoc, silent, State.pending_become idle₁, pending, state, sends]
    simp
  · funext a b
    rw [taken_snoc, takes]

/-- A step writes what is in a buffer, or it is a move. -/
theorem Step.traffic (h : Step code s e s') (ts : List (Transition P σ M)) :
    (s'.view = s.view ∧ traffic (ts ++ [⟨s, e, s'⟩]) s' = traffic ts s) ∨
      Move code s.view e s'.view ∧
        ∀ next, s'.view = (s.view.consume e.actor e.input).become e.actor next →
          traffic (ts ++ [⟨s, e, s'⟩]) s' = (traffic ts s).step e.actor e.input next := by
  rcases h.view with ⟨same, p, q, m, rfl⟩ | move
  · refine .inl ⟨same, ?_⟩
    cases h with
    | @send _ _ _ rest pending =>
      simp only [Network.traffic, Traffic.mk.injEq]
      constructor
      · funext a b
        rw [writtenAt_snoc]
        by_cases sender : a = p
        · subst sender
          by_cases receiver : q = b <;>
            simp [Event.written, State.pending, State.flush, pending, outTo_cons, receiver]
        · have other : ¬p = a := fun k => sender k.symm
          simp [Event.written, State.pending, State.flush, sender, other]
      · funext a b
        simp [taken_snoc, Event.taken]
  · refine .inr ⟨move, fun next same => ?_⟩
    have takes := fun a b => e.taken_eq a b
    cases h with
    | send pending =>
      cases move
    | act idle | pollEmpty idle | receiveEmpty idle =>
      exact traffic_become s idle rfl rfl (fun _ _ => rfl) takes same
    | poll idle _ _ head | receive idle _ head =>
      refine traffic_become (s.pop _ _) idle rfl rfl (fun _ _ => rfl) takes ?_
      rw [State.view_pop head]
      exact same

theorem Move.exists_next {v v' : View P σ M} (h : Move code v e v') :
    ∃ next, v' = (v.consume e.actor e.input).become e.actor next := by
  cases h with
  | act | poll | pollEmpty | receive | receiveEmpty => exact ⟨_, rfl⟩

theorem Step.sent_prefix (h : Step code s e s') (ts : List (Transition P σ M)) (a b : P) :
    (Network.traffic ts s).sent a b <+: (Network.traffic (ts ++ [⟨s, e, s'⟩]) s').sent a b := by
  rcases h.traffic ts with ⟨-, same⟩ | ⟨move, grown⟩
  · rw [same]
  · obtain ⟨next, after⟩ := move.exists_next
    rw [grown next after]
    exact List.prefix_append _ _

/-- What has been sent stays sent. -/
theorem Run.sent_prefix {ts' : List (Transition P σ M)} (run : Run code s ts' s')
    (ts : List (Transition P σ M)) (a b : P) :
    (traffic ts s).sent a b <+: (traffic (ts ++ ts') s').sent a b := by
  induction run with
  | nil => rw [List.append_nil]
  | snoc _ step ih =>
    rw [← List.append_assoc]
    exact ih.trans (step.sent_prefix _ a b)

/-- What has been sent has been taken, or it is in transit. -/
theorem Run.sent_eq (run : Run code s₀ ts s) {a b : P} (empty : s₀.chan a b = []) :
    ((Network.traffic ts s).sent a b).map Prod.snd = taken ts b a ++ s.transit a b := by
  rw [map_snd_sent, run.fifo empty, List.append_assoc]
  rfl

end Runs

/-! ## Clocks -/

section Clocks

variable {t : Traffic P σ M} {C : Finset (P × P)} {p : P} {input : Option (P × M)}
  {next : Next P σ M} {clockOf : σ → Nat} {timeOf : M → Nat} {v : View P σ M}

/-- The number of messages sent and taken over the channels of `C`. -/
def Traffic.handled (t : Traffic P σ M) (C : Finset (P × P)) : Nat :=
  ∑ c ∈ C, ((t.sent c.1 c.2).length + (t.taken c.2 c.1).length)

theorem sum_length_outTo (out : List (P × M)) (channels : ∀ x ∈ out, (p, x.1) ∈ C) :
    ∑ c ∈ C, (if c.1 = p then (outTo out c.2).length else 0) = out.length := by
  induction out with
  | nil => simp
  | cons x out ih =>
    have head (c : P × P) : (if c.1 = p then (outTo (x :: out) c.2).length else 0) =
        (if c = (p, x.1) then 1 else 0) + if c.1 = p then (outTo out c.2).length else 0 := by
      obtain ⟨a, b⟩ := c
      rw [outTo_cons]
      by_cases sender : a = p
      · by_cases receiver : x.1 = b
        · simp [sender, receiver, Nat.add_comm]
        · have other : ¬b = x.1 := fun k => receiver k.symm
          simp [sender, receiver, other]
      · simp [sender]
    rw [Finset.sum_congr rfl fun c _ => head c, Finset.sum_add_distrib, Finset.sum_ite_eq',
      if_pos (channels x List.mem_cons_self),
      ih fun y mem => channels y (List.mem_cons_of_mem _ mem), List.length_cons, Nat.add_comm]

theorem sum_length_taken (channels : ∀ x ∈ input, (x.1, p) ∈ C) :
    ∑ c ∈ C, (if c.2 = p then (outTo input.toList c.1).length else 0) = input.toList.length := by
  cases input with
  | none => simp
  | some x =>
    have one (c : P × P) : (if c.2 = p then (outTo (some x).toList c.1).length else 0) =
        if c = (x.1, p) then 1 else 0 := by
      obtain ⟨a, b⟩ := c
      rw [Option.toList_some, outTo_cons, outTo_nil]
      by_cases receiver : b = p
      · by_cases sender : x.1 = a
        · simp [sender, receiver]
        · have other : ¬a = x.1 := fun k => sender k.symm
          simp [sender, receiver, other]
      · simp [receiver]
    rw [Finset.sum_congr rfl fun c _ => one c, Finset.sum_ite_eq', if_pos (channels x rfl)]
    rfl

theorem Traffic.handled_step (sends : ∀ x ∈ next.2, (p, x.1) ∈ C)
    (takes : ∀ x ∈ input, (x.1, p) ∈ C) :
    (t.step p input next).handled C = t.handled C + (input.toList.length + next.2.length) := by
  have channel (c : P × P) :
      ((t.step p input next).sent c.1 c.2).length + ((t.step p input next).taken c.2 c.1).length =
        (t.sent c.1 c.2).length + (t.taken c.2 c.1).length +
          ((if c.2 = p then (outTo input.toList c.1).length else 0) +
            if c.1 = p then (outTo next.2 c.2).length else 0) := by
    simp only [Traffic.step, List.length_append, apply_ite List.length, List.length_map,
      List.length_nil]
    omega
  simp only [Traffic.handled, channel, Finset.sum_add_distrib, sum_length_taken takes,
    sum_length_outTo next.2 sends]

/-- A tick for every message taken or sent. -/
theorem Timed.step_handled (h : Timed clockOf timeOf v (t.handled C)) (offers : v.Offers p input)
    (sends : ∀ x ∈ next.2, (p, x.1) ∈ C) (takes : ∀ x ∈ input, (x.1, p) ∈ C)
    (ticked : Ticks clockOf timeOf (v.loc p) input next (input.toList.length + next.2.length)) :
    Timed clockOf timeOf ((v.consume p input).become p next)
      ((t.step p input next).handled C) := by
  rw [Traffic.handled_step sends takes]
  exact h.step offers ticked

end Clocks

end Distra.Network
