import Distra.Network.Process

/-!
# What the processes of a run have written and taken

Over a whole run every channel is a reliable FIFO channel: what has been written to it is what has
been taken from it, followed by what it holds.
-/

namespace Distra.Network

variable {P σ M : Type} [DecidableEq P]

/-- The message that an event writes to the channel from `p` to `q`. -/
def Event.written (p q : P) : Event P M → Option M
  | .send p' q' m => if p' = p ∧ q' = q then some m else none
  | _ => none

/-- The message that `p` takes from `q` in an event. -/
def Event.taken (p q : P) : Event P M → Option M
  | .take p' q' m => if p' = p ∧ q' = q then some m else none
  | _ => none

def written (ts : List (Transition P σ M)) (p q : P) : List M :=
  ts.filterMap (fun t => t.event.written p q)

def taken (ts : List (Transition P σ M)) (p q : P) : List M :=
  ts.filterMap (fun t => t.event.taken p q)

/-- The message taken, if any, is the head of its channel. -/
def View.Offers (v : View P σ M) (p : P) : Option (P × M) → Prop
  | none => True
  | some (q, m) => ∃ rest, v.chan q p = m :: rest

/-- The message taken leaves its channel. -/
theorem View.Offers.chan_eq {v : View P σ M} {p : P} {input : Option (P × M)}
    (offers : v.Offers p input) (b : P) :
    v.chan b p = outTo input.toList b ++ (v.consume p input).chan b p := by
  cases input with
  | none => rfl
  | some x =>
    obtain ⟨q, m⟩ := x
    obtain ⟨rest, head⟩ := offers
    by_cases source : b = q
    · subst source
      simp [View.consume, View.pop, Channels.pop_head, head, outTo_cons]
    · have other : ¬q = b := fun k => source k.symm
      simp [View.consume, View.pop, Channels.pop_ne, source, outTo_cons, other]

theorem View.Offers.mem_of_consume {v : View P σ M} {p : P} {input : Option (P × M)}
    (offers : v.Offers p input) {a b : P} {m : M} (mem : m ∈ (v.consume p input).chan a b) :
    m ∈ v.chan a b := by
  by_cases receiver : b = p
  · subst receiver
    rw [offers.chan_eq a]
    exact List.mem_append_right _ mem
  · rwa [View.consume_chan_ne v input receiver] at mem

section Fifo

variable {code : Code P σ M} {s₀ s s' : State P σ M} {e : Event P M}
  {ts ts' : List (Transition P σ M)}

theorem State.pop_chan {q p : P} {m : M} {rest : List M} (head : s.chan q p = m :: rest) (a b : P) :
    (if p = b ∧ q = a then [m] else []) ++ (s.pop q p).chan a b = s.chan a b := by
  by_cases eq : a = q ∧ b = p
  · obtain ⟨rfl, rfl⟩ := eq
    simp [State.pop, Channels.pop_head, head]
  · have other : ¬(p = b ∧ q = a) := fun k => eq ⟨k.2.symm, k.1.symm⟩
    rw [if_neg other]
    exact Channels.pop_ne _ eq

/-- One step of one channel. -/
theorem Step.fifo (h : Step code s e s') (a b : P) :
    (e.taken b a).toList ++ s'.chan a b = s.chan a b ++ (e.written a b).toList := by
  cases h with
  | @send p q m rest pending =>
    by_cases sender : a = p
    · subst sender
      by_cases receiver : q = b <;>
        simp [Event.taken, Event.written, State.flush, outTo_cons, receiver]
    · have other : ¬p = a := fun k => sender k.symm
      simp [Event.taken, Event.written, State.flush, Channels.post_ne _ sender, other]
  | act | pollEmpty | receiveEmpty => exact (List.append_nil _).symm
  | @poll p q m rest _ _ _ _ _ _ head | @receive p q m rest _ _ _ _ head =>
    have popped := State.pop_chan head a b
    simp only [Event.taken, Event.written, State.become, Option.toList_none, List.append_nil]
    split at popped
    next eq =>
      rw [if_pos eq]
      exact popped
    next eq =>
      rw [if_neg eq]
      exact popped

theorem written_snoc (t : Transition P σ M) (a b : P) :
    written (ts ++ [t]) a b = written ts a b ++ (t.event.written a b).toList := by
  simp only [written, List.filterMap_append]
  cases h : t.event.written a b <;> simp [h]

theorem taken_snoc (t : Transition P σ M) (a b : P) :
    taken (ts ++ [t]) a b = taken ts a b ++ (t.event.taken a b).toList := by
  simp only [taken, List.filterMap_append]
  cases h : t.event.taken a b <;> simp [h]

/-- What `a` has written to `b` is what `b` has taken from `a` and what is still in the channel. -/
theorem Run.fifo (run : Run code s₀ ts s) {a b : P} (empty : s₀.chan a b = []) :
    written ts a b = taken ts b a ++ s.chan a b := by
  induction run with
  | nil =>
    rw [empty]
    rfl
  | snoc _ step ih =>
    rw [written_snoc, taken_snoc, ih, List.append_assoc, List.append_assoc, step.fifo a b]

/-- The invariant rule for runs, with what every process has taken so far. -/
theorem Run.invariant_taken {I : View P σ M → (P → P → List M) → Prop}
    (start : I s₀.view (fun _ _ => []))
    (keep : ∀ v e v' took, I v took → Move code v e v' →
      I v' (fun a b => took a b ++ (e.taken a b).toList))
    (run : Run code s₀ ts s) : I s.view (taken ts) := by
  induction run with
  | nil => exact start
  | @snoc ts s e s' _ step ih =>
    have grow : taken (ts ++ [⟨s, e, s'⟩]) = fun a b => taken ts a b ++ (e.taken a b).toList := by
      funext a b
      exact taken_snoc _ a b
    rw [grow]
    rcases step.view with ⟨same, p, q, m, rfl⟩ | move
    · simpa [same, Event.taken] using ih
    · exact keep _ _ _ _ ih move

theorem Event.taken_eq (e : Event P M) (a b : P) :
    (e.taken a b).toList = if a = e.actor then outTo e.input.toList b else [] := by
  cases e with
  | take p q m =>
    by_cases actor : a = p
    · subst actor
      by_cases source : q = b <;>
        simp [Event.taken, Event.actor, Event.input, outTo_cons, source]
    · have other : ¬p = a := fun k => actor k.symm
      simp [Event.taken, Event.actor, actor, other]
  | _ => simp [Event.taken, Event.input]

theorem Run.trans (run : Run code s₀ ts s) (run' : Run code s ts' s') :
    Run code s₀ (ts ++ ts') s' := by
  induction run' with
  | nil => exact (List.append_nil ts).symm ▸ run
  | snoc _ step ih =>
    rw [← List.append_assoc]
    exact ih.snoc step

/-- What is written was in transit. -/
theorem Step.send_transit {p q : P} {m : M} (h : Step code s (.send p q m) s') :
    m ∈ s.transit p q := by
  cases h with
  | send pending =>
    rw [State.transit, pending, outTo_cons, if_pos rfl]
    simp

omit [DecidableEq P] in
/-- A transition of a run with one more step. -/
theorem getElem?_snoc {t u : Transition P σ M} {i : Nat} (at_ : (ts ++ [u])[i]? = some t) :
    ts[i]? = some t ∧ i < ts.length ∨ i = ts.length ∧ u = t := by
  rcases Nat.lt_trichotomy i ts.length with lt | rfl | gt
  · rw [List.getElem?_append_left lt] at at_
    exact .inl ⟨at_, lt⟩
  · rw [List.getElem?_concat_length] at at_
    exact .inr ⟨rfl, Option.some.inj at_⟩
  · have bound := (List.getElem?_eq_some_iff.mp at_).1
    rw [List.length_append, List.length_singleton] at bound
    omega

/-- A run up to one of its steps. -/
theorem Run.upTo (run : Run code s₀ ts s) {t : Transition P σ M} {i : Nat}
    (at_ : ts[i]? = some t) :
    Run code s₀ (ts.take i) t.before ∧ Step code t.before t.event t.after := by
  induction run with
  | nil => cases at_
  | snoc run step ih =>
    rcases getElem?_snoc at_ with ⟨at_, lt⟩ | ⟨rfl, rfl⟩
    · rw [List.take_append_of_le_length (Nat.le_of_lt lt)]
      exact ih at_
    · rw [List.take_left]
      exact ⟨run, step⟩

end Fifo

end Distra.Network
