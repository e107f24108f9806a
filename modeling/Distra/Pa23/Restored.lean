import Distra.Network.History
import Distra.Pa23.Lost

/-!
# Runs that lose a `DONE`

A main loop that takes a `DONE` drops it, and that changes nothing in the control flow. So what
holds of the channels while every `DONE` is awaited holds of all runs, once the lost ones are put
back.
-/

namespace Distra.Pa23

open Network

variable {δ : Type} {cfg : BankConfig} {B : BankCode δ} {v w : BankView δ} {flight : Flight}

/-- The main loop does nothing with a `DONE`. -/
def BankCode.Drops (B : BankCode δ) : Prop :=
  ∀ p d t, ∃ d', B.childLoop p d ⟨.done, t⟩ = (.goesOn, d', [])

/-- The state `w` is `v` with the lost `DONE`s back in their channels. -/
structure Restored (cfg : BankConfig) (v w : BankView δ) : Prop where
  loc : w.loc = v.loc
  chan : ∀ a b, w.chan a b = v.chan a b ∨ (IsChild cfg.numChildren a ∧
    IsChild cfg.numChildren b ∧ a ≠ b ∧ v.chan a b = [] ∧ ∃ t, w.chan a b = [⟨.done, t⟩])

/-- The steps of process `p` in any run. -/
inductive Followed (cfg : BankConfig) (B : BankCode δ) (p : Nat) (st : Process δ) :
    Flight → Option (Nat × BankMessage) → ProcessNext δ → Flight → Prop
  | shaped {flight input next flight'} : Shaped cfg B p st flight input next flight' →
      Followed cfg B p st flight input next flight'
  | dropped {flight fr t} : p ≠ parentId → fr ≠ parentId → st.pc = .receiveAny fr →
      Followed cfg B p st flight (some (fr, ⟨.done, t⟩))
        (st.goTo (.receiveAny 0) (B.childLoop p st.data ⟨.done, t⟩).2) flight

section Step

variable {p : Nat} {input : Option (Nat × BankMessage)} {next : ProcessNext δ}

theorem Ready.offers (ready : Ready v p input) : v.Offers p input := by
  cases input with
  | none => trivial
  | some => exact ready

theorem Restored.ready (h : Restored cfg v w) (ready : Ready v p input) : Ready w p input := by
  cases input with
  | none => trivial
  | some x =>
    obtain ⟨rest, head⟩ := ready
    rcases h.chan x.1 p with same | ⟨-, -, -, empty, -⟩
    · exact ⟨rest, same.trans head⟩
    · rw [empty] at head
      cases head

/-- The sender of a `DONE` that is under way has sent all that it sends to another child. -/
theorem Shape.sentDone (h : Shape cfg v flight) {a b : Nat} (child : IsChild cfg.numChildren a)
    (bchild : IsChild cfg.numChildren b) (ne : a ≠ b) {m : BankMessage} (mem : m ∈ v.chan a b)
    (isDone : m.body = .done) : (v.loc a).pc.SentDone := by
  apply Pc.sentDone_of_sent child.ne_parent
  have listed : m.body.type ∈ typesIn v a b := List.mem_map_of_mem mem
  rw [(h.fits a child.2 b bchild.2 ne).eq, isDone] at listed
  have scripted : MessageType.done ∈ (script a b).take ((v.loc a).pc.sent a) := by
    refine List.mem_of_mem_drop ((List.mem_append.mp listed).resolve_right fun mem => ?_)
    cases flight with
    | none => cases mem
    | toSrc => cases (Flight.mem_toSrc mem).1
    | toDst => cases (Flight.mem_toDst mem).1
    | ack => cases (Flight.mem_ack mem).1
  by_contra early
  rw [script, if_neg child.ne_parent, if_neg bchild.ne_parent] at scripted
  have : (v.loc a).pc.sent a = 0 ∨ (v.loc a).pc.sent a = 1 := by omega
  rcases this with sent | sent <;> rw [sent] at scripted <;> simp at scripted

/-- What the message taken leaves of a channel is put back in the same places. -/
theorem Restored.consume (h : Restored cfg v w) (ready : Ready v p input) :
    Restored cfg (v.consume p input) (w.consume p input) := by
  have locs (u : BankView δ) : (u.consume p input).loc = u.loc := by
    cases input <;> rfl
  refine ⟨(locs w).trans (h.loc.trans (locs v).symm), fun a b => ?_⟩
  by_cases receiver : b = p
  · subst receiver
    have before := h.chan a b
    rw [ready.offers.chan_eq a, (h.ready ready).offers.chan_eq a] at before
    rcases before with same | ⟨achild, bchild, ne, empty, t, lost⟩
    · exact .inl (List.append_cancel_left same)
    · obtain ⟨none_, empty⟩ := List.append_eq_nil_iff.mp empty
      rw [none_, List.nil_append] at lost
      exact .inr ⟨achild, bchild, ne, empty, t, lost⟩
  · rw [View.consume_chan_ne v input receiver, View.consume_chan_ne w input receiver]
    exact h.chan a b

/-- Both go on in the same way, if nothing is sent where a `DONE` has been lost. -/
theorem Restored.become (h : Restored cfg v w)
    (silent : ∀ b, IsChild cfg.numChildren p → IsChild cfg.numChildren b → p ≠ b →
      (∃ t, w.chan p b = [⟨.done, t⟩]) → outTo next.2 b = []) :
    Restored cfg (v.become p next) (w.become p next) := by
  constructor
  · rw [View.become, View.become, h.loc]
  · intro a b
    have chan (u : BankView δ) : (u.become p next).chan a b =
        u.chan a b ++ if a = p then outTo next.2 b else [] :=
      View.consume_become_chan u p none next a b
    rw [chan, chan]
    rcases h.chan a b with same | ⟨achild, bchild, ne, empty, t, lost⟩
    · exact .inl (by rw [same])
    · refine .inr ⟨achild, bchild, ne, ?_⟩
      split
      next sender =>
        subst sender
        rw [silent b achild bchild ne ⟨t, lost⟩, List.append_nil, List.append_nil]
        exact ⟨empty, t, lost⟩
      next =>
        rw [List.append_nil, List.append_nil]
        exact ⟨empty, t, lost⟩

/-- A step that loses no `DONE`. -/
theorem Restored.step_orderly (lawful : B.Lawful) (h : Restored cfg v w)
    (shape : Shape cfg w flight) (le : p ≤ cfg.numChildren) (ready : Ready v p input)
    (orderly : Orderly (v.loc p) input) (step : Stepped cfg B p (v.loc p) input next) :
    ∃ w' flight', Followed cfg B p (v.loc p) flight input next flight' ∧
      Restored cfg ((v.consume p input).become p next) w' ∧ Shape cfg w' flight' := by
  have readyW := h.ready ready
  rw [← h.loc] at orderly step ⊢
  rcases step with local_ | ⟨⟨q, m⟩, rfl, fails, -⟩
  · obtain ⟨flight', shaped, after⟩ := shape.step lawful le readyW orderly local_
    refine ⟨_, flight', .shaped shaped, (h.consume ready).become ?_, after⟩
    rintro b child bchild ne ⟨t, lost⟩
    have mem : ⟨.done, t⟩ ∈ w.chan p b := by
      rw [View.consume_chan_ne w input (Ne.symm ne)] at lost
      rw [lost]
      exact List.mem_singleton_self _
    have sent := shape.sentDone child bchild ne mem rfl
    exact (local_.sentDone lawful child.ne_parent sent).2 b bchild.ne_parent
  · exact absurd fails (shape.not_fails le readyW)

/-- A step that loses one. -/
theorem Restored.step_dropped (drops : B.Drops) (h : Restored cfg v w) (shape : Shape cfg w flight)
    (le : p ≤ cfg.numChildren) {fr t : Nat} (ready : Ready v p (some (fr, ⟨.done, t⟩)))
    (pc : (v.loc p).pc = .receiveAny fr)
    (step : Stepped cfg B p (v.loc p) (some (fr, ⟨.done, t⟩)) next) :
    ∃ w' flight', Followed cfg B p (v.loc p) flight (some (fr, ⟨.done, t⟩)) next flight' ∧
      Restored cfg ((v.consume p (some (fr, ⟨.done, t⟩))).become p next) w' ∧
        Shape cfg w' flight' := by
  have role := shape.role p le
  rw [h.loc, pc] at role
  have child : p ≠ parentId := role.1
  have p_child : IsChild cfg.numChildren p := ⟨Nat.pos_of_ne_zero child, le⟩
  obtain ⟨rest, head⟩ := h.ready ready
  obtain ⟨fr_child, ne, -, -, last⟩ := shape.loop_done le child (h.loc ▸ pc) head rfl
  subst last
  obtain ⟨d', drop⟩ := drops p (v.loc p).data t
  have dropped : next =
      (v.loc p).goTo (.receiveAny 0) (B.childLoop p (v.loc p).data ⟨.done, t⟩).2 := by
    rcases step with local_ | ⟨_, eq, fails, -⟩
    · cases local_ with
      | goesOn _ _ loop => rw [loop]
      | breaks _ _ loop =>
        rw [drop] at loop
        cases loop
      | started pc' | done pc' | ack _ pc' | history _ pc' => cases pc.symm.trans pc'
    · cases eq
      cases fails with
      | started pc' | done pc' | ack _ pc' | history _ pc' => cases pc.symm.trans pc'
  have silent : next.2 = [] := by
    rw [dropped, drop]
    rfl
  have pc' : next.1.pc = .receiveAny 0 := by
    rw [dropped]
    rfl
  have lost : Restored cfg (v.consume p (some (fr, ⟨.done, t⟩))) (w.consume p none) := by
    refine ⟨h.loc, fun a b => ?_⟩
    have popped : (v.consume p (some (fr, ⟨.done, t⟩))).chan = v.chan.pop fr p := rfl
    rw [popped]
    by_cases here : a = fr ∧ b = p
    · obtain ⟨rfl, rfl⟩ := here
      obtain ⟨rest, head'⟩ := ready
      rcases h.chan a b with same | ⟨-, -, -, empty, -⟩
      · rw [Channels.pop_head, ← same, head]
        exact .inr ⟨fr_child, p_child, ne, rfl, t, head⟩
      · rw [empty] at head'
        cases head'
    · rw [Channels.pop_ne _ here]
      exact h.chan a b
  refine ⟨(w.consume p none).become p next, flight, ?_, lost.become ?_, ?_⟩
  · rw [dropped]
    exact .dropped child fr_child.ne_parent pc
  · exact fun b _ _ _ _ => by rw [silent]; rfl
  · apply shape.neutral le silent
    · rw [pc']
      exact ⟨child, Nat.zero_le _, child.symm⟩
    · rw [pc', h.loc, pc]
      rfl
    · intro a _ _
      rw [pc', h.loc, pc]
      rfl
    · intro parent
      exact absurd parent.symm child
    · simp [pc']
    · simp [pc']

theorem Restored.step (lawful : B.Lawful) (drops : B.Drops) (h : Restored cfg v w)
    (shape : Shape cfg w flight) (le : p ≤ cfg.numChildren) (ready : Ready v p input)
    (step : Stepped cfg B p (v.loc p) input next) :
    ∃ w' flight', Followed cfg B p (v.loc p) flight input next flight' ∧
      Restored cfg ((v.consume p input).become p next) w' ∧ Shape cfg w' flight' := by
  by_cases orderly : Orderly (v.loc p) input
  · exact h.step_orderly lawful shape le ready orderly step
  · cases input with
    | none => exact absurd trivial orderly
    | some x =>
      obtain ⟨fr, body, t⟩ := x
      simp only [Orderly, ne_eq, not_forall, not_not] at orderly
      obtain ⟨pc, rfl⟩ := orderly
      exact h.step_dropped drops shape le ready pc step

end Step

/-- The invariant rule for all runs. What is invariant may depend on the message under way and on
the channels with the lost `DONE`s in them. -/
theorem BankRun.invariant (lawful : B.Lawful) (drops : B.Drops) {J : BankView δ → Flight → Prop}
    (start : J (initialState cfg B).view .none)
    (keep : ∀ v w flight p input next flight', J v flight → Restored cfg v w → Shape cfg w flight →
      p ≤ cfg.numChildren → Ready v p input →
      Followed cfg B p (v.loc p) flight input next flight' →
      J ((v.consume p input).become p next) flight') (r : BankRun cfg B) :
    ∃ w flight, Restored cfg r.final.view w ∧ Shape cfg w flight ∧ J r.final.view flight := by
  obtain ⟨ts, s, run⟩ := r
  induction run with
  | nil => exact ⟨_, _, ⟨rfl, fun _ _ => .inl rfl⟩, shape_initial, start⟩
  | snoc _ step ih =>
    rcases step.view with ⟨same, -⟩ | move
    · rw [same]
      exact ih
    · obtain ⟨w, flight, restored, shape, inv⟩ := ih
      obtain ⟨le, ready, next, after, step⟩ := bank_move move
      obtain ⟨w', flight', followed, restored', shape'⟩ :=
        restored.step lawful drops shape le ready step
      rw [after]
      exact ⟨w', flight', restored', shape',
        keep _ _ _ _ _ _ _ inv restored shape le ready followed⟩

theorem BankRun.restored (lawful : B.Lawful) (drops : B.Drops) (r : BankRun cfg B) :
    ∃ w flight, Restored cfg r.final.view w ∧ Shape cfg w flight := by
  obtain ⟨w, flight, restored, shape, -⟩ :=
    r.invariant lawful drops (J := fun _ _ => True) trivial (by intros; trivial)
  exact ⟨w, flight, restored, shape⟩

/-- The invariant rule for what holds of the processes one by one. -/
theorem BankRun.local_invariant (lawful : B.Lawful) (drops : B.Drops)
    {K : Nat → Process δ → Prop} (start : ∀ p, K p (initialProcess cfg B p))
    (keep : ∀ p ≤ cfg.numChildren, ∀ st flight input next flight', K p st →
      Followed cfg B p st flight input next flight' → K p next.1)
    (r : BankRun cfg B) (p : Nat) : K p (r.final.loc p) := by
  obtain ⟨-, -, -, -, inv⟩ :=
    BankRun.invariant lawful drops (J := fun v _ => ∀ p, K p (v.loc p)) start
      (by
        intro v _ _ p input next _ inv _ _ le _ step a
        rw [View.consume_become_loc]
        split
        next actor =>
          subst actor
          exact keep a le _ _ _ _ _ (inv a) step
        next => exact inv a)
      r
  exact inv p

/-- What any step of a run does. -/
theorem BankRun.followed (lawful : B.Lawful) (drops : B.Drops) (r : BankRun cfg B)
    {t : Transition Nat (Process δ) BankMessage} (mem : t ∈ r.transitions) :
    (∃ p q m, t.event = .send p q m) ∨ ∃ flight next flight',
      Followed cfg B t.event.actor (t.before.loc t.event.actor) flight t.event.input next flight' ∧
        t.after.view =
          (t.before.view.consume t.event.actor t.event.input).become t.event.actor next := by
  obtain ⟨i, at_⟩ := List.getElem?_of_mem mem
  obtain ⟨run, step⟩ := r.run.upTo at_
  rcases step.view with ⟨-, sends⟩ | move
  · exact .inl sends
  · obtain ⟨w, flight, restored, shape, -⟩ :=
      BankRun.invariant lawful drops (J := fun _ _ => True) trivial (by intros; trivial)
        ⟨_, t.before, run⟩
    obtain ⟨le, ready, next, after, step⟩ := bank_move move
    obtain ⟨-, flight', followed, -⟩ := restored.step lawful drops shape le ready step
    exact .inr ⟨flight, next, flight', followed, after⟩

end Distra.Pa23
