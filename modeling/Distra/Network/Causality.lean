import Distra.Network.History

/-!
# Happens-before and logical clocks

The events of a run are its sends and its receives, named by their places in the run. The copies of
one multicast count as one event. A system of clocks that tick at every event, and that a message
pushes past its time stamp, respects the order of the events.
-/

namespace Distra.Network

variable {P σ M : Type} [DecidableEq P] {code : Code P σ M} {s₀ s s' : State P σ M}
  {ts : List (Transition P σ M)} {t u : Transition P σ M} {e : Event P M} {i j : Nat}

/-! ## The order of the events -/

def eventAt (ts : List (Transition P σ M)) (i : Nat) : Option (Event P M) := ts[i]?.map (·.event)

/-- A send or a receive. -/
def Event.Communicates : Event P M → Prop
  | .send _ _ _ | .take _ _ _ => True
  | _ => False

/-- Sends of one multicast: the process sends the same message twice, and between the two it only
sends more copies. -/
def Copies (ts : List (Transition P σ M)) (i j : Nat) : Prop :=
  ∃ p m, (∃ q, eventAt ts i = some (.send p q m)) ∧ (∃ q, eventAt ts j = some (.send p q m)) ∧
    ∀ k e, min i j < k → k < max i j → eventAt ts k = some e → e.actor = p →
      ∃ q, e = .send p q m

inductive HappensBefore (ts : List (Transition P σ M)) : Nat → Nat → Prop
  /-- Two events of one process. -/
  | order {i j e e'} : i < j → eventAt ts i = some e → eventAt ts j = some e' →
      e.Communicates → e'.Communicates → e.actor = e'.actor → ¬Copies ts i j →
      HappensBefore ts i j
  /-- A message, which is the `n`-th one written to its channel and the `n`-th one taken from it. -/
  | message {i j p q m m'} : eventAt ts i = some (.send p q m) →
      eventAt ts j = some (.take q p m') →
      (written (ts.take i) p q).length = (taken (ts.take j) q p).length → HappensBefore ts i j
  | copyLeft {i i' j} : Copies ts i i' → HappensBefore ts i' j → HappensBefore ts i j
  | copyRight {i j j'} : HappensBefore ts i j' → Copies ts j' j → HappensBefore ts i j
  | trans {i j k} : HappensBefore ts i j → HappensBefore ts j k → HappensBefore ts i k

omit [DecidableEq P] in
theorem eventAt_eq_some : eventAt ts i = some e ↔ ∃ t, ts[i]? = some t ∧ t.event = e :=
  Option.map_eq_some_iff

omit [DecidableEq P] in
theorem eventAt_snoc (at_ : eventAt (ts ++ [u]) i = some e) :
    eventAt ts i = some e ∨ i = ts.length ∧ u.event = e := by
  obtain ⟨t, at_, event⟩ := eventAt_eq_some.mp at_
  rcases getElem?_snoc at_ with ⟨at_, -⟩ | ⟨here, rfl⟩
  · exact .inl (eventAt_eq_some.mpr ⟨t, at_, event⟩)
  · exact .inr ⟨here, event⟩

/-! ## Messages -/

/-- A send only takes its message out of the buffer. -/
theorem Step.sends {p q : P} {m : M} (h : Step code s (.send p q m) s') :
    s'.loc = s.loc ∧ (q, m) ∈ s.outbox p ∧ ∀ x ∈ s'.outbox p, x ∈ s.outbox p := by
  cases h with
  | @send _ _ _ rest pending =>
    have left : (s.flush p q m rest).outbox p = rest := Function.update_self _ _ _
    rw [left, pending]
    exact ⟨rfl, List.mem_cons_self, fun x mem => List.mem_cons_of_mem _ mem⟩

theorem Step.frame (h : Step code s e s') {a : P} (ne : a ≠ e.actor) :
    s'.loc a = s.loc a ∧ s'.outbox a = s.outbox a := by
  cases h with
  | send => exact ⟨rfl, Function.update_of_ne ne _ _⟩
  | _ => exact ⟨Function.update_of_ne ne _ _, Function.update_of_ne ne _ _⟩

/-- A step that is no send, and what it puts into the buffer. -/
theorem Step.next (h : Step code s e s') (other : ∀ p q m, e ≠ .send p q m) :
    s'.view = (s.view.consume e.actor e.input).become e.actor
      (s'.loc e.actor, s'.outbox e.actor) := by
  have at_actor (s : State P σ M) (p : P) (next : Next P σ M) :
      ((s.become p next).loc p, (s.become p next).outbox p) = next :=
    Prod.ext (Function.update_self _ _ _) (Function.update_self _ _ _)
  cases h with
  | send => exact absurd rfl (other _ _ _)
  | act idle | pollEmpty idle | receiveEmpty idle =>
    simp only [Event.actor, at_actor, State.view_become idle]
    rfl
  | @poll p q _ _ _ _ _ idle _ _ head | @receive p q _ _ _ _ idle _ head =>
    have idle : (s.pop q p).outbox p = [] := idle
    simp only [Event.actor, at_actor, State.view_become idle, State.view_pop head]
    rfl

/-- The step as the view shows it. -/
theorem Step.next_of_view (h : Step code s e s') (other : ∀ p q m, e ≠ .send p q m)
    {next : Next P σ M}
    (after : s'.view = (s.view.consume e.actor e.input).become e.actor next) :
    s'.loc e.actor = next.1 ∧ ∀ x ∈ s'.outbox e.actor, x ∈ next.2 := by
  have eq := (h.next other).symm.trans after
  constructor
  · have loc := congrArg (fun v => v.loc e.actor) eq
    simp only [View.consume_become_loc, if_true] at loc
    exact loc
  · rintro ⟨b, m⟩ mem
    have chan := congrArg (fun v => v.chan e.actor b) eq
    simp only [View.consume_become_chan, if_true] at chan
    rw [← mem_outTo, ← List.append_cancel_left chan]
    exact mem_outTo.mpr mem

theorem Step.take_chan {p q : P} {m : M} (h : Step code s (.take p q m) s') :
    ∃ rest, s.chan q p = m :: rest := by
  cases h with
  | poll _ _ _ head => exact ⟨_, head⟩
  | receive _ _ head => exact ⟨_, head⟩

/-- What is written at a place of the run, counted from the first message of the channel. -/
theorem written_at {p q : P} {m : M} (event : eventAt ts i = some (.send p q m)) :
    (written ts p q)[(written (ts.take i) p q).length]? = some m := by
  obtain ⟨t, at_, sends⟩ := eventAt_eq_some.mp event
  obtain ⟨lt, rfl⟩ := List.getElem?_eq_some_iff.mp at_
  have split_ : written ts p q =
      written (ts.take i) p q ++ m :: written (ts.drop (i + 1)) p q := by
    conv_lhs => rw [← List.take_append_drop i ts, List.drop_eq_getElem_cons lt]
    rw [written, List.filterMap_append, List.filterMap_cons, sends, Event.written,
      if_pos ⟨rfl, rfl⟩]
    rfl
  rw [split_, List.getElem?_append_right (Nat.le_refl _), Nat.sub_self]
  rfl

/-- The message that is taken is the one that was written. -/
theorem Run.delivered (run : Run code s₀ ts s) {p q : P} {m m' : M} (empty : s₀.chan p q = [])
    (sent : eventAt ts i = some (.send p q m)) (received : eventAt ts j = some (.take q p m'))
    (count : (written (ts.take i) p q).length = (taken (ts.take j) q p).length) : m' = m := by
  have first := written_at sent
  obtain ⟨u, at_, takes⟩ := eventAt_eq_some.mp received
  obtain ⟨before, step⟩ := run.upTo at_
  rw [takes] at step
  obtain ⟨rest, head⟩ := step.take_chan
  have fifo := before.fifo empty
  have front : written ts p q = written (ts.take j) p q ++ written (ts.drop j) p q := by
    conv_lhs => rw [← List.take_append_drop j ts]
    exact List.filterMap_append
  rw [front, fifo, head, List.append_assoc, count,
    List.getElem?_append_right (Nat.le_refl _), Nat.sub_self] at first
  exact Option.some.inj first

/-! ## Clocks -/

/-- A clock for every process, a time stamp for every message, and the time at which a process
receives a message. -/
structure Clocks (σ M : Type) where
  clock : σ → Nat
  stamp : M → Nat
  received : σ → M → Nat

namespace Clocks

variable (C : Clocks σ M)

/-- The clock of the process right after an event. -/
def time (t : Transition P σ M) : Nat :=
  match t.event with
  | .take p _ m => C.received (t.before.loc p) m
  | .send p _ _ | .act p | .empty p => C.clock (t.after.loc p)

/-- The clock before a process goes on with its step, which may be by a receive. -/
def base (st : σ) : Option (P × M) → Nat
  | some x => C.received st x.2
  | none => C.clock st

/-- The clock ticks at every receive, past the time stamp of the message, and it ticks again before
the process sends copies of one message, which are stamped with it. -/
structure Ticks (st : σ) (input : Option (P × M)) (next : Next P σ M) : Prop where
  received : ∀ x ∈ input, C.clock st < C.received st x.2 ∧ C.stamp x.2 < C.received st x.2
  goesOn : C.base st input ≤ C.clock next.1
  sends : ∀ x ∈ next.2, C.base st input < C.clock next.1 ∧ C.stamp x.2 = C.clock next.1 ∧
    ∀ y ∈ next.2, y.2 = x.2

/-- What a process has in its buffer is stamped with its clock. -/
def Stamped (s : State P σ M) : Prop :=
  ∀ p, ∀ x ∈ s.outbox p, C.stamp x.2 = C.clock (s.loc p) ∧ ∀ y ∈ s.outbox p, y.2 = x.2

/-- The step is a send, or it ticks. -/
def StepTicks (s : State P σ M) (e : Event P M) (s' : State P σ M) : Prop :=
  (∃ p q m, e = .send p q m) ∨
    C.Ticks (s.loc e.actor) e.input (s'.loc e.actor, s'.outbox e.actor)

/-- All steps of a run tick. -/
def Ticking (ts : List (Transition P σ M)) : Prop :=
  ∀ t ∈ ts, C.StepTicks t.before t.event t.after

variable {C} {st : σ} {input : Option (P × M)} {next : Next P σ M}

omit [DecidableEq P] in
theorem Ticks.clock_le_base (h : C.Ticks st input next) : C.clock st ≤ C.base st input := by
  cases input with
  | none => exact Nat.le_refl _
  | some x => exact Nat.le_of_lt (h.received x rfl).1

omit [DecidableEq P] in
/-- A process that has something to send has ticked. -/
theorem Ticks.base_lt (h : C.Ticks st input next) (busy : next.2 ≠ []) :
    C.base st input < C.clock next.1 := by
  obtain ⟨x, mem⟩ := List.exists_mem_of_ne_nil _ busy
  exact (h.sends x mem).1

omit [DecidableEq P] in
theorem Ticks.mono (h : C.Ticks st input next) {next' : Next P σ M} (same : next'.1 = next.1)
    (sub : ∀ x ∈ next'.2, x ∈ next.2) : C.Ticks st input next' := by
  refine ⟨h.received, same ▸ h.goesOn, fun x mem => ?_⟩
  obtain ⟨lt, stamp, copies⟩ := h.sends x (sub x mem)
  rw [same]
  exact ⟨lt, stamp, fun y mem => copies y (sub y mem)⟩

theorem Stamped.step (h : C.Stamped s) (step : Step code s e s') (ticks : C.StepTicks s e s') :
    C.Stamped s' := by
  intro a x mem
  by_cases actor : a = e.actor
  · subst actor
    rcases ticks with ⟨p, q, m, rfl⟩ | ticks
    · obtain ⟨loc, -, kept⟩ := step.sends
      obtain ⟨stamp, same⟩ := h p x (kept x mem)
      rw [loc]
      exact ⟨stamp, fun y mem => same y (kept y mem)⟩
    · exact (ticks.sends x mem).2
  · obtain ⟨loc, outbox⟩ := step.frame actor
    rw [outbox] at mem ⊢
    rw [loc]
    exact h a x mem

/-- Since the send at place `i`, its process has only sent more copies, and it goes on with them. -/
def Copying (ts : List (Transition P σ M)) (i : Nat) (t : Transition P σ M) (s : State P σ M) :
    Prop :=
  ∃ p q m, t.event = .send p q m ∧
    (∀ k e, i < k → eventAt ts k = some e → e.actor = p → ∃ q, e = .send p q m) ∧
    ∀ x ∈ s.outbox p, x.2 = m

/-- The clock does not go back after the event at place `i`, and it is past it when the process
sends anything but copies. -/
structure Later (C : Clocks σ M) (ts : List (Transition P σ M)) (i : Nat) (t : Transition P σ M)
    (s : State P σ M) : Prop where
  le : C.time t ≤ C.clock (s.loc t.event.actor)
  lt : s.outbox t.event.actor ≠ [] →
    C.time t < C.clock (s.loc t.event.actor) ∨ Copying ts i t s

theorem Copying.snoc (h : Copying ts i t s) (step : Step code s e s')
    (same : e.actor = t.event.actor → ∃ p q m, e = .send p q m) :
    Copying (ts ++ [⟨s, e, s'⟩]) i t s' := by
  obtain ⟨p, q, m, event, only, copies⟩ := h
  rw [event] at same
  have step_copies : (e.actor = p → ∃ q, e = .send p q m) ∧
      ∀ x ∈ s'.outbox p, x ∈ s.outbox p := by
    by_cases actor : e.actor = p
    · obtain ⟨p', q', m', rfl⟩ := same actor
      obtain rfl : p' = p := actor
      obtain ⟨-, pending, kept⟩ := step.sends
      obtain rfl : m' = m := copies (q', m') pending
      exact ⟨fun _ => ⟨q', rfl⟩, kept⟩
    · rw [(step.frame (Ne.symm actor)).2]
      exact ⟨fun same => absurd same actor, fun _ mem => mem⟩
  refine ⟨p, q, m, event, fun k e' after at_ by_ => ?_, fun x mem => copies x (step_copies.2 x mem)⟩
  rcases eventAt_snoc at_ with at_ | ⟨-, rfl⟩
  · exact only k e' after at_ by_
  · exact step_copies.1 by_

theorem Later.step (h : C.Later ts i t s) (step : Step code s e s') (ticks : C.StepTicks s e s') :
    C.Later (ts ++ [⟨s, e, s'⟩]) i t s' := by
  have lt (loc : s'.loc t.event.actor = s.loc t.event.actor)
      (busy : s.outbox t.event.actor ≠ [])
      (same : e.actor = t.event.actor → ∃ p q m, e = .send p q m) :
      C.time t < C.clock (s'.loc t.event.actor) ∨ Copying (ts ++ [⟨s, e, s'⟩]) i t s' := by
    rw [loc]
    exact (h.lt busy).imp id fun copying => copying.snoc step same
  by_cases actor : e.actor = t.event.actor
  · rcases ticks with sends | ticks
    · obtain ⟨p, q, m, rfl⟩ := sends
      obtain ⟨loc, pending, -⟩ := step.sends
      obtain rfl : p = t.event.actor := actor
      exact ⟨loc ▸ h.le, fun _ =>
        lt (congrFun loc _) (List.ne_nil_of_mem pending) fun _ => ⟨_, q, m, rfl⟩⟩
    · rw [actor] at ticks
      have before := Nat.le_trans h.le ticks.clock_le_base
      exact ⟨Nat.le_trans before ticks.goesOn,
        fun busy => .inl (Nat.lt_of_le_of_lt before (ticks.base_lt busy))⟩
  · obtain ⟨loc, outbox⟩ := step.frame (Ne.symm actor)
    refine ⟨loc ▸ h.le, fun busy => lt loc ?_ fun same => absurd same actor⟩
    rw [outbox] at busy
    exact busy

/-- Right after the event itself. -/
theorem Later.start (stamped : C.Stamped s) (step : Step code s e s')
    (ticks : C.StepTicks s e s') (event : e.Communicates) :
    C.Later (ts ++ [⟨s, e, s'⟩]) ts.length ⟨s, e, s'⟩ s' := by
  cases e with
  | send p q m =>
    obtain ⟨-, pending, kept⟩ := step.sends
    refine ⟨Nat.le_refl _, fun _ => .inr ⟨p, q, m, rfl, fun k e' after at_ => ?_, fun x mem => ?_⟩⟩
    · rcases eventAt_snoc at_ with at_ | ⟨here, -⟩
      · obtain ⟨t, at_, -⟩ := eventAt_eq_some.mp at_
        exact absurd (List.getElem?_eq_some_iff.mp at_).1 (Nat.not_lt.mpr (Nat.le_of_lt after))
      · exact absurd here (Nat.ne_of_gt after)
    · exact (stamped p (q, m) pending).2 x (kept x mem)
  | take p q m =>
    have ticks := ticks.resolve_left nofun
    exact ⟨ticks.goesOn, fun busy => .inl (ticks.base_lt busy)⟩
  | act | empty => exact event.elim

/-- What is known after every event of a run. -/
theorem later (run : Run code s₀ ts s) (idle : ∀ p, s₀.outbox p = []) (ticking : C.Ticking ts) :
    C.Stamped s ∧ ∀ i t, ts[i]? = some t → t.event.Communicates → C.Later ts i t s := by
  induction run with
  | nil =>
    refine ⟨fun p x mem => ?_, fun i t at_ => ?_⟩
    · rw [idle] at mem
      cases mem
    · cases at_
  | snoc run step ih =>
    obtain ⟨stamped, later⟩ := ih fun t mem => ticking t (List.mem_append_left _ mem)
    have ticks := ticking _ (List.mem_append_right _ (List.mem_singleton_self _))
    refine ⟨stamped.step step ticks, fun i t at_ event => ?_⟩
    rcases getElem?_snoc at_ with ⟨at_, -⟩ | ⟨rfl, rfl⟩
    · exact (later i t at_ event).step step ticks
    · exact Later.start stamped step ticks event

section Edges

variable (run : Run code s₀ ts s) (idle : ∀ p, s₀.outbox p = []) (ticking : C.Ticking ts)
include run idle ticking

/-- Up to a step of the run. -/
theorem later_upTo (at_ : ts[j]? = some u) :
    C.Stamped u.before ∧ C.StepTicks u.before u.event u.after ∧
      ∀ i t, i < j → ts[i]? = some t → t.event.Communicates →
        C.Later (ts.take j) i t u.before := by
  obtain ⟨stamped, later⟩ := later (C := C) (run.upTo at_).1 idle fun t mem =>
    ticking t (List.mem_of_mem_take mem)
  refine ⟨stamped, ticking u (List.mem_of_getElem? at_), fun i t lt at_ => later i t ?_⟩
  rw [List.getElem?_take_of_lt lt]
  exact at_

/-- Every message is stamped with the time of its send. -/
theorem stamp_eq {p q : P} {m : M} (at_ : ts[i]? = some t) (event : t.event = .send p q m) :
    C.stamp m = C.time t := by
  obtain ⟨stamped, -⟩ := later_upTo run idle ticking at_
  have step := (run.upTo at_).2
  rw [event] at step
  obtain ⟨loc, pending, -⟩ := step.sends
  have time : C.time t = C.clock (t.after.loc p) := by
    rw [Clocks.time, event]
  rw [time, loc]
  exact (stamped p (q, m) pending).1

/-- Two events of one process. -/
theorem order_lt (lt : i < j) (first : ts[i]? = some t) (second : ts[j]? = some u)
    (event : t.event.Communicates) (event' : u.event.Communicates)
    (same : t.event.actor = u.event.actor) (differ : ¬Copies ts i j) : C.time t < C.time u := by
  obtain ⟨-, ticks, later⟩ := later_upTo run idle ticking second
  obtain ⟨le, after⟩ := later i t lt first event
  rw [same] at le after
  cases actor : u.event with
  | send p q m =>
    have step := (run.upTo second).2
    rw [actor] at step le after
    obtain ⟨loc, pending, -⟩ := step.sends
    have time : C.time u = C.clock (u.before.loc p) := by
      rw [Clocks.time, actor, loc]
    rw [time]
    rcases after (List.ne_nil_of_mem pending) with past | ⟨p', q', m', sends, only, copies⟩
    · exact past
    · -- The two are copies, which the assumption excludes.
      rw [sends, actor] at same
      obtain rfl : p' = p := same
      obtain rfl : m = m' := copies (q, m) pending
      refine absurd ⟨p', m, ⟨q', ?_⟩, ⟨q, ?_⟩, fun k e above below at_ by_ => ?_⟩ differ
      · exact eventAt_eq_some.mpr ⟨t, first, sends⟩
      · exact eventAt_eq_some.mpr ⟨u, second, actor⟩
      · rw [Nat.min_eq_left (Nat.le_of_lt lt)] at above
        rw [Nat.max_eq_right (Nat.le_of_lt lt)] at below
        refine only k e above ?_ by_
        rw [eventAt, List.getElem?_take_of_lt below]
        exact at_
  | take p q m =>
    rw [actor] at ticks le
    have ticks := (ticks.resolve_left nofun).received (q, m) rfl
    have time : C.time u = C.received (u.before.loc p) m := by
      rw [Clocks.time, actor]
    rw [time]
    exact Nat.lt_of_le_of_lt le ticks.1
  | act | empty =>
    rw [actor] at event'
    exact event'.elim

/-- A message and its receive. -/
theorem message_lt {p q : P} {m m' : M} (empty : s₀.chan p q = []) (first : ts[i]? = some t)
    (second : ts[j]? = some u) (sends : t.event = .send p q m) (takes : u.event = .take q p m')
    (count : (written (ts.take i) p q).length = (taken (ts.take j) q p).length) :
    C.time t < C.time u := by
  obtain ⟨-, ticks, -⟩ := later_upTo run idle ticking second
  obtain rfl : m' = m :=
    run.delivered empty (eventAt_eq_some.mpr ⟨t, first, sends⟩)
      (eventAt_eq_some.mpr ⟨u, second, takes⟩) count
  have stamp := stamp_eq run idle ticking first sends
  rw [takes] at ticks
  have ticks := (ticks.resolve_left nofun).received (p, m') rfl
  have time : C.time u = C.received (u.before.loc q) m' := by
    rw [Clocks.time, takes]
  rw [time, ← stamp]
  exact ticks.2

/-- All copies of one multicast have the same time. -/
theorem time_eq_of_copies (h : Copies ts i j) :
    ∃ t u, ts[i]? = some t ∧ ts[j]? = some u ∧ C.time t = C.time u := by
  obtain ⟨p, m, ⟨q, sent⟩, ⟨q', sent'⟩, -⟩ := h
  obtain ⟨t, first, event⟩ := eventAt_eq_some.mp sent
  obtain ⟨u, second, event'⟩ := eventAt_eq_some.mp sent'
  exact ⟨t, u, first, second, (stamp_eq run idle ticking first event).symm.trans
    (stamp_eq run idle ticking second event')⟩

/-- The clock condition. -/
theorem time_lt_of_happensBefore (empty : ∀ p q, s₀.chan p q = []) (h : HappensBefore ts i j) :
    ∃ t u, ts[i]? = some t ∧ ts[j]? = some u ∧ C.time t < C.time u := by
  induction h with
  | order lt first second event event' same differ =>
    obtain ⟨t, at_i, rfl⟩ := eventAt_eq_some.mp first
    obtain ⟨u, at_j, rfl⟩ := eventAt_eq_some.mp second
    exact ⟨t, u, at_i, at_j, order_lt run idle ticking lt at_i at_j event event' same differ⟩
  | message sent received count =>
    obtain ⟨t, first, sends⟩ := eventAt_eq_some.mp sent
    obtain ⟨u, second, takes⟩ := eventAt_eq_some.mp received
    exact ⟨t, u, first, second,
      message_lt run idle ticking (empty _ _) first second sends takes count⟩
  | copyLeft copies _ ih =>
    obtain ⟨t, t', first, mid, eq⟩ := time_eq_of_copies run idle ticking copies
    obtain ⟨v, u, mid', second, lt⟩ := ih
    obtain rfl := Option.some.inj (mid.symm.trans mid')
    exact ⟨t, u, first, second, eq ▸ lt⟩
  | copyRight _ copies ih =>
    obtain ⟨t, u', first, mid, lt⟩ := ih
    obtain ⟨v, u, mid', second, eq⟩ := time_eq_of_copies run idle ticking copies
    obtain rfl := Option.some.inj (mid.symm.trans mid')
    exact ⟨t, u, first, second, eq ▸ lt⟩
  | trans _ _ ih ih' =>
    obtain ⟨t, v, first, mid, lt⟩ := ih
    obtain ⟨v', u, mid', second, lt'⟩ := ih'
    obtain rfl := Option.some.inj (mid.symm.trans mid')
    exact ⟨t, u, first, second, Nat.lt_trans lt lt'⟩

end Edges

end Clocks

end Distra.Network
