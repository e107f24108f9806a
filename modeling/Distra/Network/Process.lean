import Distra.Network.Channels

/-!
# Processes that talk over FIFO channels

A process is a function from its local state to its next communication, together with what it
does with the result. The sends that a piece of code makes between two receives are kept in an
output buffer. They leave it one at a time, in order, before the process does anything else, so
that the steps of other processes may come between any two of them.

`Step` is the interleaving semantics of such processes. In `Move` the buffered sends take place
at once. `Step.view` connects the two: what is in transit counts the buffer as part of the channel.
-/

namespace Distra.Network

variable {P σ M O : Type} [DecidableEq P]

/-- A local state and the sends made on the way to it. -/
abbrev Next (P σ M : Type) := σ × List (P × M)

/-- The next communication of a process. -/
inductive Action (P σ M : Type) where
  /-- Local work, no message taken. -/
  | act (next : Next P σ M)
  /-- Scan several channels, and take the head of one of those that hold a message. -/
  | poll (sources : List P) (onMessage : P → M → Next P σ M) (onEmpty : Next P σ M)
  /-- Look at one channel. -/
  | receive (source : P) (onMessage : M → Next P σ M) (onEmpty : Next P σ M)
  | stop

/-- The process sends nothing, whatever it receives. -/
def Action.Silent : Action P σ M → Prop
  | .act next => next.2 = []
  | .poll _ onMessage onEmpty => (∀ q m, (onMessage q m).2 = []) ∧ onEmpty.2 = []
  | .receive _ onMessage onEmpty => (∀ m, (onMessage m).2 = []) ∧ onEmpty.2 = []
  | .stop => True

abbrev Code (P σ M : Type) := P → σ → Action P σ M

inductive Event (P M : Type) where
  | act (p : P)
  | send (p q : P) (m : M)
  | take (p q : P) (m : M)
  | empty (p : P)
  deriving DecidableEq

/-- The process that takes the step. -/
def Event.actor : Event P M → P
  | .act p | .send p _ _ | .take p _ _ | .empty p => p

/-- The message that a step takes, with the process it comes from. -/
def Event.input : Event P M → Option (P × M)
  | .take _ q m => some (q, m)
  | _ => none

structure State (P σ M : Type) where
  loc : P → σ
  outbox : P → List (P × M)
  chan : Channels P M

def State.initial (loc : P → σ) : State P σ M := ⟨loc, fun _ => [], fun _ _ => []⟩

/-- `p` moves to its next local state and starts to send. -/
def State.become (s : State P σ M) (p : P) (next : Next P σ M) : State P σ M :=
  ⟨Function.update s.loc p next.1, Function.update s.outbox p next.2, s.chan⟩

theorem State.become_self {s : State P σ M} {p : P} (idle : s.outbox p = []) :
    s.become p (s.loc p, []) = s := by
  rw [State.become, Function.update_eq_self, ← idle, Function.update_eq_self]

def State.pop (s : State P σ M) (q p : P) : State P σ M := { s with chan := s.chan.pop q p }

/-- Write the next buffered message of `p` to the channel towards `q`. -/
def State.flush (s : State P σ M) (p q : P) (m : M) (rest : List (P × M)) : State P σ M :=
  ⟨s.loc, Function.update s.outbox p rest, s.chan.post p (outTo [(q, m)])⟩

/-- One step of one process. The scan of `poll` is not atomic: a message may arrive on a channel
that it has already passed, so it can come back empty-handed at any time. -/
inductive Step (code : Code P σ M) : State P σ M → Event P M → State P σ M → Prop
  | send {s p q m rest} : s.outbox p = (q, m) :: rest →
      Step code s (.send p q m) (s.flush p q m rest)
  | act {s p next} : s.outbox p = [] → code p (s.loc p) = .act next →
      Step code s (.act p) (s.become p next)
  | poll {s p q m rest sources onMessage onEmpty} : s.outbox p = [] →
      code p (s.loc p) = .poll sources onMessage onEmpty → q ∈ sources →
      s.chan q p = m :: rest →
      Step code s (.take p q m) ((s.pop q p).become p (onMessage q m))
  | pollEmpty {s p sources onMessage onEmpty} : s.outbox p = [] →
      code p (s.loc p) = .poll sources onMessage onEmpty →
      Step code s (.empty p) (s.become p onEmpty)
  | receive {s p q m rest onMessage onEmpty} : s.outbox p = [] →
      code p (s.loc p) = .receive q onMessage onEmpty → s.chan q p = m :: rest →
      Step code s (.take p q m) ((s.pop q p).become p (onMessage m))
  | receiveEmpty {s p q onMessage onEmpty} : s.outbox p = [] →
      code p (s.loc p) = .receive q onMessage onEmpty → s.chan q p = [] →
      Step code s (.empty p) (s.become p onEmpty)

/-- A message that is taken was in its channel. -/
theorem Step.input_mem {code : Code P σ M} {s s' : State P σ M} {e : Event P M}
    (h : Step code s e s') {q : P} {m : M} (input : e.input = some (q, m)) :
    s.outbox e.actor = [] ∧ m ∈ s.chan q e.actor := by
  cases h with
  | send | act | pollEmpty | receiveEmpty => cases input
  | poll idle _ _ head =>
    cases input
    exact ⟨idle, head ▸ List.mem_cons_self⟩
  | receive idle _ head =>
    cases input
    exact ⟨idle, head ▸ List.mem_cons_self⟩

structure Transition (P σ M : Type) where
  before : State P σ M
  event : Event P M
  after : State P σ M

/-- Finite runs, with every transition taken. -/
inductive Run (code : Code P σ M) (s₀ : State P σ M) :
    List (Transition P σ M) → State P σ M → Prop
  | nil : Run code s₀ [] s₀
  | snoc {ts s e s'} : Run code s₀ ts s → Step code s e s' →
      Run code s₀ (ts ++ [⟨s, e, s'⟩]) s'

/-- A run as a value: it cannot be built without its derivation. -/
structure Execution (code : Code P σ M) (s₀ : State P σ M) where
  transitions : List (Transition P σ M)
  final : State P σ M
  run : Run code s₀ transitions final

/-! ## Buffered sends at once -/

/-- Local states and what is in transit. -/
structure View (P σ M : Type) where
  loc : P → σ
  chan : Channels P M

def View.become (v : View P σ M) (p : P) (next : Next P σ M) : View P σ M :=
  ⟨Function.update v.loc p next.1, v.chan.post p (outTo next.2)⟩

def View.pop (v : View P σ M) (q p : P) : View P σ M := { v with chan := v.chan.pop q p }

/-- Take the message, if any, off its channel. -/
def View.consume (v : View P σ M) (p : P) : Option (P × M) → View P σ M
  | none => v
  | some (q, _) => v.pop q p

section Consume

variable (v : View P σ M) (p : P) (input : Option (P × M)) (next : Next P σ M)

/-- The state after a step of `p`, channel by channel. -/
theorem View.consume_become_chan (a b : P) :
    ((v.consume p input).become p next).chan a b =
      (v.consume p input).chan a b ++ (if a = p then outTo next.2 b else []) := by
  by_cases h : a = p
  · simp [View.become, h]
  · simp [View.become, Channels.post_ne, h]

theorem View.consume_become_loc (a : P) :
    ((v.consume p input).become p next).loc a = if a = p then next.1 else v.loc a := by
  have : (v.consume p input).loc = v.loc := by
    cases input <;> rfl
  simp [View.become, this, Function.update_apply]

theorem View.consume_chan_ne {p a b : P} (ne : b ≠ p) :
    (v.consume p input).chan a b = v.chan a b := by
  cases input with
  | none => rfl
  | some x => exact Channels.pop_ne _ (fun h => ne h.2)

end Consume

inductive Move (code : Code P σ M) : View P σ M → Event P M → View P σ M → Prop
  | act {v p next} : code p (v.loc p) = .act next → Move code v (.act p) (v.become p next)
  | poll {v p q m rest sources onMessage onEmpty} :
      code p (v.loc p) = .poll sources onMessage onEmpty → q ∈ sources →
      v.chan q p = m :: rest →
      Move code v (.take p q m) ((v.pop q p).become p (onMessage q m))
  | pollEmpty {v p sources onMessage onEmpty} :
      code p (v.loc p) = .poll sources onMessage onEmpty →
      Move code v (.empty p) (v.become p onEmpty)
  | receive {v p q m rest onMessage onEmpty} :
      code p (v.loc p) = .receive q onMessage onEmpty → v.chan q p = m :: rest →
      Move code v (.take p q m) ((v.pop q p).become p (onMessage m))
  | receiveEmpty {v p q onMessage onEmpty} :
      code p (v.loc p) = .receive q onMessage onEmpty →
      Move code v (.empty p) (v.become p onEmpty)

/-- Written to the channel from `a` to `b`, or on its way there in the buffer of `a`. -/
def State.transit (s : State P σ M) : Channels P M :=
  fun a b => s.chan a b ++ outTo (s.outbox a) b

def State.view (s : State P σ M) : View P σ M := ⟨s.loc, s.transit⟩

@[simp] theorem State.view_loc (s : State P σ M) : s.view.loc = s.loc := rfl

@[simp] theorem State.view_chan (s : State P σ M) : s.view.chan = s.transit := rfl

@[simp] theorem State.view_initial (loc : P → σ) :
    (State.initial loc : State P σ M).view = ⟨loc, fun _ _ => []⟩ := rfl

theorem State.transit_of_idle {s : State P σ M} {p : P} (idle : s.outbox p = []) (b : P) :
    s.transit p b = s.chan p b := by simp [transit, idle]

theorem State.view_flush {s : State P σ M} {p q : P} {m : M} {rest : List (P × M)}
    (pending : s.outbox p = (q, m) :: rest) : (s.flush p q m rest).view = s.view := by
  simp only [view, flush, View.mk.injEq, true_and]
  funext a b
  by_cases h : a = p
  · subst h
    simp [transit, pending, outTo_cons]
  · simp [transit, h, Channels.post_ne]

theorem State.view_become {s : State P σ M} {p : P} (idle : s.outbox p = [])
    (next : Next P σ M) : (s.become p next).view = s.view.become p next := by
  simp only [view, become, View.become, View.mk.injEq, true_and]
  funext a b
  by_cases h : a = p
  · subst h
    simp [transit, idle]
  · simp [transit, h, Channels.post_ne]

theorem State.view_pop {s : State P σ M} {q p : P} {m : M} {rest : List M}
    (head : s.chan q p = m :: rest) : (s.pop q p).view = s.view.pop q p := by
  simp only [view, pop, View.pop, View.mk.injEq, true_and]
  funext a b
  by_cases h : a = q ∧ b = p
  · obtain ⟨rfl, rfl⟩ := h
    simp [transit, Channels.pop_head, head]
  · simp [transit, Channels.pop_ne _ h]

/-- Every step either writes a buffered message, which changes nothing in transit, or is a step
of the system in which buffered sends take place at once. -/
theorem Step.view {code : Code P σ M} {s s' : State P σ M} {e : Event P M}
    (h : Step code s e s') :
    (s'.view = s.view ∧ ∃ p q m, e = .send p q m) ∨ Move code s.view e s'.view := by
  cases h with
  | send pending => exact .inl ⟨State.view_flush pending, _, _, _, rfl⟩
  | act idle next =>
    rw [State.view_become idle]
    exact .inr (.act next)
  | poll idle next mem head =>
    rw [State.view_become (by simpa [State.pop] using idle), State.view_pop head]
    exact .inr (.poll next mem (by simp [State.transit, head]; rfl))
  | pollEmpty idle next =>
    rw [State.view_become idle]
    exact .inr (.pollEmpty next)
  | receive idle next head =>
    rw [State.view_become (by simpa [State.pop] using idle), State.view_pop head]
    exact .inr (.receive next (by simp [State.transit, head]; rfl))
  | receiveEmpty idle next =>
    rw [State.view_become idle]
    exact .inr (.receiveEmpty next)

/-- What an observer of the local states and the traffic sees of a run. -/
def observe (obs : View P σ M → Event P M → View P σ M → List O)
    (ts : List (Transition P σ M)) : List O :=
  ts.flatMap (fun t => obs t.before.view t.event t.after.view)

@[simp] theorem observe_snoc (obs : View P σ M → Event P M → View P σ M → List O)
    (ts : List (Transition P σ M)) (t : Transition P σ M) :
    observe obs (ts ++ [t]) = observe obs ts ++ obs t.before.view t.event t.after.view := by
  simp [observe]

/-- The invariant rule for runs: what holds at the start and is kept by every `Move`, along with
the observations so far, holds at the end of every run. -/
theorem Run.invariant {code : Code P σ M} {s₀ : State P σ M}
    {obs : View P σ M → Event P M → View P σ M → List O}
    (silent : ∀ v p q m, obs v (.send p q m) v = [])
    {I : View P σ M → List O → Prop} (start : I s₀.view [])
    (keep : ∀ v e v' os, I v os → Move code v e v' → I v' (os ++ obs v e v'))
    {ts : List (Transition P σ M)} {s : State P σ M} (run : Run code s₀ ts s) :
    I s.view (observe obs ts) := by
  induction run with
  | nil => exact start
  | snoc _ step ih =>
    rw [observe_snoc]
    rcases step.view with ⟨same, p, q, m, rfl⟩ | move
    · simpa [same, silent] using ih
    · exact keep _ _ _ _ ih move

/-! ## Executable schedules -/

/-- A scheduler's choice: which process goes on, and for a receive from which channel. -/
inductive Choice (P : Type) where
  | send (p : P)
  | act (p : P)
  | take (p q : P)
  | empty (p : P)

def State.step? (code : Code P σ M) (s : State P σ M) : Choice P → Option (State P σ M)
  | .send p =>
    match s.outbox p with
    | (q, m) :: rest => some (s.flush p q m rest)
    | [] => none
  | .act p =>
    match s.outbox p, code p (s.loc p) with
    | [], .act next => some (s.become p next)
    | _, _ => none
  | .take p q =>
    match s.outbox p, code p (s.loc p), s.chan q p with
    | [], .poll sources onMessage _, m :: _ =>
      if q ∈ sources then some ((s.pop q p).become p (onMessage q m)) else none
    | [], .receive source onMessage _, m :: _ =>
      if q = source then some ((s.pop q p).become p (onMessage m)) else none
    | _, _, _ => none
  | .empty p =>
    match s.outbox p, code p (s.loc p) with
    | [], .poll _ _ onEmpty => some (s.become p onEmpty)
    | [], .receive source _ onEmpty =>
      match s.chan source p with
      | [] => some (s.become p onEmpty)
      | _ :: _ => none
    | _, _ => none

theorem State.step?_take {code : Code P σ M} {s s' : State P σ M} {p q : P}
    (h : s.step? code (.take p q) = some s') :
    ∃ m, Step code s (.take p q m) s' ∧ (s.chan q p).head? = some m := by
  simp only [step?] at h
  split at h
  next idle next head =>
    split at h
    next mem =>
      cases h
      exact ⟨_, .poll idle next mem head, by rw [head, List.head?_cons]⟩
    next => cases h
  next idle next head =>
    split at h
    next eq =>
      subst eq
      cases h
      exact ⟨_, .receive idle next head, by rw [head, List.head?_cons]⟩
    next => cases h
  next => cases h

theorem State.step?_sound {code : Code P σ M} {s s' : State P σ M} {c : Choice P}
    (h : s.step? code c = some s') : ∃ e, Step code s e s' := by
  cases c with
  | send p =>
    simp only [step?] at h
    split at h
    next pending =>
      cases h
      exact ⟨_, .send pending⟩
    next => cases h
  | act p =>
    simp only [step?] at h
    split at h
    next idle next =>
      cases h
      exact ⟨_, .act idle next⟩
    next => cases h
  | take p q =>
    obtain ⟨m, step, -⟩ := State.step?_take h
    exact ⟨_, step⟩
  | empty p =>
    simp only [step?] at h
    split at h
    next idle next =>
      cases h
      exact ⟨_, .pollEmpty idle next⟩
    next idle next =>
      split at h
      next empty =>
        cases h
        exact ⟨_, .receiveEmpty idle next empty⟩
      next => cases h
    next => cases h

def State.follow? (code : Code P σ M) : State P σ M → List (Choice P) → Option (State P σ M)
  | s, [] => some s
  | s, c :: cs => (s.step? code c).bind (fun s' => s'.follow? code cs)

theorem Run.follow? {code : Code P σ M} {s₀ s s' : State P σ M} {cs : List (Choice P)}
    {ts : List (Transition P σ M)} (run : Run code s₀ ts s)
    (h : s.follow? code cs = some s') : ∃ ts', Run code s₀ (ts ++ ts') s' := by
  induction cs generalizing s ts with
  | nil =>
    cases h
    exact ⟨[], (List.append_nil ts).symm ▸ run⟩
  | cons c cs ih =>
    obtain ⟨mid, next, rest⟩ := Option.bind_eq_some_iff.mp h
    obtain ⟨e, step⟩ := State.step?_sound next
    obtain ⟨ts', run⟩ := ih (run.snoc step) rest
    rw [List.append_assoc] at run
    exact ⟨_, run⟩

/-- A schedule that can be followed to a `good` state is that of a run. -/
theorem State.run_of_follow? {code : Code P σ M} {s : State P σ M} {cs : List (Choice P)}
    {good : State P σ M → Bool} (check : (s.follow? code cs).any good = true) :
    ∃ s' ts, s.follow? code cs = some s' ∧ Run code s ts s' ∧ good s' = true := by
  obtain ⟨s', follow, good⟩ := (Option.any_eq_true _ _).mp check
  obtain ⟨ts, run⟩ := Run.follow? .nil follow
  exact ⟨s', _, follow, run, good⟩

end Distra.Network
