import Distra.Ipc.Simulation
import Distra.Network.Termination

/-!
# Processes over pipes go on

As long as nobody has exited, a scan of the channels comes to its end, with a message if the
channels ahead of it hold one, and a receive from a channel with a message takes it. So where the
processes can go on over FIFO channels, they can over pipes.
-/

namespace Distra.Ipc

open Distra.Ipc.Message Network

variable {σ M : Type} {code : Code Nat σ M} {C : Codec M} {n capacity : Nat}

/-- Nobody has exited. -/
def PipedState.Living (W : PipedState σ M) (n : Nat) : Prop := ∀ p ≤ n, W.status p ≠ .exited

/-- What a program that goes on expects of its messages and of `receive_blocking`. -/
structure Responsive (code : Code Nat σ M) (C : Codec M) : Prop where
  encodes : ∀ p m, ∃ msg, C.Encodes p m msg
  blocks : ∀ {p st q onMessage onEmpty}, code p st = .receive q onMessage onEmpty →
    onEmpty = (st, [])

section Steps

variable {W W' W₀ : PipedState σ M} {s s₀ : State Nat σ M} {p q fr k : Nat} {m : M}
  {ts : List (Transition Nat σ M)} {sources : List Nat} {onMessage : Nat → M → Next Nat σ M}
  {onEmpty : Next Nat σ M} {queues : Nat → List Byte} {msg : Message} {status : Status}

theorem PipedRun.trans (run : PipedRun code C n capacity W₀ W)
    (run' : PipedRun code C n capacity W W') : PipedRun code C n capacity W₀ W' := by
  induction run' with
  | nil => exact run
  | snoc _ step ih => exact ih.snoc step

theorem PipedRun.cons (step : PipedStep code C n capacity W₀ W)
    (run : PipedRun code C n capacity W W') : PipedRun code C n capacity W₀ W' :=
  (PipedRun.nil.snoc step).trans run

namespace PipedState

theorem Living.update (living : W.Living n) (alive : status ≠ .exited) :
    ∀ a ≤ n, Function.update W.status p status a ≠ .exited := by
  intro a le
  rw [Function.update_apply]
  split
  · exact alive
  · exact living a le

theorem Living.resume (living : W.Living n) (decode : Message → M) (progress : Polling) :
    ((W.withInput p queues).resume p decode progress msg onMessage onEmpty).Living n := by
  cases progress with
  | reading => exact living.update nofun
  | returned => exact living.update nofun

theorem Living.received (living : W.Living n) (decode : Message → M) (onMsg : M → Next Nat σ M)
    (result : Progress ReceiveCall × Message) :
    ((W.withInput p queues).received p decode q onMsg onEmpty result).Living n := by
  obtain ⟨progress, msg⟩ := result
  cases progress with
  | goesOn => exact living.update nofun
  | returns =>
    unfold PipedState.received
    dsimp only
    split
    · exact living.update nofun
    · split <;> exact living.update nofun

end PipedState

theorem open_living (W : PipedState σ M) : W.Open fun _ => true := nofun

/-- What `p` comes to over pipes: it has taken the step `e`. -/
structure Takes (code : Code Nat σ M) (C : Codec M) (n capacity : Nat) (W : PipedState σ M)
    (s : State Nat σ M) (e : Event Nat M) (s' : State Nat σ M) (W' : PipedState σ M) : Prop where
  run : PipedRun code C n capacity W W'
  living : W'.Living n
  step : Step code s e s'
  simulates : Simulates code C n W' s'

theorem Takes.cons {e : Event Nat M} {s' : State Nat σ M} {W₁ : PipedState σ M}
    (h : Takes code C n capacity W₁ s e s' W') (step : PipedStep code C n capacity W W₁) :
    Takes code C n capacity W s e s' W' := ⟨.cons step h.run, h.living, h.step, h.simulates⟩

/-- The end of a scan from channel `fr` on. -/
def Scanned (code : Code Nat σ M) (C : Codec M) (n capacity : Nat) (W : PipedState σ M)
    (s : State Nat σ M) (p fr : Nat) : Prop :=
  ∃ e s' W', Takes code C n capacity W s e s' W' ∧ W'.status p = .running ∧
    (e = .empty p ∧ (∀ q, fr ≤ q → q ≤ n → q ≠ p → s.chan q p = []) ∨ ∃ q m, e = .take p q m)

variable (conveyed : Conveyed code s₀ C n capacity) (run : Run code s₀ ts s)
include conveyed run

theorem Scans.finish (h : Scans code C n W s p fr k true) (living : W.Living n) :
    Scanned code C n capacity W s p fr := by
  induction k using Nat.strong_induction_on generalizing W fr with
  | _ k ih =>
    cases h with
    | empty step simulates running none_ =>
      exact ⟨_, _, W, ⟨.nil, living, step, simulates⟩, running, .inl ⟨rfl, none_⟩⟩
    | message step simulates running =>
      exact ⟨_, _, W, ⟨.nil, living, step, simulates⟩, running, .inr ⟨_, _, rfl⟩⟩
    | @goesOn fr' call msg simulates status left none_ =>
      obtain ⟨-, -, sources, onMessage, onEmpty, polls⟩ := status ▸ simulates.stands p
      have polls' : code p (W.loc p) = .poll sources onMessage onEmpty := by
        rw [simulates.loc, polls]
      have read := simulates.pollRead conveyed run status polls (fun _ => true) rfl
      obtain ⟨e, s', W', takes, running, found⟩ := ih _ (left rfl) read (living.resume _ _)
      refine ⟨e, s', W', takes.cons (.pollRead status polls' (open_living W) rfl), running, ?_⟩
      refine found.imp_left fun ⟨event, later⟩ => ⟨event, fun q ge le ne => ?_⟩
      rcases Nat.lt_or_ge q fr' with before | after
      · exact none_ q ge before ne
      · exact later q after le ne

/-- `ipc_receive_any` comes to its end. -/
theorem Simulates.finishScan (h : Simulates code C n W s) (living : W.Living n)
    (idle : s.outbox p = []) (polls : code p (s.loc p) = .poll sources onMessage onEmpty) :
    ∃ fr, Scanned code C n capacity W s p fr ∧ (W.status p = .running → fr = 0) := by
  cases status : W.status p with
  | running =>
    refine ⟨0, ?_, fun _ => rfl⟩
    have pipes (q : Nat) : Carries C q (W.queue q p) none (s.chan q p) := by
      have pipe := h.pipes q p
      rwa [status] at pipe
    have idle' : W.outbox p = [] := by rw [h.outbox, idle]
    have polls' : code p (W.loc p) = .poll sources onMessage onEmpty := by rw [h.loc, polls]
    have scan := h.scan idle polls pipes (fun _ => 0) 0
    obtain ⟨e, s', W', takes, rest⟩ := scan.finish conveyed run (living.resume _ _)
    rw [withInput_self] at takes
    exact ⟨e, s', W', takes.cons (.poll status idle' polls'), rest⟩
  | polling fr call msg =>
    have polls' : code p (W.loc p) = .poll sources onMessage onEmpty := by rw [h.loc, polls]
    have read := h.pollRead conveyed run status polls (fun _ => true) rfl
    obtain ⟨e, s', W', takes, rest⟩ := read.finish conveyed run (living.resume _ _)
    exact ⟨fr, ⟨e, s', W', takes.cons (.pollRead status polls' (open_living W) rfl), rest⟩, nofun⟩
  | receiving q call msg =>
    obtain ⟨-, -, onMsg, onEmpty', receives⟩ := status ▸ h.stands p
    cases polls.symm.trans receives
  | failed => exact absurd status (h.not_failed p)
  | exited =>
    obtain ⟨-, stop⟩ := status ▸ h.stands p
    cases polls.symm.trans stop

/-- The end of a receive of `p` from `q`. -/
def Received (code : Code Nat σ M) (C : Codec M) (n capacity : Nat) (W : PipedState σ M)
    (s : State Nat σ M) (p q : Nat) : Prop :=
  ∃ e s' W', Takes code C n capacity W s e s' W' ∧
    (e = .empty p ∧ s.chan q p = [] ∨ ∃ m, e = .take p q m)

theorem Awaits.finish (h : Awaits code C n W s p q k true) (living : W.Living n) :
    Received code C n capacity W s p q := by
  induction k using Nat.strong_induction_on generalizing W with
  | _ k ih =>
    cases h with
    | message step simulates =>
      exact ⟨_, _, W, ⟨.nil, living, step, simulates⟩, .inr ⟨_, rfl⟩⟩
    | empty step simulates none_ =>
      exact ⟨_, _, W, ⟨.nil, living, step, simulates⟩, .inl ⟨rfl, none_⟩⟩
    | @goesOn call msg simulates status left =>
      obtain ⟨-, -, onMsg, onEmpty, receives⟩ := status ▸ simulates.stands p
      have receives' : code p (W.loc p) = .receive q onMsg onEmpty := by
        rw [simulates.loc, receives]
      have read := simulates.receiveRead conveyed run status receives true rfl
      obtain ⟨e, s', W', takes, found⟩ := ih _ (left rfl).2 read (living.received _ _ _)
      exact ⟨e, s', W', takes.cons (.receiveRead status receives' (open_living W) rfl), found⟩

/-- `receive` comes to its end. -/
theorem Simulates.finishReceive (h : Simulates code C n W s) (living : W.Living n)
    (idle : s.outbox p = []) {onMsg : M → Next Nat σ M}
    (receives : code p (s.loc p) = .receive q onMsg onEmpty) :
    Received code C n capacity W s p q := by
  have receives' : code p (W.loc p) = .receive q onMsg onEmpty := by rw [h.loc, receives]
  cases status : W.status p with
  | running =>
    have idle' : W.outbox p = [] := by rw [h.outbox, idle]
    have starts : Simulates code C n
        (W.withStatus p (.receiving q (.header ⟨0, headerSize, 0⟩) fun _ => 0)) s := by
      refine h.withStatus ⟨idle, rfl, _, _, receives⟩ fun a => ?_
      rw [status, Status.under]
      split <;> rfl
    have reading : (W.withStatus p (.receiving q (.header ⟨0, headerSize, 0⟩) fun _ => 0)).status p
        = .receiving q (.header ⟨0, headerSize, 0⟩) fun _ => 0 := Function.update_self _ _ _
    have living' : (W.withStatus p (.receiving q (.header ⟨0, headerSize, 0⟩) fun _ => 0)).Living
        n := living.update (by simp)
    have read := starts.receiveRead conveyed run reading receives true rfl
    obtain ⟨e, s', W', takes, found⟩ := read.finish conveyed run (living'.received _ _ _)
    exact ⟨e, s', W', (takes.cons (.receiveRead reading receives' (open_living _) rfl)).cons
      (.receive status idle' receives'), found⟩
  | receiving q' call msg =>
    obtain ⟨-, -, onMsg', onEmpty', entry⟩ := status ▸ h.stands p
    cases receives.symm.trans entry
    have read := h.receiveRead conveyed run status receives true rfl
    obtain ⟨e, s', W', takes, found⟩ := read.finish conveyed run (living.received _ _ _)
    exact ⟨e, s', W', takes.cons (.receiveRead status receives' (open_living W) rfl), found⟩
  | polling fr call msg =>
    obtain ⟨-, -, sources, onMessage, onEmpty', polls⟩ := status ▸ h.stands p
    cases receives.symm.trans polls
  | failed => exact absurd status (h.not_failed p)
  | exited =>
    obtain ⟨-, stop⟩ := status ▸ h.stands p
    cases receives.symm.trans stop

omit conveyed run in
/-- A process that writes, or goes on by itself, is in no receive. -/
theorem Simulates.running (h : Simulates code C n W s)
    (busy : s.outbox p ≠ [] ∨ ∃ next, code p (s.loc p) = .act next) :
    W.status p = .running := by
  have stands := h.stands p
  cases status : W.status p with
  | running => rfl
  | polling fr call msg =>
    obtain ⟨idle, -, _, _, _, polls⟩ := status ▸ stands
    obtain ⟨next, acts⟩ := busy.resolve_left (not_not.mpr idle)
    cases polls.symm.trans acts
  | receiving q call msg =>
    obtain ⟨idle, -, _, _, receives⟩ := status ▸ stands
    obtain ⟨next, acts⟩ := busy.resolve_left (not_not.mpr idle)
    cases receives.symm.trans acts
  | failed => exact (status ▸ stands : Stands code n s p .failed).elim
  | exited =>
    obtain ⟨idle, stop⟩ := status ▸ stands
    obtain ⟨next, acts⟩ := busy.resolve_left (not_not.mpr idle)
    cases stop.symm.trans acts

omit conveyed run in
theorem not_idle_take {m : M} {s' : State Nat σ M} : ¬Transition.Idle ⟨s, .take p q m, s'⟩ := by
  rintro ⟨⟨_, event⟩, -⟩
  cases event

/-- A scan that changes nothing is followed by one of all channels. -/
theorem Simulates.advancePoll (h : Simulates code C n W s) (living : W.Living n)
    (idle : s.outbox p = []) (polls : code p (s.loc p) = .poll sources onMessage onEmpty)
    (goesOn : (∃ q ≤ n, q ≠ p ∧ s.chan q p ≠ []) ∨
      ¬Transition.Idle ⟨s, .empty p, s.become p onEmpty⟩) :
    ∃ e s' W', Takes code C n capacity W s e s' W' ∧ ¬Transition.Idle ⟨s, e, s'⟩ := by
  have after {s' : State Nat σ M} (step : Step code s (.empty p) s') : s' = s.become p onEmpty := by
    cases step with
    | pollEmpty _ polls' =>
      cases polls.symm.trans polls'
      rfl
    | receiveEmpty _ receives => cases polls.symm.trans receives
  obtain ⟨fr, ⟨e, s', W₁, takes, running, found⟩, -⟩ := h.finishScan conveyed run living idle polls
  by_cases still : Transition.Idle ⟨s, e, s'⟩
  swap
  · exact ⟨e, s', W₁, takes, still⟩
  rcases found with ⟨rfl, -⟩ | ⟨q, m, rfl⟩
  swap
  · exact absurd still not_idle_take
  have waiting := goesOn.resolve_right fun busy => busy (after takes.step ▸ still)
  -- The channel with the message may be behind the place from which the scan has gone on.
  have simulates : Simulates code C n W₁ s := by
    obtain ⟨-, same⟩ := still
    obtain rfl : s' = s := same
    exact takes.simulates
  obtain ⟨fr', ⟨e', s'', W', takes', -, found'⟩, first⟩ :=
    simulates.finishScan conveyed run takes.living idle polls
  rcases found' with ⟨rfl, none_⟩ | ⟨q, m, rfl⟩
  · obtain ⟨q, le, ne, some_⟩ := waiting
    exact absurd (none_ q ((first running).trans_le (Nat.zero_le q)) le ne) some_
  · exact ⟨_, s'', W', ⟨takes.run.trans takes'.run, takes'.living, takes'.step, takes'.simulates⟩,
      not_idle_take⟩

/-- Where the processes can go on over FIFO channels, they do over pipes. -/
theorem Simulates.advance (h : Simulates code C n W s) (responsive : Responsive code C)
    (living : W.Living n) (goesOn : s.CanStep code) :
    ∃ e s' W', Takes code C n capacity W s e s' W' ∧ ¬Transition.Idle ⟨s, e, s'⟩ := by
  obtain ⟨e, s', step, notIdle⟩ := goesOn
  cases step with
  | @send p q m rest pending =>
    have some_ : s.outbox p ≠ [] := by
      rw [pending]
      exact List.cons_ne_nil _ _
    have running := h.running (.inl some_)
    have pending' : W.outbox p = (q, m) :: rest := by rw [h.outbox, pending]
    obtain ⟨msg, encodes⟩ := responsive.encodes p m
    have room := h.room conveyed run pending encodes
    exact ⟨_, _, _, ⟨.cons (.write running pending' encodes room) .nil, living, .send pending,
      h.write running encodes⟩, notIdle⟩
  | @act p next idle entry =>
    have running := h.running (.inr ⟨next, entry⟩)
    have idle' : W.outbox p = [] := by rw [h.outbox, idle]
    have entry' : code p (W.loc p) = .act next := by rw [h.loc, entry]
    exact ⟨_, _, _, ⟨.cons (.act running idle' entry') .nil, living.update nofun,
      .act idle entry, h.become running next⟩, notIdle⟩
  | @receive p q m rest onMsg onEmpty idle receives head =>
    have some_ : s.chan q p ≠ [] := by
      rw [head]
      exact List.cons_ne_nil _ _
    obtain ⟨e, s', W', takes, ⟨-, none_⟩ | ⟨m, rfl⟩⟩ :=
      h.finishReceive conveyed run living idle receives
    · exact absurd none_ some_
    · exact ⟨_, s', W', takes, not_idle_take⟩
  | @receiveEmpty p q onMsg onEmpty idle receives =>
    refine absurd ⟨⟨p, rfl⟩, ?_⟩ notIdle
    dsimp only
    rw [responsive.blocks receives, State.become_self idle]
  | @poll p q m rest sources onMessage onEmpty idle polls mem head =>
    obtain ⟨le, ne⟩ := (conveyed.scans polls q).mp mem
    have some_ : s.chan q p ≠ [] := by
      rw [head]
      exact List.cons_ne_nil _ _
    exact h.advancePoll conveyed run living idle polls (.inl ⟨q, le, ne, some_⟩)
  | pollEmpty idle polls => exact h.advancePoll conveyed run living idle polls (.inr notIdle)

end Steps

/-! ## To the end -/

section Whole

variable {W : PipedState σ M} {s s₀ : State Nat σ M} {ts : List (Transition Nat σ M)}
  {measure : List (Transition Nat σ M) → State Nat σ M → Nat} {bound : Nat}

/-- What comes to its end over FIFO channels comes to it over pipes. -/
theorem Simulates.settles (conveyed : Conveyed code s₀ C n capacity)
    (responsive : Responsive code C) (climbs : Climbs code s₀ Transition.Idle measure)
    (bounded : ∀ ts s, Run code s₀ ts s → measure ts s ≤ bound)
    (run : Run code s₀ ts s) (h : Simulates code C n W s) (living : W.Living n) :
    ∃ W' ts' s', PipedRun code C n capacity W W' ∧ W'.Living n ∧ Run code s₀ ts' s' ∧
      Simulates code C n W' s' ∧ ¬s'.CanStep code := by
  generalize left : bound - measure ts s = k
  induction k using Nat.strong_induction_on generalizing ts s W with
  | _ k ih =>
    by_cases goesOn : s.CanStep code
    · obtain ⟨e, s', W₁, takes, busy⟩ := h.advance conveyed run responsive living goesOn
      have raised := climbs.lt run takes.step busy
      have run' := run.snoc takes.step
      have room := bounded _ _ run'
      obtain ⟨W', ts', s'', rest, settled⟩ :=
        ih _ (by omega) run' takes.simulates takes.living rfl
      exact ⟨W', ts', s'', takes.run.trans rest, settled⟩
    · exact ⟨W, ts, s, .nil, living, run, h, goesOn⟩

end Whole

end Distra.Ipc
