import Distra.Network.Process

/-!
# Codes in lockstep

Two codes for the same processes, whose local states are related. What they send is the same for as
long as these keep within some bound. If they always do, every run of the first is a run of the
second. The relation may be turned around, so then the converse holds as well.
-/

namespace Distra.Network

variable {P σ τ M : Type}

/-- The same communication, with results that `R` relates for the messages in `T`. -/
inductive Action.Agrees (T : M → Prop) (R : Next P σ M → Next P τ M → Prop) :
    Action P σ M → Action P τ M → Prop
  | act {next next'} : R next next' → Agrees T R (.act next) (.act next')
  | poll {sources onMessage onMessage' onEmpty onEmpty'} :
      (∀ q m, T m → R (onMessage q m) (onMessage' q m)) → R onEmpty onEmpty' →
      Agrees T R (.poll sources onMessage onEmpty) (.poll sources onMessage' onEmpty')
  | receive {source onMessage onMessage' onEmpty onEmpty'} :
      (∀ m, T m → R (onMessage m) (onMessage' m)) → R onEmpty onEmpty' →
      Agrees T R (.receive source onMessage onEmpty) (.receive source onMessage' onEmpty')
  | stop : Agrees T R .stop .stop

theorem Action.Agrees.flip {T : M → Prop} {R : Next P σ M → Next P τ M → Prop}
    {R' : Next P τ M → Next P σ M → Prop} (turn : ∀ next next', R next next' → R' next' next)
    {action : Action P σ M} {action' : Action P τ M} (agrees : action.Agrees T R action') :
    action'.Agrees T R' action := by
  cases agrees with
  | act related => exact .act (turn _ _ related)
  | poll message empty => exact .poll (fun q m due => turn _ _ (message q m due)) (turn _ _ empty)
  | receive message empty => exact .receive (fun m due => turn _ _ (message m due)) (turn _ _ empty)
  | stop => exact .stop

/-- Related local states, and the same sends if they are within the bound. -/
structure Next.Agrees (R bound : σ → τ → Prop) (next : Next P σ M) (next' : Next P τ M) :
    Prop where
  loc : R next.1 next'.1
  sends : bound next.1 next'.1 → next.2 = next'.2

/-- Related local states, the same sends and the same channels. -/
structure State.Agrees (R : σ → τ → Prop) (s : State P σ M) (s' : State P τ M) : Prop where
  loc : ∀ p, R (s.loc p) (s'.loc p)
  outbox : s.outbox = s'.outbox
  chan : s.chan = s'.chan

/-- From related local states the two codes go on alike. -/
def Code.Agrees (T : M → Prop) (R bound : σ → τ → Prop) (code : Code P σ M)
    (code' : Code P τ M) : Prop :=
  ∀ p st st', R st st' → (code p st).Agrees T (Next.Agrees R bound) (code' p st')

variable {code : Code P σ M} {code' : Code P τ M} {T : M → Prop} {R bound : σ → τ → Prop}
  {s s₁ : State P σ M} {s' : State P τ M}

theorem Code.Agrees.flip (codes : code.Agrees T R bound code') :
    code'.Agrees T (flip R) (flip bound) code :=
  fun p st st' related => (codes p st' st related).flip fun _ _ agrees =>
    ⟨agrees.loc, fun within => (agrees.sends within).symm⟩

theorem State.Agrees.flip (h : s.Agrees R s') : s'.Agrees (flip R) s :=
  ⟨h.loc, h.outbox.symm, h.chan.symm⟩

variable [DecidableEq P]

section Step

variable {p q : P} {next : Next P σ M} {next' : Next P τ M} {e : Event P M} (h : s.Agrees R s')
include h

theorem State.Agrees.become (agrees : next.Agrees R bound next') (within : bound next.1 next'.1) :
    (s.become p next).Agrees R (s'.become p next') := by
  refine ⟨fun a => ?_, ?_, h.chan⟩
  · by_cases own : a = p
    · subst own
      simpa [State.become] using agrees.loc
    · simpa [State.become, own] using h.loc a
  · simp only [State.become, h.outbox, agrees.sends within]

theorem State.Agrees.pop (q p : P) : (s.pop q p).Agrees R (s'.pop q p) :=
  ⟨h.loc, h.outbox, congrArg (Channels.pop · q p) h.chan⟩

theorem State.Agrees.flush (p q : P) (m : M) (rest : List (P × M)) :
    (s.flush p q m rest).Agrees R (s'.flush p q m rest) := by
  refine ⟨h.loc, ?_, ?_⟩
  · simp only [State.flush, h.outbox]
  · simp only [State.flush, h.chan]

/-- A step of the first code is one of the second. -/
theorem State.Agrees.step (codes : code.Agrees T R bound code')
    (taken : ∀ p q, ∀ m ∈ s'.chan p q, T m) (step : Step code s e s₁) :
    ∃ s₁', Step code' s' e s₁' ∧
      ((∀ p, bound (s₁.loc p) (s₁'.loc p)) → s₁.Agrees R s₁') := by
  have became {u : State P σ M} {u' : State P τ M} (agrees : u.Agrees R u') {p : P}
      {next : Next P σ M} {next' : Next P τ M} (related : next.Agrees R bound next')
      (within : ∀ a, bound ((u.become p next).loc a) ((u'.become p next').loc a)) :
      (u.become p next).Agrees R (u'.become p next') :=
    agrees.become related (by simpa [State.become] using within p)
  cases step with
  | @send p q m rest pending =>
    exact ⟨_, .send (h.outbox ▸ pending), fun _ => h.flush p q m rest⟩
  | @act p next idle acts =>
    have agrees := codes p _ _ (h.loc p)
    generalize eq : code' p (s'.loc p) = action at agrees
    rw [acts] at agrees
    cases agrees with
    | act related => exact ⟨_, .act (h.outbox ▸ idle) eq, became h related⟩
  | @poll p q m rest sources onMessage onEmpty idle polls mem head =>
    have agrees := codes p _ _ (h.loc p)
    generalize eq : code' p (s'.loc p) = action at agrees
    rw [polls] at agrees
    rw [h.chan] at head
    cases agrees with
    | poll related =>
      have due := taken q p m (head ▸ List.mem_cons_self)
      exact ⟨_, .poll (h.outbox ▸ idle) eq mem head, became (h.pop q p) (related q m due)⟩
  | @pollEmpty p sources onMessage onEmpty idle polls =>
    have agrees := codes p _ _ (h.loc p)
    generalize eq : code' p (s'.loc p) = action at agrees
    rw [polls] at agrees
    cases agrees with
    | poll _ related => exact ⟨_, .pollEmpty (h.outbox ▸ idle) eq, became h related⟩
  | @receive p q m rest onMessage onEmpty idle receives head =>
    have agrees := codes p _ _ (h.loc p)
    generalize eq : code' p (s'.loc p) = action at agrees
    rw [receives] at agrees
    rw [h.chan] at head
    cases agrees with
    | receive related =>
      have due := taken q p m (head ▸ List.mem_cons_self)
      exact ⟨_, .receive (h.outbox ▸ idle) eq head, became (h.pop q p) (related m due)⟩
  | @receiveEmpty p q onMessage onEmpty idle receives empty =>
    have agrees := codes p _ _ (h.loc p)
    generalize eq : code' p (s'.loc p) = action at agrees
    rw [receives] at agrees
    rw [h.chan] at empty
    cases agrees with
    | receive _ related => exact ⟨_, .receiveEmpty (h.outbox ▸ idle) eq empty, became h related⟩

end Step

/-- Every run of the first code is one of the second, if the two always keep within the bound. -/
theorem Execution.lockstep {s₀ : State P σ M} {s₀' : State P τ M}
    (codes : code.Agrees T R bound code') (start : s₀.Agrees R s₀')
    (within : ∀ (r : Execution code s₀) (r' : Execution code' s₀'),
      (∀ p, bound (r.final.loc p) (r'.final.loc p)) ∧ ∀ p q, ∀ m ∈ r'.final.chan p q, T m)
    (r : Execution code s₀) :
    ∃ r' : Execution code' s₀', r.final.Agrees R r'.final ∧
      r'.transitions.map Transition.event = r.transitions.map Transition.event := by
  obtain ⟨ts, s, run⟩ := r
  induction run with
  | nil => exact ⟨⟨[], s₀', .nil⟩, start, rfl⟩
  | @snoc ts s e s₁ run step ih =>
    obtain ⟨r', agrees, events⟩ := ih
    obtain ⟨s₁', step', after⟩ := agrees.step codes (within ⟨ts, s, run⟩ r').2 step
    let r₁' : Execution code' s₀' := ⟨_, s₁', r'.run.snoc step'⟩
    refine ⟨r₁', after (within ⟨_, s₁, run.snoc step⟩ r₁').1, ?_⟩
    rw [List.map_append, List.map_append, events]
    rfl

end Distra.Network
