import Distra.Ipc.Advance

/-!
# The runs over FIFO channels over pipes

A process that looks at one channel at a time finds over pipes what it finds over FIFO channels. So
as long as nobody has exited, such processes can do over pipes all that they can do there, step by
step.
-/

namespace Distra.Ipc

open Distra.Ipc.Message Network

variable {σ M : Type} {code : Code Nat σ M} {C : Codec M} {n capacity : Nat}
  {W : PipedState σ M} {s s' s₀ : State Nat σ M} {p q : Nat} {e : Event Nat M}
  {ts ts' : List (Transition Nat σ M)}

/-- What a look at one channel finds. -/
theorem step_of_receive {onMsg : M → Next Nat σ M} {onEmpty : Next Nat σ M}
    (step : Step code s e s') (actor : e.actor = p) (idle : s.outbox p = [])
    (receives : code p (s.loc p) = .receive q onMsg onEmpty) :
    s.chan q p = [] ∧ e = .empty p ∧ s' = s.become p onEmpty ∨
      ∃ m rest, s.chan q p = m :: rest ∧ e = .take p q m ∧
        s' = (s.pop q p).become p (onMsg m) := by
  cases step with
  | send pending =>
    obtain rfl : _ = p := actor
    cases pending.symm.trans idle
  | act _ acts =>
    obtain rfl : _ = p := actor
    cases receives.symm.trans acts
  | poll _ polls | pollEmpty _ polls =>
    obtain rfl : _ = p := actor
    cases receives.symm.trans polls
  | receive _ receives' head =>
    obtain rfl : _ = p := actor
    cases receives.symm.trans receives'
    exact .inr ⟨_, _, head, rfl, rfl⟩
  | receiveEmpty _ receives' none_ =>
    obtain rfl : _ = p := actor
    cases receives.symm.trans receives'
    exact .inl ⟨none_, rfl, rfl⟩

/-- No process scans all its channels in one call. -/
def Plain (code : Code Nat σ M) : Prop :=
  ∀ p st sources onMessage onEmpty, code p st ≠ .poll sources onMessage onEmpty

section Replay

variable (conveyed : Conveyed code s₀ C n capacity) (plain : Plain code)
  (encodes : ∀ p m, ∃ msg, C.Encodes p m msg)
include conveyed plain encodes

theorem Simulates.replay_step (run : Run code s₀ ts s) (h : Simulates code C n W s)
    (living : W.Living n) (step : Step code s e s') :
    ∃ W', PipedRun code C n capacity W W' ∧ W'.Living n ∧ Simulates code C n W' s' := by
  have receives {p q : Nat} {onMsg : M → Next Nat σ M} {onEmpty : Next Nat σ M}
      (idle : s.outbox p = []) (receives : code p (s.loc p) = .receive q onMsg onEmpty)
      (actor : e.actor = p) :
      ∃ W', PipedRun code C n capacity W W' ∧ W'.Living n ∧ Simulates code C n W' s' := by
    obtain ⟨e', s'', W', takes, found⟩ := h.finishReceive conveyed run living idle receives
    have actor' : e'.actor = p := by
      rcases found with ⟨rfl, -⟩ | ⟨m, rfl⟩ <;> rfl
    have same : s'' = s' := by
      rcases step_of_receive step actor idle receives with
        ⟨none_, -, rfl⟩ | ⟨m, rest, head, -, rfl⟩ <;>
      rcases step_of_receive takes.step actor' idle receives with
        ⟨none', -, rfl⟩ | ⟨m', rest', head', -, rfl⟩
      · rfl
      · cases none_.symm.trans head'
      · cases none'.symm.trans head
      · cases head.symm.trans head'
        rfl
    exact ⟨W', takes.run, takes.living, same ▸ takes.simulates⟩
  cases step with
  | @send p q m rest pending =>
    have some_ : s.outbox p ≠ [] := by
      rw [pending]
      exact List.cons_ne_nil _ _
    have running := h.running (.inl some_)
    have pending' : W.outbox p = (q, m) :: rest := by rw [h.outbox, pending]
    obtain ⟨msg, encoded⟩ := encodes p m
    have room := h.room conveyed run pending encoded
    exact ⟨_, .cons (.write running pending' encoded room) .nil, living, h.write running encoded⟩
  | @act p next idle entry =>
    have running := h.running (.inr ⟨next, entry⟩)
    have idle' : W.outbox p = [] := by rw [h.outbox, idle]
    have entry' : code p (W.loc p) = .act next := by rw [h.loc, entry]
    exact ⟨_, .cons (.act running idle' entry') .nil, living.update (by simp),
      h.become running next⟩
  | poll _ polls | pollEmpty _ polls => exact absurd polls (plain _ _ _ _ _)
  | receive idle entry | receiveEmpty idle entry => exact receives idle entry rfl

theorem Simulates.replay (run : Run code s₀ ts s) (h : Simulates code C n W s)
    (living : W.Living n) (rest : Run code s ts' s') :
    ∃ W', PipedRun code C n capacity W W' ∧ W'.Living n ∧ Simulates code C n W' s' := by
  induction rest with
  | nil => exact ⟨W, .nil, living, h⟩
  | snoc rest step ih =>
    obtain ⟨W₁, run₁, living₁, simulates⟩ := ih
    obtain ⟨W', run', living', simulates'⟩ :=
      simulates.replay_step conveyed plain encodes (run.trans rest) living₁ step
    exact ⟨W', run₁.trans run', living', simulates'⟩

end Replay

end Distra.Ipc
