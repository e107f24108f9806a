import Distra.Exclusion.Philosophers

/-!
# How often forks are asked for

One who has asked has neither the fork nor the token until the fork comes, and a clean fork stays
until the next meal. So every other process is asked at most once before a meal. Nobody makes
tokens, and a fork is given up for a token that has been taken.
-/

namespace Distra.Exclusion.Forks

open Network

/-- `a` has the fork for its next meal, or nothing to ask for it with. -/
def End.settled (a : End) : Bool := if a.fork then !a.dirty else !a.token

/-- The next meal of `a` may still take a request. -/
def End.mayAsk (a : End) : Bool := !(decide (a.stage = .waiting) && a.settled)

variable {a b a' a'' : End} {ab ba ab' ba' ab'' ba'' : List Msg} {d : Deed} {meals meals' : ℕ}

theorem End.mayAsk_of_stage (awake : a.stage ≠ .waiting) : a.mayAsk = true := by
  simp [mayAsk, awake]

theorem End.not_mayAsk (waiting : a.stage = .waiting) (settled : a.settled = true) :
    a.mayAsk = false := by
  simp [mayAsk, waiting, settled]

/-- What the requests of `a`, its tokens and its forks have to do with each other, before and
after. -/
structure Charged (meals : ℕ) (a : End) (ab ba : List Msg) (a' : End) (ab' ba' : List Msg) :
    Prop where
  asks : ab'.count .token + a'.mayAsk.toNat ≤ ab.count .token + a.mayAsk.toNat + meals
  tokens : ab'.count .token + a'.token.toNat + ba'.count .token ≤
    ab.count .token + a.token.toNat + ba.count .token
  forks : ab'.count .fork + (a'.fork && a'.token).toNat + ba'.count .token ≤
    ab.count .fork + (a.fork && a.token).toNat + ba.count .token

theorem Charged.trans (h : Charged meals a ab ba a' ab' ba')
    (h' : Charged meals' a' ab' ba' a'' ab'' ba'') :
    Charged (meals + meals') a ab ba a'' ab'' ba'' where
  asks := by
    have := h.asks
    have := h'.asks
    omega
  tokens := Nat.le_trans h'.tokens h.tokens
  forks := Nat.le_trans h'.forks h.forks

/-- The sends are the same, and `a` may ask no more than before. -/
theorem Charged.of_frame (asks : a'.mayAsk.toNat ≤ a.mayAsk.toNat + meals)
    (token : a'.token = a.token) (fork : a'.fork = a.fork) :
    Charged meals a ab ba a' ab ba where
  asks := by omega
  tokens := by rw [token]
  forks := by rw [token, fork]

theorem Charged.ask (a : End) (ab ba : List Msg) :
    Charged 0 a ab ba a.ask (ab ++ a.askSends) ba := by
  obtain ⟨stage, fork, dirty, token⟩ := a
  constructor
  all_goals
    cases fork <;> cases token <;> cases dirty <;> cases stage <;>
      simp [End.ask, End.askSends, End.mayAsk, End.settled]

theorem Charged.takeFork (waiting : a.stage = .waiting) (noToken : a.token = false) :
    Charged 0 a ab (.fork :: ba) a.takeFork ab ba := by
  have settled : a.takeFork.mayAsk = false := End.not_mayAsk waiting rfl
  constructor
  · simp [settled]
  · simp [End.takeFork]
  · simp [End.takeFork, noToken]

theorem Charged.takeToken (waiting : a.stage = .waiting) (fork : a.fork = true)
    (noToken : a.token = false) :
    Charged 0 a ab (.token :: ba) a.takeToken (ab ++ a.takeTokenSends) ba := by
  cases dirty : a.dirty
  all_goals
    constructor <;>
      simp [End.takeToken, End.takeTokenSends, End.mayAsk, End.settled, waiting, fork, noToken,
        dirty] <;> omega

theorem Charged.surrender (retired : a.stage = .retired) :
    Charged 0 a ab (.token :: ba) a.surrender (ab ++ [.fork]) ba := by
  have before : a.mayAsk = true := End.mayAsk_of_stage (by simp [retired])
  have after : a.surrender.mayAsk = true := End.mayAsk_of_stage (by simp [End.surrender, retired])
  constructor
  · simp [before, after]
  · simp [End.surrender]
  · simp [End.surrender]
    omega

theorem Charged.leave (inside : a.stage = .inside) (fork : a.fork = true) (ab ba : List Msg) :
    Charged 0 a ab ba a.leave (ab ++ a.leaveSends) ba := by
  have before : a.mayAsk = true := End.mayAsk_of_stage (by simp [inside])
  have after : a.leave.mayAsk = true := End.mayAsk_of_stage (by simp [End.leave])
  cases token : a.token
  all_goals
    constructor
    · simp [before, after, End.leaveSends, token]
    · simp [End.leave, End.leaveSends, token]
    · simp [End.leave, End.leaveSends, fork, token]

/-- One who gets a fork has no token. -/
theorem Pair.token_of_fork {rest : List Msg} (h : Pair a b ab (.fork :: rest)) :
    a.token = false := by
  rcases h with shape | shape
  · cases shape
  · cases shape with
    | given _ _ _ ta | givenAsking _ _ _ ta | surrendered _ _ _ ta => exact ta

theorem Pair.charged (h : Pair a b ab ba) (does : d.Does a ab ba a' ab' ba') :
    Charged (if d = .enter then 1 else 0) a ab ba a' ab' ba' := by
  cases d with
  | stay =>
    obtain ⟨rfl, rfl, rfl⟩ := does
    exact .of_frame (Nat.le_refl _) rfl rfl
  | ask =>
    obtain ⟨-, rfl, rfl, rfl⟩ := does
    exact .ask a ab ba'
  | takeFork =>
    obtain ⟨rfl, rfl, rfl⟩ := does
    exact .takeFork h.waiting_of_fork.1 h.token_of_fork
  | takeToken =>
    obtain ⟨waiting, rfl, rfl, rfl⟩ := does
    obtain ⟨-, fork, noToken, -⟩ := h.fork_of_token
    exact .takeToken waiting fork noToken
  | surrender =>
    obtain ⟨retired, rfl, rfl, rfl⟩ := does
    exact .surrender retired
  | enter =>
    obtain ⟨waiting, -, rfl, rfl, rfl⟩ := does
    refine .of_frame ?_ rfl rfl
    rw [if_pos rfl]
    exact (Bool.toNat_le _).trans (Nat.le_add_left _ _)
  | leave =>
    obtain ⟨⟨inside, fork⟩, rfl, rfl, rfl⟩ := does
    exact .leave inside fork ab ba'
  | retire =>
    obtain ⟨resting, rfl, rfl, rfl⟩ := does
    refine .of_frame ?_ rfl rfl
    rw [End.mayAsk_of_stage (a := a) (by simp [resting])]
    exact Bool.toNat_le _

/-- Requests are made by those who wait. -/
theorem Deed.Does.asking (does : d.Does a ab ba a' ab' ba') :
    ab'.count .token ≤ ab.count .token ∨ d = .ask ∧ a'.stage = .waiting := by
  cases d with
  | ask =>
    obtain ⟨-, rfl, -⟩ := does
    exact .inr ⟨rfl, rfl⟩
  | stay =>
    obtain ⟨-, rfl, -⟩ := does
    exact .inl (Nat.le_refl _)
  | takeFork =>
    obtain ⟨-, -, rfl⟩ := does
    exact .inl (Nat.le_refl _)
  | takeToken =>
    obtain ⟨-, -, -, rfl⟩ := does
    refine .inl ?_
    unfold End.takeTokenSends
    split <;> simp
  | surrender =>
    obtain ⟨-, -, -, rfl⟩ := does
    exact .inl (by simp)
  | enter =>
    obtain ⟨-, -, -, rfl, -⟩ := does
    exact .inl (Nat.le_refl _)
  | leave =>
    obtain ⟨-, -, rfl, -⟩ := does
    refine .inl ?_
    unfold End.leaveSends
    split <;> simp
  | retire =>
    obtain ⟨-, -, rfl, -⟩ := does
    exact .inl (Nat.le_refl _)

/-! ## At the table -/

section Table

variable {P : Type} [DecidableEq P] {s s' : State P} {p q : P} {op : Op P} {es : List (Event P)}

theorem Step.charged (step : Step s p op s') (h : Inv s) (ne : q ≠ p) :
    Charged (entries p (op.events p)) (s.side p q) (s.chan p q) (s.chan q p)
      (s'.side p q) (s'.chan p q) (s'.chan q p) := by
  have meals : entries p (op.events p) = if op.deed q = .enter then 1 else 0 := by
    rw [entries_events]
    simp [Op.deed_eq_enter]
  rw [meals]
  exact (h.pair p q ne.symm).charged (step.does q ne)

theorem Step.asking (step : Step s p op s') (ne : q ≠ p) :
    (s'.chan p q).count .token ≤ (s.chan p q).count .token ∨
      op.deed q = .ask ∧ (s'.side p q).stage = .waiting :=
  (step.does q ne).asking

theorem Steps.charged [Fintype P] (steps : Steps s p es s') (h : Inv s) (ne : q ≠ p) :
    Charged (entries p es) (s.side p q) (s.chan p q) (s.chan q p)
      (s'.side p q) (s'.chan p q) (s'.chan q p) := by
  cases steps with
  | one step => exact step.charged h ne
  | two _ first second =>
    rw [entries_append]
    exact (first.charged h ne).trans (second.charged (h.step first) ne)

/-- One who has just asked for a fork waits for it. -/
theorem Steps.asking (steps : Steps s p es s') (ne : q ≠ p) :
    (s'.chan p q).count .token ≤ (s.chan p q).count .token ∨
      (s'.side p q).stage = .waiting := by
  cases steps with
  | one step => exact (step.asking ne).imp id And.right
  | @two r _ _ _ _ taking first second =>
    rcases second.asking ne with second | second
    · rcases first.asking ne with first | ⟨asks, -⟩
      · exact .inl (Nat.le_trans second first)
      · rcases taking with rfl | rfl
        · by_cases eq : q = r <;> simp [Op.deed, eq] at asks
        · by_cases eq : q = r <;> simp [Op.deed, eq] at asks
    · exact .inr second.2

end Table

end Distra.Exclusion.Forks
