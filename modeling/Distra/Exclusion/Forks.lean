import Distra.Network.Channels
import Mathlib.Algebra.Order.Group.Nat
import Mathlib.Data.Finset.Lattice.Fold
import Mathlib.Data.Fintype.Basic
import Mathlib.Data.Set.Subsingleton

/-!
# The dining philosophers

Every two processes share a fork and a token for asking for it. A fork is dirty from the moment its
holder has finished a meal with it. A dirty fork is given up when it is asked for, a clean one is
kept until the next meal is over. A process that has retired keeps no token.

The state of a pair is one of a few (`Shape`), by the places of the fork and of the token.
-/

namespace Distra.Exclusion.Forks

open Network Function

inductive Stage where
  | resting
  | waiting
  | inside
  | retired
  deriving DecidableEq

inductive Msg where
  | fork
  | token
  deriving DecidableEq

/-- What one process has of what it shares with another one. -/
structure End where
  stage : Stage
  fork : Bool
  dirty : Bool
  token : Bool

/-- The fork and the token of a pair, the fork being at `a` or on its way to `b`, with the channels
from `a` to `b` and back. -/
inductive Shape (a b : End) : List Msg → List Msg → Prop
  | unasked : a.fork = true → a.token = false → b.fork = false → b.token = true →
      (a.stage = .resting ∨ a.stage = .retired → a.dirty = true) → Shape a b [] []
  | asking : a.fork = true → a.token = false → b.fork = false → b.token = false →
      (a.stage = .resting ∨ a.stage = .retired → a.dirty = true) → b.stage = .waiting →
      Shape a b [] [.token]
  | asked : a.fork = true → a.token = true → b.fork = false → b.token = false →
      a.dirty = false → a.stage = .waiting ∨ a.stage = .inside → b.stage = .waiting →
      Shape a b [] []
  | kept : a.fork = true → a.token = false → b.fork = false → b.token = false →
      (a.stage = .resting ∨ a.stage = .retired → a.dirty = true) → b.stage = .retired →
      Shape a b [] []
  | given : a.fork = false → a.token = true → b.fork = false → b.token = false →
      a.stage ≠ .inside → b.stage = .waiting → Shape a b [.fork] []
  | givenAsking : a.fork = false → a.token = false → b.fork = false → b.token = false →
      a.stage = .waiting → b.stage = .waiting → Shape a b [.fork, .token] []
  | surrendered : a.fork = false → a.token = false → b.fork = false → b.token = false →
      a.stage = .retired → b.stage = .waiting → Shape a b [.fork] []

def Pair (a b : End) (ab ba : List Msg) : Prop := Shape a b ab ba ∨ Shape b a ba ab

/-- `a` comes before `b`: it has the fork clean, or gets it clean when it asks. -/
def Ahead (a b : End) (ba : List Msg) : Prop :=
  (a.fork = true ∧ a.dirty = false) ∨ (b.fork = true ∧ b.dirty = true) ∨ .fork ∈ ba

variable {a b : End} {ab ba rest : List Msg}

theorem Pair.symm (h : Pair a b ab ba) : Pair b a ba ab := Or.symm h

/-- The fork is at one end only. -/
theorem Pair.exclusive (h : Pair a b ab ba) : ¬(a.fork = true ∧ b.fork = true) := by
  rintro ⟨ha, hb⟩
  rcases h with shape | shape <;> cases shape <;> simp_all

theorem Pair.one_fork (h : Pair a b ab ba) :
    a.fork.toNat + b.fork.toNat + (ab.count .fork + ba.count .fork) = 1 := by
  rcases h with shape | shape
  · cases shape <;> simp_all
  · cases shape <;> simp_all

/-- Only who has retired drops the token. -/
theorem Pair.one_token (h : Pair a b ab ba) (ha : a.stage ≠ .retired) (hb : b.stage ≠ .retired) :
    a.token.toNat + b.token.toNat + (ab.count .token + ba.count .token) = 1 := by
  rcases h with shape | shape
  · cases shape <;> simp_all
  · cases shape <;> simp_all

/-- A dirty fork is given up when it is asked for. -/
theorem Pair.not_asked_dirty (h : Pair a b ab ba) :
    ¬(a.fork = true ∧ a.dirty = true ∧ a.token = true) := by
  rintro ⟨fork, dirty, token⟩
  rcases h with shape | shape
  · cases shape <;> simp_all
  · cases shape <;> simp_all

/-! ## What `a` does to the pair -/

/-- `a` asks for the fork if it can and has to. -/
def End.ask (a : End) : End := { a with stage := .waiting, token := a.token && a.fork }

def End.askSends (a : End) : List Msg := if a.token && !a.fork then [.token] else []

theorem Pair.ask (h : Pair a b ab ba) (active : a.stage = .resting ∨ a.stage = .waiting) :
    Pair a.ask b (ab ++ a.askSends) ba := by
  have running : a.stage ≠ .retired := by
    rcases active with stage | stage <;> simp [stage]
  rcases h with shape | shape
  · left
    cases shape with
    | unasked fa ta fb tb =>
      simpa [End.askSends, ta] using
        .unasked fa (by simp [End.ask, ta]) fb tb (by simp [End.ask])
    | asking fa ta fb tb _ wb =>
      simpa [End.askSends, ta] using .asking fa (by simp [End.ask, ta]) fb tb (by simp [End.ask]) wb
    | asked fa ta fb tb clean _ wb =>
      simpa [End.askSends, fa] using
        .asked fa (by simp [End.ask, fa, ta]) fb tb clean (.inl rfl) wb
    | kept fa ta fb tb _ rb =>
      simpa [End.askSends, ta] using .kept fa (by simp [End.ask, ta]) fb tb (by simp [End.ask]) rb
    | given fa ta fb tb _ wb =>
      simpa [End.askSends, fa, ta] using
        .givenAsking fa (by simp [End.ask, fa]) fb tb rfl wb
    | givenAsking fa ta fb tb _ wb =>
      simpa [End.askSends, ta] using .givenAsking fa (by simp [End.ask, ta]) fb tb rfl wb
    | surrendered _ _ _ _ retired => exact absurd retired running
  · right
    cases shape with
    | unasked fb tb fa ta rest =>
      simpa [End.askSends, fa, ta] using .asking fb tb fa (by simp [End.ask, fa]) rest rfl
    | asking fb tb fa ta rest _ =>
      simpa [End.askSends, ta] using .asking fb tb fa (by simp [End.ask, ta]) rest rfl
    | asked fb tb fa ta clean sb _ =>
      simpa [End.askSends, ta] using .asked fb tb fa (by simp [End.ask, ta]) clean sb rfl
    | kept _ _ _ _ _ retired => exact absurd retired running
    | given fb tb fa ta sb _ =>
      simpa [End.askSends, ta] using .given fb tb fa (by simp [End.ask, ta]) sb rfl
    | givenAsking fb tb fa ta sb _ =>
      simpa [End.askSends, ta] using .givenAsking fb tb fa (by simp [End.ask, ta]) sb rfl
    | surrendered fb tb fa ta sb _ =>
      simpa [End.askSends, ta] using .surrendered fb tb fa (by simp [End.ask, ta]) sb rfl

def End.takeFork (a : End) : End := { a with fork := true, dirty := false }

/-- A fork on its way to `a` is asked for. -/
theorem Pair.waiting_of_fork (h : Pair a b ab (.fork :: rest)) :
    a.stage = .waiting ∧ b.fork = false := by
  rcases h with shape | shape
  · cases shape
  · cases shape with
    | given fb _ _ _ _ wa => exact ⟨wa, fb⟩
    | givenAsking fb _ _ _ _ wa => exact ⟨wa, fb⟩
    | surrendered fb _ _ _ _ wa => exact ⟨wa, fb⟩

theorem Pair.waiting_of_mem_fork (h : Pair a b ab ba) (mem : .fork ∈ ba) : a.stage = .waiting := by
  rcases h with shape | shape
  · cases shape <;> simp at mem
  · cases shape with
    | given _ _ _ _ _ wa | givenAsking _ _ _ _ _ wa | surrendered _ _ _ _ _ wa => exact wa
    | unasked | asking | asked | kept => simp at mem

theorem Pair.takeFork (h : Pair a b ab (.fork :: rest)) : Pair a.takeFork b ab rest := by
  have waiting := h.waiting_of_fork.1
  have rests : a.takeFork.stage = .resting ∨ a.takeFork.stage = .retired →
      a.takeFork.dirty = true := by simp [End.takeFork, waiting]
  rcases h with shape | shape
  · cases shape
  · left
    cases shape with
    | given fb tb fa ta _ _ => exact .unasked rfl ta fb tb rests
    | givenAsking fb tb fa ta wb _ => exact .asking rfl ta fb tb rests wb
    | surrendered fb tb fa ta retired _ => exact .kept rfl ta fb tb rests retired

/-- `a`, while it waits, takes the token and gives a dirty fork up. -/
def End.takeToken (a : End) : End := { a with token := true, fork := a.fork && !a.dirty }

def End.takeTokenSends (a : End) : List Msg := if a.fork && a.dirty then [.fork] else []

/-- A token on its way to `a` asks for the fork that `a` has. -/
theorem Pair.fork_of_token (h : Pair a b ab (.token :: rest)) :
    Shape a b ab (.token :: rest) ∧ a.fork = true ∧ a.token = false ∧ b.fork = false ∧
      b.token = false ∧ b.stage = .waiting ∧ ab = [] ∧ rest = [] := by
  rcases h with shape | shape
  · refine ⟨shape, ?_⟩
    cases shape with
    | asking fa ta fb tb _ wb => exact ⟨fa, ta, fb, tb, wb, rfl, rfl⟩
  · cases shape

theorem Pair.takeToken (h : Pair a b ab (.token :: rest)) (waiting : a.stage = .waiting) :
    Pair a.takeToken b (ab ++ a.takeTokenSends) rest := by
  obtain ⟨-, fa, ta, fb, tb, wb, rfl, rfl⟩ := h.fork_of_token
  left
  cases dirty : a.dirty with
  | true =>
    simpa [End.takeTokenSends, fa, dirty] using
      .given (by simp [End.takeToken, dirty]) rfl fb tb (by simp [End.takeToken, waiting]) wb
  | false =>
    simpa [End.takeTokenSends, dirty] using
      .asked (by simp [End.takeToken, fa, dirty]) rfl fb tb dirty (.inl waiting) wb

/-- `a`, when it has retired, gives the fork up and keeps no token. -/
def End.surrender (a : End) : End := { a with fork := false }

theorem Pair.surrender (h : Pair a b ab (.token :: rest)) (retired : a.stage = .retired) :
    Pair a.surrender b (ab ++ [.fork]) rest := by
  obtain ⟨-, fa, ta, fb, tb, wb, rfl, rfl⟩ := h.fork_of_token
  exact .inl (.surrendered rfl ta fb tb retired wb)

def End.enter (a : End) : End := { a with stage := .inside }

/-- The fork is at hand and need not be given up. -/
def End.Ready (a : End) : Prop := a.fork = true ∧ ¬(a.dirty = true ∧ a.token = true)

theorem Pair.enter (h : Pair a b ab ba) (waiting : a.stage = .waiting) (ready : a.Ready) :
    Pair a.enter b ab ba := by
  have rests : a.enter.stage = .resting ∨ a.enter.stage = .retired → a.enter.dirty = true := by
    simp [End.enter]
  have fork := ready.1
  rcases h with shape | shape
  · left
    cases shape with
    | unasked fa ta fb tb _ => exact .unasked fa ta fb tb rests
    | asking fa ta fb tb _ wb => exact .asking fa ta fb tb rests wb
    | asked fa ta fb tb clean _ wb => exact .asked fa ta fb tb clean (.inr rfl) wb
    | kept fa ta fb tb _ rb => exact .kept fa ta fb tb rests rb
    | given fa => simp [fork] at fa
    | givenAsking fa => simp [fork] at fa
    | surrendered fa => simp [fork] at fa
  · cases shape <;> simp_all

/-- The meal is over: the fork is dirty, and given up if it has been asked for. -/
def End.leave (a : End) : End :=
  { a with stage := .resting, dirty := true, fork := a.fork && !a.token }

def End.leaveSends (a : End) : List Msg := if a.token then [.fork] else []

theorem Pair.leave (h : Pair a b ab ba) (inside : a.stage = .inside) (fork : a.fork = true) :
    Pair a.leave b (ab ++ a.leaveSends) ba := by
  rcases h with shape | shape
  · left
    cases shape with
    | unasked fa ta fb tb _ =>
      simpa [End.leaveSends, ta] using
        .unasked (by simp [End.leave, fa, ta]) ta fb tb (fun _ => rfl)
    | asking fa ta fb tb _ wb =>
      simpa [End.leaveSends, ta] using
        .asking (by simp [End.leave, fa, ta]) ta fb tb (fun _ => rfl) wb
    | asked fa ta fb tb clean _ wb =>
      simpa [End.leaveSends, ta] using
        .given (by simp [End.leave, ta]) ta fb tb (by simp [End.leave]) wb
    | kept fa ta fb tb _ rb =>
      simpa [End.leaveSends, ta] using
        .kept (by simp [End.leave, fa, ta]) ta fb tb (fun _ => rfl) rb
    | given fa => simp [fork] at fa
    | givenAsking fa => simp [fork] at fa
    | surrendered fa => simp [fork] at fa
  · cases shape <;> simp_all

def End.retire (a : End) : End := { a with stage := .retired }

theorem Pair.retire (h : Pair a b ab ba) (resting : a.stage = .resting) :
    Pair a.retire b ab ba := by
  rcases h with shape | shape
  · left
    cases shape with
    | unasked fa ta fb tb dirty => exact .unasked fa ta fb tb (fun _ => dirty (.inl resting))
    | asking fa ta fb tb dirty wb => exact .asking fa ta fb tb (fun _ => dirty (.inl resting)) wb
    | asked _ _ _ _ _ active => simp [resting] at active
    | kept fa ta fb tb dirty rb => exact .kept fa ta fb tb (fun _ => dirty (.inl resting)) rb
    | given fa ta fb tb _ wb => exact .given fa ta fb tb (by simp [End.retire]) wb
    | givenAsking _ _ _ _ waiting => simp [resting] at waiting
    | surrendered _ _ _ _ retired => simp [resting] at retired
  · right
    cases shape with
    | unasked fb tb fa ta dirty => exact .unasked fb tb fa ta dirty
    | asking _ _ _ _ _ waiting => simp [resting] at waiting
    | asked _ _ _ _ _ _ waiting => simp [resting] at waiting
    | kept fb tb fa ta dirty _ => exact .kept fb tb fa ta dirty rfl
    | given _ _ _ _ _ waiting => simp [resting] at waiting
    | givenAsking _ _ _ _ _ waiting => simp [resting] at waiting
    | surrendered _ _ _ _ _ waiting => simp [resting] at waiting

/-- What `a` can do to one pair. -/
inductive Deed where
  | stay
  | ask
  | takeFork
  | takeToken
  | surrender
  | enter
  | leave
  | retire
  deriving DecidableEq

/-- The deed takes the end `a` with the channels `ab` and `ba` to `a'`, `ab'` and `ba'`. -/
def Deed.Does (a : End) (ab ba : List Msg) (a' : End) (ab' ba' : List Msg) : Deed → Prop
  | .stay => a' = a ∧ ab' = ab ∧ ba' = ba
  | .ask => (a.stage = .resting ∨ a.stage = .waiting) ∧
      a' = a.ask ∧ ab' = ab ++ a.askSends ∧ ba' = ba
  | .takeFork => ba = .fork :: ba' ∧ a' = a.takeFork ∧ ab' = ab
  | .takeToken => a.stage = .waiting ∧
      ba = .token :: ba' ∧ a' = a.takeToken ∧ ab' = ab ++ a.takeTokenSends
  | .surrender => a.stage = .retired ∧
      ba = .token :: ba' ∧ a' = a.surrender ∧ ab' = ab ++ [.fork]
  | .enter => a.stage = .waiting ∧ a.Ready ∧ a' = a.enter ∧ ab' = ab ∧ ba' = ba
  | .leave => (a.stage = .inside ∧ a.fork = true) ∧
      a' = a.leave ∧ ab' = ab ++ a.leaveSends ∧ ba' = ba
  | .retire => a.stage = .resting ∧ a' = a.retire ∧ ab' = ab ∧ ba' = ba

variable {a' : End} {ab' ba' : List Msg} {d : Deed}

theorem Pair.does (h : Pair a b ab ba) (does : d.Does a ab ba a' ab' ba') : Pair a' b ab' ba' := by
  cases d with
  | stay =>
    obtain ⟨rfl, rfl, rfl⟩ := does
    exact h
  | ask =>
    obtain ⟨active, rfl, rfl, rfl⟩ := does
    exact h.ask active
  | takeFork =>
    obtain ⟨rfl, rfl, rfl⟩ := does
    exact h.takeFork
  | takeToken =>
    obtain ⟨waiting, rfl, rfl, rfl⟩ := does
    exact h.takeToken waiting
  | surrender =>
    obtain ⟨retired, rfl, rfl, rfl⟩ := does
    exact h.surrender retired
  | enter =>
    obtain ⟨waiting, ready, rfl, rfl, rfl⟩ := does
    exact h.enter waiting ready
  | leave =>
    obtain ⟨⟨inside, fork⟩, rfl, rfl, rfl⟩ := does
    exact h.leave inside fork
  | retire =>
    obtain ⟨resting, rfl, rfl, rfl⟩ := does
    exact h.retire resting

/-! ## Precedence -/

/-- Only the end of a meal changes who comes first. -/
theorem Pair.ahead_does (h : Pair a b ab ba) (does : d.Does a ab ba a' ab' ba')
    (other : d ≠ .leave) :
    (Ahead a' b ba' → Ahead a b ba) ∧ (Ahead b a' ab' → Ahead b a ab) := by
  cases d with
  | stay =>
    obtain ⟨rfl, rfl, rfl⟩ := does
    exact ⟨id, id⟩
  | ask =>
    obtain ⟨-, rfl, rfl, rfl⟩ := does
    refine ⟨id, ?_⟩
    have none_ : .fork ∉ a.askSends := by
      unfold End.askSends
      split <;> simp
    simp [Ahead, none_, End.ask]
  | takeFork =>
    obtain ⟨rfl, rfl, rfl⟩ := does
    refine ⟨fun _ => .inr (.inr (by simp)), ?_⟩
    rintro (clean | ⟨-, dirty⟩ | sent)
    · exact .inl clean
    · cases dirty
    · exact .inr (.inr sent)
  | takeToken =>
    obtain ⟨waiting, rfl, rfl, rfl⟩ := does
    obtain ⟨-, fa, -, fb, -, -, rfl, rfl⟩ := h.fork_of_token
    cases dirty : a.dirty <;>
      simp [Ahead, End.takeToken, End.takeTokenSends, fa, fb, dirty]
  | surrender =>
    obtain ⟨retired, rfl, rfl, rfl⟩ := does
    obtain ⟨shape, fa, -, fb, -, -, rfl, rfl⟩ := h.fork_of_token
    have dirty : a.dirty = true := by
      cases shape with
      | asking _ _ _ _ dirty _ => exact dirty (.inr retired)
    simp [Ahead, End.surrender, fa, fb, dirty]
  | enter =>
    obtain ⟨-, -, rfl, rfl, rfl⟩ := does
    exact ⟨id, id⟩
  | leave => exact absurd rfl other
  | retire =>
    obtain ⟨-, rfl, rfl, rfl⟩ := does
    exact ⟨id, id⟩

/-- After a meal `a` comes second. -/
theorem Pair.not_ahead_leave (h : Pair a b ab ba) (does : Deed.leave.Does a ab ba a' ab' ba') :
    ¬Ahead a' b ba' := by
  obtain ⟨⟨inside, fork⟩, rfl, rfl, rfl⟩ := does
  rintro (⟨-, clean⟩ | ⟨fb, -⟩ | sent)
  · cases clean
  · exact h.exclusive ⟨fork, fb⟩
  · rcases h with shape | shape
    · cases shape <;> simp_all
    · cases shape <;> simp_all

/-! ## A request of `b` that `a` has taken -/

/-- `b` has the fork for its next meal, or `a` has sent it. -/
def Served (b : End) (ab : List Msg) : Prop :=
  b.stage = .waiting ∧ (.fork ∈ ab ∨ b.fork = true ∧ b.dirty = false)

/-- `a` gives the fork to `b` after its meal. -/
def Owes (a b : End) : Prop :=
  a.fork = true ∧ a.token = true ∧ b.stage = .waiting

/-- `a` has eaten `k` times since it took the request of `b`. -/
def Watch (k : ℕ) (a b : End) (ab : List Msg) : Prop :=
  k ≤ 1 ∧ (Served b ab ∨ Owes a b ∧ (a.stage = .inside ∨ k = 0))

/-- A fork that is served is not with the other one, and nothing comes from there. -/
theorem Pair.of_served (h : Pair a b ab ba) (served : Served b ab) :
    a.fork = false ∧ ba = [] := by
  obtain ⟨-, sent | ⟨fb, -⟩⟩ := served
  · rcases h with shape | shape
    · cases shape with
      | unasked | asking | asked | kept => cases sent
      | given fa | givenAsking fa | surrendered fa => exact ⟨fa, rfl⟩
    · cases shape <;> simp at sent
  · rcases h with shape | shape
    · cases shape <;> simp_all
    · cases shape with
      | unasked _ _ fa | asking _ _ fa | asked _ _ fa | kept _ _ fa => exact ⟨fa, rfl⟩
      | given fb' | givenAsking fb' | surrendered fb' => simp [fb] at fb'

/-- A fork that is owed is kept for a meal of its holder. -/
theorem Pair.of_owes (h : Pair a b ab ba) (owes : Owes a b) :
    (ab = [] ∧ ba = []) ∧ b.fork = false ∧ (a.stage = .waiting ∨ a.stage = .inside) := by
  obtain ⟨fa, ta, -⟩ := owes
  rcases h with shape | shape
  · cases shape with
    | asked _ _ fb _ _ active => exact ⟨⟨rfl, rfl⟩, fb, active⟩
    | unasked _ ta' | asking _ ta' | kept _ ta' => simp [ta] at ta'
    | given fa' | givenAsking fa' | surrendered fa' => simp [fa] at fa'
  · cases shape <;> simp_all

/-- Once `a` has taken the request, the fork is sent or owed. -/
theorem Pair.watch (h : Pair a b ab ba) (does : d.Does a ab ba a' ab' ba')
    (takes : d = .takeToken ∨ d = .surrender) : Watch 0 a' b ab' := by
  refine ⟨Nat.zero_le 1, ?_⟩
  rcases takes with rfl | rfl
  · obtain ⟨waiting, rfl, rfl, rfl⟩ := does
    obtain ⟨-, fa, -, -, -, wb, rfl, -⟩ := h.fork_of_token
    cases dirty : a.dirty with
    | true => exact .inl ⟨wb, .inl (by simp [End.takeTokenSends, fa, dirty])⟩
    | false => exact .inr ⟨⟨by simp [End.takeToken, fa, dirty], rfl, wb⟩, .inr rfl⟩
  · obtain ⟨retired, rfl, rfl, rfl⟩ := does
    obtain ⟨-, -, -, -, -, wb, rfl, -⟩ := h.fork_of_token
    exact .inl ⟨wb, .inl (by simp)⟩

/-- `a` eats at most once before it gives the fork up. -/
theorem Watch.giver {k : ℕ} (watch : Watch k a b ab) (h : Pair a b ab ba)
    (does : d.Does a ab ba a' ab' ba') : Watch (if d = .enter then k + 1 else k) a' b ab' := by
  obtain ⟨le, served | ⟨owes, early⟩⟩ := watch
  · obtain ⟨fa, rfl⟩ := h.of_served served
    obtain ⟨wb, fork⟩ := served
    cases d with
    | stay =>
      obtain ⟨rfl, rfl, -⟩ := does
      exact ⟨le, .inl ⟨wb, fork⟩⟩
    | ask =>
      obtain ⟨-, -, rfl, -⟩ := does
      exact ⟨le, .inl ⟨wb, fork.imp (List.mem_append_left _) id⟩⟩
    | takeFork => cases does.1
    | takeToken => cases does.2.1
    | surrender => cases does.2.1
    | enter => exact absurd does.2.1.1 (by simp [fa])
    | leave => exact absurd does.1.2 (by simp [fa])
    | retire =>
      obtain ⟨-, -, rfl, -⟩ := does
      exact ⟨le, .inl ⟨wb, fork⟩⟩
  · obtain ⟨⟨rfl, rfl⟩, fb, active⟩ := h.of_owes owes
    obtain ⟨fa, ta, wb⟩ := owes
    cases d with
    | stay =>
      obtain ⟨rfl, rfl, -⟩ := does
      exact ⟨le, .inr ⟨⟨fa, ta, wb⟩, early⟩⟩
    | ask =>
      obtain ⟨outside, rfl, -, -⟩ := does
      refine ⟨le, .inr ⟨⟨fa, by simp [End.ask, ta, fa], wb⟩, .inr (early.resolve_left ?_)⟩⟩
      rcases outside with stage | stage <;> simp [stage]
    | takeFork => cases does.1
    | takeToken => cases does.2.1
    | surrender => cases does.2.1
    | enter =>
      -- The meal that the token has to wait for.
      obtain ⟨waiting, -, rfl, -, -⟩ := does
      have none_yet : k = 0 := early.resolve_left (by simp [waiting])
      exact ⟨by simp [none_yet], .inr ⟨⟨fa, ta, wb⟩, .inl rfl⟩⟩
    | leave =>
      obtain ⟨-, -, rfl, -⟩ := does
      exact ⟨le, .inl ⟨wb, .inl (by simp [End.leaveSends, ta])⟩⟩
    | retire =>
      rcases active with stage | stage <;> simp [does.1] at stage

/-- `b` keeps what it is served until its own meal. -/
theorem Watch.asker {k : ℕ} {b' : End} (watch : Watch k a b ab) (h : Pair a b ab ba)
    (does : d.Does b ba ab b' ba' ab') (other : d ≠ .enter) : Watch k a b' ab' := by
  have waiting : b.stage = .waiting := by
    rcases watch.2 with served | ⟨owes, -⟩
    · exact served.1
    · exact owes.2.2
  obtain ⟨le, watch⟩ := watch
  refine ⟨le, ?_⟩
  cases d with
  | stay =>
    obtain ⟨rfl, -, rfl⟩ := does
    exact watch
  | ask =>
    obtain ⟨-, rfl, -, rfl⟩ := does
    refine watch.imp (fun served => ⟨rfl, served.2⟩) ?_
    rintro ⟨⟨fa, ta, -⟩, early⟩
    exact ⟨⟨fa, ta, rfl⟩, early⟩
  | takeFork =>
    obtain ⟨rfl, rfl, -⟩ := does
    rcases watch with - | ⟨owes, -⟩
    · exact .inl ⟨waiting, .inr ⟨rfl, rfl⟩⟩
    · cases (h.of_owes owes).1.1
  | takeToken =>
    obtain ⟨-, rfl, rfl, -⟩ := does
    obtain ⟨-, fb, -, fa, -, -, -, rfl⟩ := h.symm.fork_of_token
    rcases watch with ⟨-, sent | clean⟩ | ⟨owes, -⟩
    · simp at sent
    · exact .inl ⟨waiting, .inr ⟨by simp [End.takeToken, clean], clean.2⟩⟩
    · simp [owes.1] at fa
  | surrender => simp [does.1] at waiting
  | enter => exact absurd rfl other
  | leave => simp [does.1.1] at waiting
  | retire => simp [does.1] at waiting

end Distra.Exclusion.Forks
