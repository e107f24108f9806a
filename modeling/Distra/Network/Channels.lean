import Mathlib.Data.List.Basic
import Mathlib.Logic.Function.Basic

/-!
# FIFO channels

One unbounded FIFO channel for every ordered pair of processes. `post` appends what one
process sends, `pop` removes the head of one channel, and `filterMap` keeps the part of the
traffic that a coarser description talks about.
-/

namespace Distra.Network

universe u v w
variable {P : Type u} {M : Type v} {N : Type w}

abbrev Channels (P : Type u) (M : Type v) := P → P → List M

/-- The messages of an output buffer that go to `b`, in the order they were written. -/
def outTo [DecidableEq P] (out : List (P × M)) (b : P) : List M :=
  out.filterMap (fun x => if x.1 = b then some x.2 else none)

section OutTo
variable [DecidableEq P]

@[simp] theorem outTo_nil (b : P) : outTo ([] : List (P × M)) b = [] := rfl

@[simp] theorem outTo_nil_fun : outTo ([] : List (P × M)) = fun _ => [] := rfl

@[simp] theorem outTo_append (out out' : List (P × M)) (b : P) :
    outTo (out ++ out') b = outTo out b ++ outTo out' b := by
  simp [outTo]

theorem outTo_cons (x : P × M) (out : List (P × M)) (b : P) :
    outTo (x :: out) b = (if x.1 = b then [x.2] else []) ++ outTo out b := by
  by_cases h : x.1 = b <;> simp [outTo, h]

/-- A multicast reaches every destination exactly once. -/
theorem outTo_multicast (dsts : List P) (nodup : dsts.Nodup) (m : M) (b : P) :
    outTo (dsts.map (fun d => (d, m))) b = if b ∈ dsts then [m] else [] := by
  induction dsts with
  | nil => simp
  | cons d ds ih =>
    rw [List.map_cons, outTo_cons, ih (List.nodup_cons.mp nodup).2]
    have fresh : d ∉ ds := (List.nodup_cons.mp nodup).1
    by_cases h : d = b
    · subst h
      simp [fresh]
    · simp [h, Ne.symm h]

theorem mem_outTo {out : List (P × M)} {b : P} {m : M} :
    m ∈ outTo out b ↔ (b, m) ∈ out := by
  simp [outTo, List.mem_filterMap]

end OutTo

namespace Channels

variable [DecidableEq P]

/-- `p` appends `out b` to its channel towards every `b`. -/
def post (c : Channels P M) (p : P) (out : P → List M) : Channels P M :=
  fun a b => if a = p then c a b ++ out b else c a b

/-- Remove the head of the channel from `q` to `p`. -/
def pop (c : Channels P M) (q p : P) : Channels P M :=
  fun a b => if a = q ∧ b = p then (c a b).tail else c a b

/-- Keep, channel by channel, what `f` keeps. -/
def filterMap (f : M → Option N) (c : Channels P M) : Channels P N :=
  fun a b => (c a b).filterMap f

@[simp] theorem post_self (c : Channels P M) (p : P) (out : P → List M) (b : P) :
    c.post p out p b = c p b ++ out b := by simp [post]

theorem post_ne (c : Channels P M) {p a : P} (h : a ≠ p) (out : P → List M) (b : P) :
    c.post p out a b = c a b := by simp [post, h]

@[simp] theorem post_nil (c : Channels P M) (p : P) : c.post p (fun _ => []) = c := by
  funext a b
  by_cases h : a = p <;> simp [post, h]

theorem post_post (c : Channels P M) (p : P) (out out' : P → List M) :
    (c.post p out).post p out' = c.post p (fun b => out b ++ out' b) := by
  funext a b
  by_cases h : a = p <;> simp [post, h]

theorem pop_head (c : Channels P M) (q p : P) : c.pop q p q p = (c q p).tail := by simp [pop]

theorem pop_ne (c : Channels P M) {q p a b : P} (h : ¬(a = q ∧ b = p)) :
    c.pop q p a b = c a b := by simp only [pop, h, if_false]

omit [DecidableEq P] in
@[simp] theorem filterMap_apply (f : M → Option N) (c : Channels P M) (a b : P) :
    c.filterMap f a b = (c a b).filterMap f := rfl

theorem filterMap_pop_some (f : M → Option N) (c : Channels P M) {q p : P} {m : M}
    {rest : List M} {n : N} (head : c q p = m :: rest) (kept : f m = some n) :
    (c.pop q p).filterMap f = (c.filterMap f).pop q p := by
  funext a b
  by_cases h : a = q ∧ b = p
  · obtain ⟨rfl, rfl⟩ := h
    simp [pop, head, kept]
  · simp [pop, h]

theorem filterMap_pop_none (f : M → Option N) (c : Channels P M) {q p : P} {m : M}
    {rest : List M} (head : c q p = m :: rest) (dropped : f m = none) :
    (c.pop q p).filterMap f = c.filterMap f := by
  funext a b
  by_cases h : a = q ∧ b = p
  · obtain ⟨rfl, rfl⟩ := h
    simp [pop, head, dropped]
  · simp [pop, h]

end Channels

end Distra.Network
