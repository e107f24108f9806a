import Distra.Pa6.Handovers

/-!
# What two children of `pa6` share

There is one fork for every two children, and one token as long as neither is done. What is not at
one of the two is in a message between them.
-/

namespace Distra.Pa6

open Network Exclusion

variable {cfg : Config}

theorem exactlyOne_of_toNat {x y : Bool} {n : Nat} (one : x.toNat + y.toNat + n = 1) :
    ExactlyOne (x = true) (y = true) (n = 1) := by
  have here (b : Bool) : 0 < b.toNat ↔ b = true := by cases b <;> decide
  have last : 0 < n ↔ n = 1 := by omega
  have places := exactlyOne_of_sum one
  rwa [here, here, last] at places

/-- The messages of a type that two processes have sent each other and not taken yet. -/
def between (type : MessageType) (s : ProcessState Mux) (i j : Nat) : Nat :=
  ofType type (s.transit i j) + ofType type (s.transit j i)

/-- The fork and the token of two children are in one place each. -/
structure SharedOnce (s : ProcessState Mux) (i j : Nat) : Prop where
  fork : ExactlyOne ((s.loc i).mux.hasFork j = true) ((s.loc j).mux.hasFork i = true)
    (between .csReply s i j = 1)
  token : ¬(s.loc i).pc.Finished → ¬(s.loc j).pc.Finished →
    ExactlyOne ((s.loc i).mux.hasRequest j = true) ((s.loc j).mux.hasRequest i = true)
      (between .csRequest s i j = 1)

/-- The traffic at the table is that of one type of messages. -/
theorem count_forkMsg {x : Forks.Msg} {type : MessageType}
    (only : ∀ t, forkMsg t = some x ↔ t = type) (l : List Message) :
    (l.filterMap (fun m => forkMsg m.type)).count x = ofType type l := by
  rw [List.count, List.countP_filterMap, ofType]
  refine List.countP_congr fun m _ => ?_
  cases seen : forkMsg m.type with
  | none => simp [← only, seen]
  | some y => simp [← only, seen]

theorem count_fork (l : List Message) :
    (l.filterMap (fun m => forkMsg m.type)).count .fork = ofType .csReply l :=
  count_forkMsg (fun t => by cases t <;> simp [forkMsg]) l

theorem count_token (l : List Message) :
    (l.filterMap (fun m => forkMsg m.type)).count .token = ofType .csRequest l :=
  count_forkMsg (fun t => by cases t <;> simp [forkMsg]) l

theorem stageOf_ne_retired {pc : Pc} (unfinished : ¬pc.Finished) : stageOf pc ≠ .retired := by
  intro retired
  apply unfinished
  cases pc <;> simp_all [stageOf, Pc.Finished]

section Pair

variable {s : ProcessState Mux} {os : List Observation}

theorem Refined.sharedOnce (h : Refined cfg s.view os) {i j : Nat}
    (hi : IsChild cfg.numChildren i) (hj : IsChild cfg.numChildren j) (ne : i ≠ j) :
    SharedOnce s i j := by
  have pair := h.pair hi hj ne
  constructor
  · have one := pair.one_fork
    rw [count_fork, count_fork] at one
    exact exactlyOne_of_toNat one
  · intro unfinished unfinished'
    have one := pair.one_token (stageOf_ne_retired unfinished) (stageOf_ne_retired unfinished')
    rw [count_token, count_token] at one
    exact exactlyOne_of_toNat one

end Pair

/-- Every two children share one fork and one token, and no child waits with a dirty fork that it
has been asked for. -/
theorem forks_shared_once (r : MutexRun cfg mutex) :
    (∀ i j, IsChild cfg.numChildren i → IsChild cfg.numChildren j → i ≠ j →
      SharedOnce r.final i j) ∧
    ∀ i j, IsChild cfg.numChildren i → IsChild cfg.numChildren j → i ≠ j →
      ∀ k, (r.final.loc i).pc = .requestCs k →
        ¬((r.final.loc i).mux.hasFork j = true ∧ (r.final.loc i).mux.forkDirty j = true ∧
          (r.final.loc i).mux.hasRequest j = true) := by
  obtain ⟨-, -, refined⟩ := refined r
  refine ⟨fun i j hi hj ne => refined.sharedOnce hi hj ne, fun i j hi hj ne _ _ => ?_⟩
  exact (refined.pair hi hj ne).not_asked_dirty

end Distra.Pa6
