import Mathlib.Data.List.Basic
import Mathlib.Order.Basic

/-!
# Channels with a script

A sender that writes the same messages in every run. Its channel holds those that it has written
and that the receiver has not taken.
-/

namespace Distra.Network

universe u
variable {T : Type u}

/-- The channel `l` when the sender has written `sent` messages of its script, and the receiver has
taken `taken` of them. -/
structure Scripted (script : List T) (sent taken : Nat) (l : List T) : Prop where
  le : taken ≤ sent
  short : sent ≤ script.length
  eq : l = (script.take sent).drop taken

variable {script l got rest : List T} {sent taken : Nat} {x : T}

theorem Scripted.start (script : List T) : Scripted script 0 0 [] :=
  ⟨Nat.le_refl _, Nat.zero_le _, rfl⟩

/-- The sender writes its next message. -/
theorem Scripted.emit (h : Scripted script sent taken l) (next : script[sent]? = some x) :
    Scripted script (sent + 1) taken (l ++ [x]) := by
  have more := (List.getElem?_eq_some_iff.mp next).1
  refine ⟨Nat.le_succ_of_le h.le, more, ?_⟩
  rw [List.take_add_one, next, Option.toList_some, List.drop_append_of_le_length, h.eq]
  rw [List.length_take, Nat.min_eq_left h.short]
  exact h.le

/-- The receiver takes the messages that the script says. -/
theorem Scripted.take (h : Scripted script sent taken (got ++ l)) :
    Scripted script sent (taken + got.length) l ∧
      script.take (taken + got.length) = script.take taken ++ got := by
  have len := congrArg List.length h.eq
  rw [List.length_append, List.length_drop, List.length_take, Nat.min_eq_left h.short] at len
  have le := h.le
  refine ⟨⟨by omega, h.short, ?_⟩, ?_⟩
  · have rest := congrArg (List.drop got.length) h.eq
    rwa [List.drop_left, List.drop_drop] at rest
  · have front := congrArg (List.take got.length) h.eq
    rw [List.take_left, List.take_drop, List.take_take, Nat.min_eq_left (by omega),
      List.drop_take, Nat.add_sub_cancel_left] at front
    rw [List.take_add, ← front]

theorem Scripted.head (h : Scripted script sent taken (x :: rest)) : script[taken]? = some x := by
  have took := (@Scripted.take T script rest [x] sent taken h).2
  rw [List.length_singleton, List.take_add_one] at took
  exact Option.toList_eq_singleton_iff.mp (List.append_cancel_left took)

/-- What has been written and not taken is there. -/
theorem Scripted.exists_head (h : Scripted script sent taken l) (waits : taken < sent) :
    ∃ x rest, l = x :: rest := by
  have more : taken < (script.take sent).length := by
    rw [List.length_take, Nat.min_eq_left h.short]
    exact waits
  exact ⟨_, _, h.eq.trans (List.drop_eq_getElem_cons more)⟩

theorem Scripted.eq_nil (h : Scripted script sent taken l) (all : sent ≤ taken) : l = [] := by
  rw [h.eq]
  apply List.drop_eq_nil_of_le
  rw [List.length_take, Nat.min_eq_left h.short]
  exact all

end Distra.Network
