import Distra.Pa4.Departures
import Distra.Pa6.ClockBound

/-!
# The shutdown of `pa6`

A fork is on its way only to a child that waits for it, so no child ends with a fork under way.
-/

namespace Distra.Pa6

open Network Exclusion

variable {cfg : Config}

theorem take_dests {p q : Nat} {m : Message} {verdict : Verdict} {l l' : Locals} {out : Sends}
    (h : requestCsTake cfg p l q m = some (verdict, l', out)) :
    ∀ x ∈ out, x.1 = q ∨ IsChild cfg.numChildren x.1 ∧ x.1 ≠ p := by
  rcases requestCsTake_some h with ⟨l₁, out₁, serves, round⟩ | ⟨-, -, -, rfl⟩
  · obtain ⟨out₂, rfl, stamped⟩ := endRound_stamped round
    intro x mem
    rcases List.mem_append.mp mem with mem | mem
    · cases serves with
      | fork | keep => cases mem
      | giveUp =>
        rw [List.mem_singleton.mp mem]
        exact .inl rfl
    · exact .inr (stamped.dests x mem)
  · exact nofun

theorem handle_replies {p q : Nat} {m : Message} {verdict : Verdict} {l l' : Locals} {out : Sends}
    (h : handleCsRequests cfg p l q m = some (verdict, l', out)) :
    ∀ x ∈ out, x.1 = q ∧ x.2.type = .csReply := by
  have h := (@handleCsRequests_eq cfg p l q m).symm.trans h
  split at h
  next =>
    split at h <;> cases h
    intro x mem
    rw [List.mem_singleton.mp mem]
    exact ⟨rfl, rfl⟩
  next =>
    cases h
    exact nofun

theorem requestCs_dests {p : Nat} {l l' : Locals} {out : Sends}
    (h : requestCs cfg p l = some (l', out)) :
    ∀ x ∈ out, IsChild cfg.numChildren x.1 ∧ x.1 ≠ p :=
  (requestForks_stamped _ children_of_range h).dests

theorem empty_dests {p : Nat} {verdict : Verdict} {l l' : Locals} {out : Sends}
    (h : requestCsEmpty cfg p l = some (verdict, l', out)) :
    ∀ x ∈ out, IsChild cfg.numChildren x.1 ∧ x.1 ≠ p := by
  obtain ⟨out₁, rfl, stamped⟩ := endRound_stamped h
  exact stamped.dests

theorem releaseCs_dests {p : Nat} {l l' : Locals} {out : Sends}
    (h : releaseCs cfg p l = some (l', out)) :
    ∀ x ∈ out, IsChild cfg.numChildren x.1 ∧ x.1 ≠ p :=
  (releaseForks_stamped _ children_of_range h).dests

theorem mutex_outward : mutex.Outward where
  requestCs_ne h x mem := (requestCs_dests h x mem).2
  take_ne ne h x mem := (take_dests h x mem).elim (fun eq => eq ▸ ne) And.right
  empty_ne h x mem := (empty_dests h x mem).2
  release_ne h x mem := (releaseCs_dests h x mem).2
  handle_ne {cfg p _ _ _ _ _ _} ne h x mem :=
    (@handle_replies cfg p _ _ _ _ _ _ h x mem).1 ▸ ne
  handle_reply {cfg p _ _ _ _ _ _} h x mem := (@handle_replies cfg p _ _ _ _ _ _ h x mem).2

theorem mutex_among : mutex.Among where
  requestCs h x mem := (requestCs_dests h x mem).1
  take child h x mem := (take_dests h x mem).elim (fun eq => eq ▸ child) And.left
  empty h x mem := (empty_dests h x mem).1
  release h x mem := (releaseCs_dests h x mem).1
  handle {cfg p _ _ _ _ _ _} child h x mem :=
    (@handle_replies cfg p _ _ _ _ _ _ h x mem).1 ▸ child

theorem settled (r : MutexRun cfg mutex) : Settled cfg r.final.view := by
  intro p q child qchild ne finished m mem type
  obtain ⟨i, pc⟩ := (refined r).2.2.handsOver.replied p q child qchild ne ⟨m, mem, type⟩
  rcases finished with k | k <;> cases pc.symm.trans k

theorem leaves : mutex.Leaves cfg := ⟨mutex_lawful, mutex_outward, mutex_among, unfailing, settled⟩

/-- The parent gets the messages that it waits for. A process ends after all children have gone
through their critical sections and have announced their end to it, and then it is left alone. -/
theorem forks_shutdown (r : MutexRun cfg mutex) :
    (r.final.loc parentId).pc.Oversees ∧
      ∀ p ≤ cfg.numChildren, (r.final.loc p).pc = .exited → r.Departed entryTime p := by
  obtain ⟨-, counted, -⟩ := refined r
  exact ⟨(r.announces leaves).oversees, fun p le exited => r.departed leaves counted le exited⟩

end Distra.Pa6
