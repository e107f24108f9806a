import Distra.Pa4.Wires
import Distra.Pa6.ClockBound
import Distra.Pa6.Completion

/-!
# `pa6` over pipes

The only mutex with which a child alone comes to its end.
-/

namespace Distra.Pa6

open Network Exclusion Ipc

variable {cfg : Config} {capacity : Nat} {W : PipedState (Process Mux) Message}

theorem share_le {n a b : Nat} (hb : b ≤ n) : share a b ≤ 2 + 10 * n := by
  unfold share
  split
  · exact Nat.zero_le _
  · have := Nat.min_le_right a b
    omega

theorem fitsPipes (few : cfg.numChildren ≤ 15) (wide : 4096 ≤ capacity) :
    mutex.FitsPipes cfg share capacity where
  leaves := leaves
  sends := sends_le
  stamps r a b m mem :=
    ((metered r).timed.times a b m mem).trans ((handled_le r).trans (clockLimit_le few))
  exclusive r := (refined r).2.2.exclusive
  room a b _ hb := by
    have := @share_le cfg.numChildren a b hb
    unfold headerSize textLimit
    omega

/-- Over pipes with room for 4096 bytes `pa6` does what it does over FIFO channels: no write is
refused, there is one child at most in its critical section, and as long as nobody has exited, all
can go on to their end. -/
theorem forks_over_pipes (few : cfg.numChildren ≤ 15) (wide : 4096 ≤ capacity)
    (run : PipedMutex cfg mutex capacity W) :
    SafeOverPipes cfg mutex W ∧ (W.Living cfg.numChildren →
      EndsOverPipes cfg mutex capacity entryTime W) :=
  ⟨(fitsPipes few wide).safe run, (fitsPipes few wide).ends ends run⟩

/-- Two children go through their critical sections over pipes. -/
theorem forks_over_pipes_two : ∃ W : PipedState (Process Mux) Message,
    PipedMutex twoChildren mutex 4096 W ∧ SafeOverPipes twoChildren mutex W ∧
      ∀ p ≤ 2, (W.loc p).pc = .exited := by
  obtain ⟨W, r, run, -, loc, ended, -⟩ :=
    (@forks_over_pipes twoChildren 4096 _ (by decide) le_rfl .nil).2 fun _ _ => nofun
  refine ⟨W, run, (forks_over_pipes (by decide) le_rfl run).1, fun p le => ?_⟩
  rw [loc]
  exact ended.exited p le

end Distra.Pa6
