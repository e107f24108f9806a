import Distra.Pa4.ClockBound
import Distra.Pa4.Completion
import Distra.Pa4.Wires

/-!
# `pa4` over pipes

With 14 children at most no time stamp overflows, and a page of memory is enough for every pipe.
-/

namespace Distra.Pa4

open Network RequestQueue Ipc

variable {cfg : Config} {capacity : Nat} {W : PipedState (Process Mux) Message}

theorem fitsPipes (few : cfg.numChildren ≤ 14) (wide : 4096 ≤ capacity) :
    mutex.FitsPipes cfg (share 1) capacity where
  leaves := leaves
  sends := length_sent_le
  stamps r a b m mem := ((clock_le r).2 a b m mem).trans (clockLimit_le few)
  exclusive r := grants_exclusive (refined r).inv.grants
  room a b ha hb := by
    have := share_le 1 ha hb
    unfold headerSize textLimit
    omega

/-- Over pipes with room for 4096 bytes `pa4` does what it does over FIFO channels: no write is
refused, there is one child at most in its critical section, and as long as nobody has exited, two
children or more can go on to their end. -/
theorem lamport_over_pipes (few : cfg.numChildren ≤ 14) (wide : 4096 ≤ capacity)
    (run : PipedMutex cfg mutex capacity W) :
    SafeOverPipes cfg mutex W ∧ (2 ≤ cfg.numChildren → W.Living cfg.numChildren →
      EndsOverPipes cfg mutex capacity own W) :=
  ⟨(fitsPipes few wide).safe run, fun two => (fitsPipes few wide).ends (ends two) run⟩

/-- Two children go through their critical sections over pipes. -/
theorem lamport_over_pipes_two : ∃ W : PipedState (Process Mux) Message,
    PipedMutex twoChildren mutex 4096 W ∧ SafeOverPipes twoChildren mutex W ∧
      ∀ p ≤ 2, (W.loc p).pc = .exited := by
  obtain ⟨W, r, run, -, loc, ended, -⟩ :=
    (@lamport_over_pipes twoChildren 4096 _ (by decide) le_rfl .nil).2 (by decide)
      fun _ _ => nofun
  refine ⟨W, run, (lamport_over_pipes (by decide) le_rfl run).1, fun p le => ?_⟩
  rw [loc]
  exact ended.exited p le

end Distra.Pa4
