import Distra.Pa4.Wires
import Distra.Pa5.ClockBound
import Distra.Pa5.Completion

/-!
# `pa5` over pipes

There are no releases, and so the time stamps do not overflow with any number of children that the
arrays have room for.
-/

namespace Distra.Pa5

open Network RequestQueue Exclusion RicartAgrawala Ipc

variable {cfg : Config} {capacity : Nat} {W : PipedState (Process Mux) Message}

theorem fitsPipes (few : cfg.numChildren ≤ 15) (wide : 4096 ≤ capacity) :
    mutex.FitsPipes cfg (share 0) capacity where
  leaves := leaves
  sends := length_sent_le
  stamps r a b m mem := ((clock_le r).2 a b m mem).trans (clockLimit_le few)
  exclusive r := grants_exclusive (refined r).inv.grants
  room a b ha hb := by
    have := share_le 0 ha hb
    unfold headerSize textLimit
    omega

/-- Over pipes with room for 4096 bytes `pa5` does what it does over FIFO channels: no write is
refused, there is one child at most in its critical section, and as long as nobody has exited, two
children or more can go on to their end. -/
theorem ricart_over_pipes (few : cfg.numChildren ≤ 15) (wide : 4096 ≤ capacity)
    (run : PipedMutex cfg mutex capacity W) :
    SafeOverPipes cfg mutex W ∧ (2 ≤ cfg.numChildren → W.Living cfg.numChildren →
      EndsOverPipes cfg mutex capacity own W) :=
  ⟨(fitsPipes few wide).safe run, fun two => (fitsPipes few wide).ends (ends two) run⟩

/-- Two children go through their critical sections over pipes. -/
theorem ricart_over_pipes_two : ∃ W : PipedState (Process Mux) Message,
    PipedMutex twoChildren mutex 4096 W ∧ SafeOverPipes twoChildren mutex W ∧
      ∀ p ≤ 2, (W.loc p).pc = .exited := by
  obtain ⟨W, r, run, -, loc, ended, -⟩ :=
    (@ricart_over_pipes twoChildren 4096 _ (by decide) le_rfl .nil).2 (by decide)
      fun _ _ => nofun
  refine ⟨W, run, (ricart_over_pipes (by decide) le_rfl run).1, fun p le => ?_⟩
  rw [loc]
  exact ended.exited p le

end Distra.Pa5
