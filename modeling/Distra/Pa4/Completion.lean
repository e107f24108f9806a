import Distra.Pa4.Messages
import Distra.Pa4.MutexProgress
import Distra.Pa4.Termination

/-!
# `pa4` comes to its end

With two children or more all processes end, and then nothing is left in the channels. A child
alone waits for ever.
-/

namespace Distra.Pa4

open Network RequestQueue

variable {cfg : Config}

theorem length_sent_le (r : MutexRun cfg mutex) (a b : Nat) :
    (r.traffic.sent a b).length ≤ share 1 a b :=
  r.length_sent_le leaves balanced (fun r p child => ((reached r).counted p child).1)
    (fun p pc range => by
      rw [Nat.one_mul]
      exact (Nat.sub_le _ _).trans ((Nat.le_add_right _ _).trans (Pc.asked_le range))) a b

theorem ends (two : 2 ≤ cfg.numChildren) : mutex.Ends cfg own (share 1) where
  leaves := leaves
  polls _ _ _ _ _ _ _ _ found _ := (pollAgain_waits found).2
  counted r := (reached r).counted
  sends := length_sent_le
  goesOn := completed_or_canStep two

end Distra.Pa4
