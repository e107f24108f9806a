import Distra.Pa4.Termination
import Distra.Pa5.Messages
import Distra.Pa5.Progress

/-!
# `pa5` comes to its end

As in `pa4`, a child alone waits for ever: the number of replies is tested where a message is taken.
-/

namespace Distra.Pa5

open Network RequestQueue Exclusion RicartAgrawala

variable {cfg : Config}

theorem completed_or_canStep (two : 2 ≤ cfg.numChildren) (r : MutexRun cfg mutex) :
    r.Completed own ∨ CanStep cfg mutex r.final := by
  obtain ⟨control, counted, refined, noticed⟩ := noticed two r
  exact r.completed_or_canStep control counted (refined.not_all_waiting noticed)

theorem length_sent_le (r : MutexRun cfg mutex) (a b : Nat) :
    (r.traffic.sent a b).length ≤ share 0 a b :=
  r.length_sent_le leaves balanced (fun r p child => ((matched r).2.1 p child).1)
    (fun _ _ _ => Nat.zero_le _) a b

theorem ends (two : 2 ≤ cfg.numChildren) : mutex.Ends cfg own (share 0) where
  leaves := leaves
  polls _ _ _ _ _ _ _ _ found _ := (pollAgain_waits found).2
  counted r := (matched r).2.1
  sends := length_sent_le
  goesOn := completed_or_canStep two

end Distra.Pa5
