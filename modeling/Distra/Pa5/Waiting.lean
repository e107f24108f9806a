import Distra.Pa4.Waiting
import Distra.Pa5.Messages
import Distra.Pa5.Overtaking

/-!
# Bounded waiting in `pa5`
-/

namespace Distra.Pa5

open Network RequestQueue Exclusion RicartAgrawala

variable {cfg : Config}

section Refined

variable {v : ProcessView Mux} {os : List Observation} (h : Refined cfg v os)
  {p q : Child cfg.numChildren}
include h

/-- Of the request of `p`, one piece is left at most, and only while it waits. -/
theorem Refined.pends (ne : p ≠ q) : ofType .csRequest (v.chan p q) +
    stored (v.loc q).mux.queue p + ofType .csReply (v.chan q p) ≤
      if (v.loc p).pc.phase = .waiting then 1 else 0 := by
  split
  next => exact h.single p.2 q.2 fun eq => ne (Subtype.ext eq)
  next still =>
    obtain ⟨noRequest, vacant, noReply⟩ :=
      Link.pending_eq_zero.mp ((h.inv.link p q ne).settled still)
    have empty : queueLookup (v.loc q).mux.queue p = 0 := (otherSlots_of_ne ne _).symm.trans vacant
    rw [stored_of_empty empty, ← requests_csMessage, ← replies_csMessage]
    exact (congrArg₂ (· + 0 + ·) noRequest noReply).le

theorem Refined.heard (ne : p ≠ q) (waiting : (v.loc p).pc.phase = .waiting)
    (taken : ofType .csRequest (v.chan p q) = 0) : own p (v.loc p) ≤ (v.loc q).lamportTime := by
  have active : (image cfg v os).phase p ≠ .idle := by simp [image, grants, waiting]
  exact ((h.inv.link p q ne).later active ((requests_csMessage _).trans taken)).le

end Refined

theorem waits : mutex.Waits cfg (fun p mux => queueLookup mux.queue p) books := by
  have refined (r : MutexRun cfg mutex) := (matched r).2.2.1
  refine ⟨leaves, mutex_stamps, fun r => (matched r).2.1, fun r => (refined r).inv.grants, balanced,
    fun r p q ne => (refined r).pends ne, fun r p q ne waiting taken => ?_⟩
  exact (refined r).heard ne waiting taken

/-- While a child waits, every other child enters its critical section twice at most. -/
theorem ricart_bounded_waiting (cfg : Config) : BoundedWaiting cfg mutex own 2 :=
  boundedWaiting waits

end Distra.Pa5
