import Distra.Pa4.Termination
import Distra.Pa6.Progress
import Distra.Pa6.Shutdown

/-!
# `pa6` comes to its end

A poll in vain that does not let a child in asks for nothing: the child has asked for every fork
that it misses already. A child alone misses none.
-/

namespace Distra.Pa6

open Network Exclusion

variable {cfg : Config}

/-- Nothing is sent for forks that are there or that have been asked for. -/
theorem requestForks_asked {p : Nat} {l : Locals} (L : List Nat)
    (asked : ∀ c ∈ L, c ≠ p → l.mux.hasFork c = false → l.mux.hasRequest c = false) :
    requestForks p L l = some (l, []) := by
  induction L with
  | nil => rfl
  | cons c rest ih =>
    have ih := ih fun c mem => asked c (List.mem_cons_of_mem _ mem)
    rw [requestForks]
    split
    · exact ih
    next other =>
      have nothing : (!l.mux.hasFork c && l.mux.hasRequest c) = false := by
        cases fork : l.mux.hasFork c
        · simp [asked c List.mem_cons_self other fork]
        · rfl
      rw [nothing]
      exact ih

theorem Asked.polls {v : ProcessView Mux} (asked : Asked cfg v) {p i : Nat}
    (child : IsChild cfg.numChildren p) (pc : (v.loc p).pc = .requestCs i) {verdict : Verdict}
    {l : Locals} {out : Sends}
    (found : requestCsEmpty cfg p (v.loc p).locals = some (verdict, l, out))
    (waits : verdict ≠ .entered) : l = (v.loc p).locals ∧ out = [] := by
  have requested : requestCs cfg p (v.loc p).locals = some ((v.loc p).locals, []) :=
    requestForks_asked _ fun c mem other missing =>
      asked p child (by rw [pc]; rfl) c (children_of_range c mem) other missing
  unfold requestCsEmpty endRound at found
  split at found
  next =>
    cases found
    exact absurd rfl waits
  next =>
    rw [requested] at found
    cases found
    exact ⟨rfl, rfl⟩

theorem sends_le (r : MutexRun cfg mutex) (a b : Nat) :
    (r.traffic.sent a b).length ≤ share a b := by
  have announced := (r.announces leaves).announced
  by_cases ha : a ≤ cfg.numChildren
  · by_cases hb : b ≤ cfg.numChildren
    · exact length_sent_le r ha hb
    · rw [announced.within a b (Nat.not_le.mp hb)]
      exact Nat.zero_le _
  · rw [announced.silent a b fun child => ha child.2]
    exact Nat.zero_le _

theorem ends : mutex.Ends cfg entryTime share where
  leaves := leaves
  polls r p _ _ _ _ child pc found waits :=
    (asked r).2.2.2.polls (p := p) child pc found waits
  counted r := (refined r).2.1
  sends := sends_le
  goesOn r := by
    obtain ⟨control, counted, refined, asked⟩ := asked r
    exact r.completed_or_canStep control counted (refined.not_all_waiting asked)

end Distra.Pa6
