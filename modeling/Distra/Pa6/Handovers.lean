import Distra.Pa4.Taken
import Distra.Pa6.Refinement

/-!
# Handing over the forks of `pa6`

A child has the fork that it is asked for, also after its last critical section, and gets no fork
that it has not asked for. So no assertion fails.
-/

namespace Distra.Pa6

open Network Exclusion

variable {cfg : Config}

/-- What children find when they deal with requests and replies. -/
structure HandsOver (cfg : Config) (s : ProcessState Mux) : Prop where
  /-- A `CS_REQUEST` finds the child with the fork, wherever it takes it. -/
  taken : ∀ p q, IsChild cfg.numChildren p → IsChild cfg.numChildren q → q ≠ p →
    ∀ m rest, s.transit q p = m :: rest → m.type = .csRequest → (s.loc p).mux.hasFork q = true
  /-- The forks that `release_cs` gives up are there. -/
  released : ∀ p c, IsChild cfg.numChildren p → IsChild cfg.numChildren c → c ≠ p →
    (s.loc p).pc.Inside → (s.loc p).mux.hasFork c = true
  /-- No `CS_REPLY` is on its way to a child that does not wait in `request_cs`. -/
  replied : ∀ p q, IsChild cfg.numChildren p → IsChild cfg.numChildren q → q ≠ p →
    (∃ m ∈ s.transit q p, m.type = .csReply) → ∃ i, (s.loc p).pc = .requestCs i

theorem stageOf_eq_waiting {pc : Pc} : stageOf pc = .waiting ↔ ∃ i, pc = .requestCs i := by
  cases pc <;> simp [stageOf]

/-- Two children are in one of the states of a pair. -/
theorem Refined.pair {s : ProcessState Mux} {os : List Observation}
    (h : Refined cfg s.view os) {i j : Nat} (hi : IsChild cfg.numChildren i)
    (hj : IsChild cfg.numChildren j) (ne : i ≠ j) :
    Forks.Pair (endOf (stageOf (s.loc i).pc) (s.loc i).mux j)
      (endOf (stageOf (s.loc j).pc) (s.loc j).mux i)
      ((s.transit i j).filterMap (fun m => forkMsg m.type))
      ((s.transit j i).filterMap (fun m => forkMsg m.type)) :=
  h.inv.pair ⟨i, hi⟩ ⟨j, hj⟩ (fun eq => ne (congrArg Subtype.val eq))

theorem Refined.handsOver {s : ProcessState Mux} {os : List Observation}
    (h : Refined cfg s.view os) : HandsOver cfg s := by
  constructor
  · intro p q child qchild ne m rest head type
    have pair := h.pair child qchild ne.symm
    rw [head, List.filterMap_cons, type] at pair
    exact pair.fork_of_token.2.1
  · intro p c child cchild ne inside
    exact h.inv.holds ⟨p, child⟩ ⟨c, cchild⟩ (fun eq => ne (congrArg Subtype.val eq).symm)
      (stageOf_eq_inside.mpr inside)
  · rintro p q child qchild ne ⟨m, mem, type⟩
    rw [← stageOf_eq_waiting]
    apply (h.pair child qchild ne.symm).waiting_of_mem_fork
    exact List.mem_filterMap.mpr ⟨m, mem, by rw [type]; rfl⟩

theorem unfailing (r : MutexRun cfg mutex) : Unfailing cfg mutex r.final := by
  obtain ⟨control, -, refined⟩ := refined r
  exact .of_mutex control fun p child input ready =>
    refined.safe (p := ⟨p, child⟩) control ready

/-- No step of a child fails, and forks are handed over by those who have them to those who wait
for them. -/
theorem forks_handed_over (r : MutexRun cfg mutex) :
    Unfailing cfg mutex r.final ∧ HandsOver cfg r.final :=
  ⟨unfailing r, (refined r).2.2.handsOver⟩

end Distra.Pa6
