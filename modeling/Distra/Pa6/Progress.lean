import Distra.Pa4.Progress
import Distra.Pa6.Refinement

/-!
# `pa6` does not get stuck

A child that polls in `request_cs` has asked for every fork that it misses. Among the waiting
children one comes before all the others, and no fork of its is kept from it.
-/

namespace Distra.Pa6

open Network Exclusion

variable {cfg : Config}

/-- Every fork that is missing at a poll of `request_cs` has been asked for. -/
def Asked (cfg : Config) (v : ProcessView Mux) : Prop :=
  ∀ p, IsChild cfg.numChildren p → (v.loc p).pc.phase = .waiting →
    ∀ q, IsChild cfg.numChildren q → q ≠ p →
      (v.loc p).mux.hasFork q = false → (v.loc p).mux.hasRequest q = false

theorem Requested.asked {p q : Nat} {l l' : Locals} {out : Sends}
    (h : Requested p (List.range' 1 cfg.numChildren) l l' out) (child : IsChild cfg.numChildren q)
    (ne : q ≠ p) (missing : l'.mux.hasFork q = false) : l'.mux.hasRequest q = false := by
  have mem : q ∈ List.range' 1 cfg.numChildren := mem_children ⟨q, child⟩
  rw [h.hasFork] at missing
  rw [h.hasRequest, if_pos ⟨mem, ne⟩, missing, Bool.and_false]

theorem Asked.keep {v : ProcessView Mux} (h : Asked cfg v) {p : Nat}
    (child : IsChild cfg.numChildren p) {input : Option (Nat × Message)}
    {next : Next Nat (Process Mux) Message} (step : LocalStep cfg mutex p (v.loc p) input next) :
    Asked cfg ((v.consume p input).become p next) := by
  intro a ha
  rw [View.consume_become_loc]
  split
  swap
  · exact h a ha
  next eq =>
    subst eq
    intro waiting q qchild ne missing
    have round {i : Nat} {l l' : Locals} {out out' : Sends} {verdict : Verdict}
        (test : endRound cfg a l out = some (verdict, l', out'))
        (waiting : (verdict.pc i).phase = .waiting) (missing : l'.mux.hasFork q = false) :
        l'.mux.hasRequest q = false := by
      rcases endRound_some test with ⟨-, rfl, -, -⟩ | ⟨_, requested, -, -⟩
      · cases waiting
      · exact requested.asked qchild ne missing
    cases step.mutex with
    | quiet quiet =>
      rw [quiet.mux] at missing ⊢
      exact h a ha (quiet.phase ▸ waiting) q qchild ne missing
    | request pc requested => exact (requestCs_some requested).asked qchild ne missing
    | served pc taken cs =>
      rcases requestCsTake_some taken with ⟨l₁, out₁, -, test⟩ | ⟨-, nonCs, -, -⟩
      · exact round test waiting missing
      · exact absurd nonCs cs
    | doneServed pc taken type retried =>
      exact (requestCs_some retried).asked qchild ne missing
    | idle pc found => exact round found waiting missing
    | release => cases waiting
    | handled => cases waiting
    | doneHandled pc finished => cases finished.phase.symm.trans waiting

theorem asked (r : MutexRun cfg mutex) :
    Control cfg r.final.view ∧ Counted cfg r.final.view (r.observations entryTime) ∧
      Refined cfg r.final.view (r.observations entryTime) ∧ Asked cfg r.final.view := by
  refine MutexRun.invariant (J := fun v os => Refined cfg v os ∧ Asked cfg v) mutex_lawful
    entryTime ⟨.initial, ?_⟩ ?_ ?_ ?_ r
  · intro p child waiting
    simp [initialState, initialProcess, child.ne_parent, Pc.phase] at waiting
  · intro v os p input control inv child ready
    exact inv.1.safe (p := ⟨p, child⟩) control ready
  · intro v os p input next control inv child ready step
    exact ⟨inv.1.keep (p := ⟨p, child⟩) entryTime control ready step, inv.2.keep child step⟩
  · intro v v' os inv frame
    refine ⟨inv.1.parent frame, fun p child => ?_⟩
    rw [frame.loc p child.ne_parent]
    exact inv.2 p child

/-- `p` waits for a fork that `q` keeps, one that is clean or that `q` is eating with. -/
def Keeps (s : ProcessState Mux) (q p : Nat) : Prop :=
  (q ≠ p ∧ ∃ i, (s.loc p).pc = .requestCs i) ∧ (s.loc q).mux.hasFork p = true ∧
    ((s.loc q).mux.forkDirty p = false ∨ (s.loc q).pc.Inside)

/-- No set of children waits for forks that its own members keep. -/
theorem Refined.no_circle {s : ProcessState Mux} {os : List Observation}
    (h : Refined cfg s.view os) (W : Finset (Child cfg.numChildren)) (nonempty : W.Nonempty) :
    ¬∀ p ∈ W, ∃ q ∈ W, Keeps s q p := by
  intro all
  refine h.inv.no_circle W nonempty fun p mem => ?_
  obtain ⟨q, mem', ⟨ne, -⟩, fork, clean | inside⟩ := all p mem
  · exact ⟨q, mem', fun eq => ne (congrArg Subtype.val eq), fork, clean⟩
  · -- `q` waits as well, so it is not eating.
    obtain ⟨_, _, ⟨_, i, pc⟩, -⟩ := all q mem'
    simp [pc, Pc.Inside] at inside

theorem Refined.not_all_waiting {s : ProcessState Mux} {os : List Observation}
    (h : Refined cfg s.view os) (asked : Asked cfg s.view) (stuck : Stuck cfg mutex s)
    (waiting : ∃ p, IsChild cfg.numChildren p ∧ ∃ i, (s.loc p).pc = .requestCs i)
    (silent : ∀ p q, IsChild cfg.numChildren p → IsChild cfg.numChildren q → q ≠ p →
      s.transit q p = []) : False := by
  obtain ⟨p₀, child₀, i₀, pc₀⟩ := waiting
  have poll (p : Child cfg.numChildren) :
      stageOf (s.loc p).pc = .waiting ∨ stageOf (s.loc p).pc = .retired := by
    rcases stuck.polls p p.2 with ⟨i, pc⟩ | pc | pc <;> simp [pc, stageOf]
  have empty (p q : Child cfg.numChildren) (ne : p ≠ q) : (image cfg s.view).chan p q = [] := by
    have := silent q p q.2 p.2 fun k => ne (Subtype.ext k)
    simp [image, forkChan, childChan, this]
  have some_waits : (image cfg s.view).stage ⟨p₀, child₀⟩ = .waiting := by
    simp [image, pc₀, stageOf]
  have asked_all (p q : Child cfg.numChildren) (ne : p ≠ q)
      (waits : (image cfg s.view).stage p = .waiting)
      (missing : (image cfg s.view).fork p q = false) : (image cfg s.view).token p q = false := by
    refine asked p p.2 ?_ q q.2 (fun k => ne (Subtype.ext k).symm) missing
    rcases stuck.polls p p.2 with ⟨i, pc⟩ | pc | pc <;> simp_all [image, stageOf, Pc.phase]
  obtain ⟨p, waits, ready⟩ := h.inv.exists_ready some_waits poll empty asked_all
  rcases stuck.polls p p.2 with ⟨i, pc⟩ | pc | pc
  · have can : canEnterCs cfg p (s.loc p).mux = true := canEnterCs_iff.mpr fun c child ne =>
      ready ⟨c, child⟩ fun k => ne (congrArg Subtype.val k)
    have idle := stuck.idle p p.2 i pc
    have entered : (requestCsIdle cfg mutex p i (s.loc p)).1.pc = .criticalSection i := by
      simp [requestCsIdle, mutex, requestCsEmpty, endRound, Process.locals, can, Process.at_]
    have same := congrArg (fun s => (s.loc p).pc) idle
    simp [State.become, entered, pc] at same
  · simp [image, pc, stageOf] at waits
  · simp [image, pc, stageOf] at waits

/-- A run is over or some child can go on, and no set of children waits for forks that its own
members keep. -/
theorem forks_progress (r : MutexRun cfg mutex) :
    (r.Completed entryTime ∨ CanStep cfg mutex r.final) ∧
      ∀ W : Finset (Child cfg.numChildren), W.Nonempty →
        ¬∀ p ∈ W, ∃ q ∈ W, Keeps r.final q p := by
  obtain ⟨control, counted, refined, asked⟩ := asked r
  exact ⟨r.completed_or_canStep control counted (refined.not_all_waiting asked),
    refined.no_circle⟩

end Distra.Pa6
