import Distra.Pa4.Progress
import Distra.Pa5.Refinement

/-!
# `pa5` does not get stuck

A child that waits in vain would wait for a reply that a child with a smaller request has put off.
The child with the smallest request waits for nobody, and notices so when the last reply arrives.
-/

namespace Distra.Pa5

open Network RequestQueue Exclusion RicartAgrawala

variable {cfg : Config}

/-- A full count is noticed in the round that completes it. -/
def Noticed (cfg : Config) (v : ProcessView Mux) : Prop :=
  ∀ p, IsChild cfg.numChildren p → (v.loc p).pc.phase = .waiting →
    (v.loc p).mux.lastRequestReplyCount ≠ cfg.numChildren - 1

theorem Noticed.keep {v : ProcessView Mux} {os : List Observation} (h : Noticed cfg v)
    (two : 2 ≤ cfg.numChildren) (refined : Refined cfg v os) {p : Nat}
    (child : IsChild cfg.numChildren p) {input : Option (Nat × Message)}
    {next : Next Nat (Process Mux) Message} (step : LocalStep cfg mutex p (v.loc p) input next) :
    Noticed cfg ((v.consume p input).become p next) := by
  intro a ha
  rw [View.consume_become_loc]
  split
  swap
  · exact h a ha
  intro waiting
  have zero (idle : (v.loc p).pc.phase = .idle) : (v.loc p).mux.lastRequestReplyCount = 0 := by
    have counted := refined.counted ⟨p, child⟩
    rwa [idle] at counted
  cases step.mutex with
  | quiet quiet =>
    rw [quiet.mux]
    exact h p child (quiet.phase ▸ waiting)
  | request pc requested =>
    have idle : (v.loc p).pc.phase = .idle := by rw [pc]; rfl
    have vacant : queueLookup (v.loc p).locals.mux.queue p = emptyRequestTime :=
      refined.inv.request_eq_zero (show (image cfg v os).phase ⟨p, child⟩ = .idle from idle)
    cases (requestCs_of_vacant vacant).symm.trans requested
    simp only [Process.at_, Process.locals, zero idle]
    omega
  | served pc taken cs =>
    rcases requestCsTake_some taken with ⟨l₁, out₁, -, test⟩ | ⟨-, nonCs, -, -⟩
    · unfold entryTest enterIf at test
      split at test
      next =>
        cases test
        simp [Process.at_, Verdict.pc, Pc.phase] at waiting
      next more =>
        cases test
        exact more
    · exact absurd nonCs cs
  | doneServed pc taken type retried =>
    have was := h p child (by rw [pc]; rfl)
    rcases requestCsTake_some taken with ⟨_, _, serves, -⟩ | ⟨-, -, rfl, -⟩
    · cases serves <;> simp_all
    · have queued : queueLookup (v.loc p).mux.queue p ≠ emptyRequestTime :=
        (refined.inv.grants.standing ⟨p, child⟩).mpr (by simp [image, grants, pc, Pc.phase])
      cases (requestCs_of_queued queued).symm.trans retried
      exact was
  | idle pc found =>
    cases found
    exact h p child (by rw [pc]; rfl)
  | release => simp [Process.at_, Pc.phase] at waiting
  | handled => simp [Process.at_, Pc.phase] at waiting
  | doneHandled pc finished =>
    have := finished.phase
    simp_all [Process.at_]

theorem noticed (two : 2 ≤ cfg.numChildren) (r : MutexRun cfg mutex) :
    Control cfg r.final.view ∧ Counted cfg r.final.view (r.observations own) ∧
      Refined cfg r.final.view (r.observations own) ∧ Noticed cfg r.final.view := by
  refine MutexRun.invariant (J := fun v os => Refined cfg v os ∧ Noticed cfg v) mutex_lawful own
    ⟨.initial, ?_⟩ ?_ ?_ ?_ r
  · intro p child waiting
    simp [initialState, initialProcess, child.ne_parent, Pc.phase] at waiting
  · intro v os p input control inv child ready
    exact inv.1.safe (p := ⟨p, child⟩) control ready
  · intro v os p input next control inv child ready step
    exact ⟨inv.1.keep (p := ⟨p, child⟩) control ready step, inv.2.keep two inv.1 child step⟩
  · intro v v' os inv frame
    refine ⟨inv.1.parent frame, fun p child => ?_⟩
    rw [frame.loc p child.ne_parent]
    exact inv.2 p child

/-- `q` has put off the reply to the request of `p`. -/
def PutOff (s : ProcessState Mux) (q p : Nat) : Prop :=
  q ≠ p ∧ queueLookup (s.loc q).mux.queue p ≠ emptyRequestTime

theorem Refined.putOff_lt {s : ProcessState Mux} {os : List Observation}
    (h : Refined cfg s.view os) {p q : Child cfg.numChildren} (put : PutOff s q p) :
    (image cfg s.view os).phase q ≠ .idle ∧
      (image cfg s.view os).label q < (image cfg s.view os).label p := by
  have ne : p ≠ q := fun eq => put.1 (congrArg Subtype.val eq.symm)
  refine (h.inv.link p q ne).deferral ?_
  have : (image cfg s.view os).deferred q p = queueLookup (s.loc q).mux.queue p :=
    otherSlots_of_ne ne _
  exact this.trans_ne put.2

/-- No set of children waits for replies that its own members have put off. -/
theorem Refined.no_circle {s : ProcessState Mux} {os : List Observation}
    (h : Refined cfg s.view os) (W : Finset (Child cfg.numChildren)) (nonempty : W.Nonempty) :
    ¬∀ p ∈ W, ∃ q ∈ W, PutOff s q p := by
  intro all
  obtain ⟨p, mem, least⟩ := Finset.exists_min_image W (image cfg s.view os).label nonempty
  obtain ⟨q, mem', put⟩ := all p mem
  exact absurd (h.putOff_lt put).2 (not_lt.mpr (least q mem'))

theorem Refined.not_all_waiting {s : ProcessState Mux} {os : List Observation}
    (h : Refined cfg s.view os) (noticed : Noticed cfg s.view) (stuck : Stuck cfg mutex s)
    (waiting : ∃ p, IsChild cfg.numChildren p ∧ ∃ i, (s.loc p).pc = .requestCs i)
    (silent : ∀ p q, IsChild cfg.numChildren p → IsChild cfg.numChildren q → q ≠ p →
      s.transit q p = []) : False := by
  obtain ⟨p, waits, least⟩ := exists_least_waiting (image cfg s.view os).label waiting
  have settled : ∀ q, q ≠ p → ((image cfg s.view os).link p q).pending = 0 := by
    intro q ne
    have apart : q.1 ≠ p.1 := fun k => ne (Subtype.ext k)
    have empty (a b : Child cfg.numChildren) (ne : a.1 ≠ b.1) :
        childChan csMessage cfg s.view a b = [] := by
      rw [childChan, State.view_chan, silent b a b.2 a.2 ne]
      rfl
    refine Link.pending_eq_zero.mpr ⟨?_, ?_, ?_⟩
    · exact congrArg requests (empty p q apart.symm)
    · by_contra put
      obtain ⟨active, lt⟩ := h.putOff_lt (p := p) (q := q)
        ⟨apart, (otherSlots_of_ne ne.symm _).symm.trans_ne put⟩
      exact absurd lt (not_lt.mpr (least q (stuck.waiting_of_active q.2 active)))
    · exact congrArg replies (empty q p apart)
  have waits : (s.view.loc p).pc.phase = .waiting := waits
  have counted := h.counted p
  rw [waits, if_pos rfl, State.card_of_settled settled, card_child] at counted
  exact noticed p p.2 waits counted

/-- With two children or more, a run is over or some child can go on, and no set of children waits
for replies that its own members have put off. -/
theorem ricart_progress (two : 2 ≤ cfg.numChildren) (r : MutexRun cfg mutex) :
    (r.Completed own ∨ CanStep cfg mutex r.final) ∧
      ∀ W : Finset (Child cfg.numChildren), W.Nonempty →
        ¬∀ p ∈ W, ∃ q ∈ W, PutOff r.final q p := by
  obtain ⟨control, counted, refined, noticed⟩ := noticed two r
  exact ⟨r.completed_or_canStep control counted (refined.not_all_waiting noticed),
    refined.no_circle⟩

/-- Child 1 has put off its reply to child 2, and both wait. -/
theorem ricart_progress_two :
    ∃ r : MutexRun twoChildren mutex,
      (r.final.loc 1).pc = .requestCs 1 ∧ (r.final.loc 2).pc = .requestCs 1 ∧
      PutOff r.final 1 2 ∧
      (r.Completed own ∨ CanStep twoChildren mutex r.final) ∧
      ∀ W : Finset (Child 2), W.Nonempty → ¬∀ p ∈ W, ∃ q ∈ W, PutOff r.final q p := by
  have check : ((initialState twoChildren mutex).follow? (spawnChildren twoChildren mutex true)
      (bothAsk ++ [.send 2, .take 1 2])).any (fun s => (s.loc 1).pc = .requestCs 1 ∧
        (s.loc 2).pc = .requestCs 1 ∧ queueLookup (s.loc 1).mux.queue 2 ≠ emptyRequestTime) =
      true := by
    decide +kernel
  obtain ⟨s, ts, -, run, check⟩ := State.run_of_follow? check
  obtain ⟨first, second, put⟩ := of_decide_eq_true check
  exact ⟨⟨_, s, run⟩, first, second, ⟨by decide, put⟩,
    @ricart_progress twoChildren le_rfl ⟨_, s, run⟩⟩

end Distra.Pa5
