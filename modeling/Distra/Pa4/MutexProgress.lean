import Distra.Pa4.Progress
import Distra.Pa4.Refinement

/-!
# When `pa4` gets stuck

The child with the smallest request has everything it waits for once nothing is in transit, and
notices so in the round that brings it the last reply or release. With one child there is no such
round: it waits for ever.
-/

namespace Distra.Pa4

open Network RequestQueue Exclusion

variable {cfg : Config}

/-- What `request_cs` tests at the end of a round. -/
def Admitted (cfg : Config) (p : Nat) (mux : Mux) : Prop :=
  mux.lastRequestReplyCount = cfg.numChildren - 1 ∧
    topEnqueuedRequest cfg.maxChildren mux.queue = p

/-- Only children have a slot in use. -/
def Confined (cfg : Config) (mux : Mux) : Prop :=
  ∀ id, cfg.numChildren < id → queueLookup mux.queue id = emptyRequestTime

/-- The entry is noticed in the round that allows it. -/
structure Noticed (cfg : Config) (v : ProcessView Mux) : Prop where
  waits : ∀ p, IsChild cfg.numChildren p → (v.loc p).pc.phase = .waiting →
    ¬Admitted cfg p (v.loc p).mux
  confined : ∀ p, IsChild cfg.numChildren p → Confined cfg (v.loc p).mux

theorem Confined.setSlot {mux : Mux} {fr : Nat} (h : Confined cfg mux)
    (child : IsChild cfg.numChildren fr) (t count : Nat) :
    Confined cfg ⟨mux.queue.setSlot fr t, count⟩ := by
  intro id out
  have := child.2
  rw [queueLookup_setSlot_ne _ _ child.1 (by omega) (by omega)]
  exact h id out

theorem Confined.serves {l l' : Locals} {fr : Nat} {m : Message} {out : Sends}
    (h : Confined cfg l.mux) (child : IsChild cfg.numChildren fr) (serves : Serves l fr m l' out) :
    Confined cfg l'.mux := by
  cases serves with
  | reply => exact h
  | request => exact h.setSlot child _ _
  | release => exact h.setSlot child _ _

theorem entryTest_waits {self : Nat} {l l' : Locals} {out out' : Sends}
    (test : (Verdict.waits, l', out') = entryTest cfg self l out) :
    l' = l ∧ ¬Admitted cfg self l.mux := by
  unfold entryTest enterIf at test
  split at test
  next => cases test
  next fails =>
    cases test
    exact ⟨rfl, fails⟩

section Keep

variable {v : ProcessView Mux} {os : List Observation} {p : Nat}
  {input : Option (Nat × Message)} {next : Next Nat (Process Mux) Message}

/-- A step of `p`, as far as its own queue goes. -/
theorem Confined.keep (control : Control cfg v) (child : IsChild cfg.numChildren p)
    (ready : Ready cfg v p input) (h : Confined cfg (v.loc p).mux)
    (step : LocalStep cfg mutex p (v.loc p) input next) : Confined cfg next.1.mux := by
  have sender {q : Nat} {m : Message} (ready : Ready cfg v p (some (q, m))) :
      IsChild cfg.numChildren q := (control.sender_child child ready).1
  have asks {l l' : Locals} {out : Sends} (h : Confined cfg l.mux)
      (requested : requestCs cfg p l = some (l', out)) : Confined cfg l'.mux := by
    by_cases vacant : queueLookup l.mux.queue p = emptyRequestTime
    · cases (requestCs_of_vacant vacant).symm.trans requested
      exact h.setSlot child _ _
    · cases (requestCs_of_queued vacant).symm.trans requested
      exact h
  cases step.mutex with
  | quiet quiet =>
    rw [quiet.mux]
    exact h
  | request pc requested => exact asks h requested
  | served pc taken cs =>
    rcases requestCsTake_some taken with ⟨l₁, out₁, serves, test⟩ | ⟨-, nonCs, -, -⟩
    · have same := @entryTest_queue cfg p l₁ out₁
      rw [← test] at same
      intro id out
      exact (congrArg (fun q => queueLookup q id) same).trans
        (h.serves (sender ready) serves id out)
    · exact absurd nonCs cs
  | doneServed pc taken type retried =>
    rcases requestCsTake_some taken with ⟨_, _, serves, -⟩ | ⟨-, -, rfl, -⟩
    · cases serves <;> simp_all
    · exact asks h retried
  | idle pc found =>
    cases found
    exact h
  | release pc released =>
    obtain ⟨-, rfl, -⟩ := releaseCs_some released
    exact h.setSlot child _ _
  | handled pc taken cs =>
    rcases @handleCsRequests_some cfg p _ _ _ _ _ _ taken with ⟨serves, -, -⟩ | ⟨-, nonCs, -, -⟩
    · exact h.serves (sender ready) serves
    · exact absurd nonCs cs
  | doneHandled pc finished taken type =>
    rcases @handleCsRequests_some cfg p _ _ _ _ _ _ taken with ⟨-, -, verdict⟩ | ⟨-, -, rfl, -⟩
    · cases verdict
    · exact h

theorem waits_keep (two : 2 ≤ cfg.numChildren) (refined : Refined cfg v os)
    (child : IsChild cfg.numChildren p)
    (h : (v.loc p).pc.phase = .waiting → ¬Admitted cfg p (v.loc p).mux)
    (step : LocalStep cfg mutex p (v.loc p) input next) (waiting : next.1.pc.phase = .waiting) :
    ¬Admitted cfg p next.1.mux := by
  cases step.mutex with
  | quiet quiet =>
    rw [quiet.mux]
    exact h (quiet.phase ▸ waiting)
  | request pc requested =>
    have idle : (v.loc p).pc.phase = .idle := by rw [pc]; rfl
    have zero : (v.loc p).mux.lastRequestReplyCount = 0 := by
      have counted := refined.counted ⟨p, child⟩
      rwa [idle] at counted
    have vacant : queueLookup (v.loc p).locals.mux.queue p = emptyRequestTime :=
      refined.inv.request_eq_zero (show (image cfg v os).phase ⟨p, child⟩ = .idle from idle)
    cases (requestCs_of_vacant vacant).symm.trans requested
    rintro ⟨full, -⟩
    simp only [Process.at_, Process.locals, zero] at full
    omega
  | @served i q m verdict l out pc taken cs =>
    rcases requestCsTake_some taken with ⟨l₁, out₁, -, test⟩ | ⟨-, nonCs, -, -⟩
    · cases verdict with
      | waits =>
        obtain ⟨rfl, fails⟩ := entryTest_waits test
        exact fails
      | entered => cases waiting
      | nonCsMessageReceived => exact absurd rfl cs
    · exact absurd nonCs cs
  | doneServed pc taken type retried =>
    have was := h (by rw [pc]; rfl)
    rcases requestCsTake_some taken with ⟨_, _, serves, -⟩ | ⟨-, -, rfl, -⟩
    · cases serves <;> simp_all
    · have queued : queueLookup (v.loc p).mux.queue p ≠ emptyRequestTime :=
        (refined.inv.grants.standing ⟨p, child⟩).mpr (by simp [image, grants, pc, Pc.phase])
      cases (requestCs_of_queued queued).symm.trans retried
      exact was
  | idle pc found =>
    cases found
    exact h (by rw [pc]; rfl)
  | release => cases waiting
  | handled => cases waiting
  | doneHandled pc finished =>
    have := finished.phase
    simp_all [Process.at_]

theorem Noticed.keep (h : Noticed cfg v) (two : 2 ≤ cfg.numChildren) (refined : Refined cfg v os)
    (control : Control cfg v) (child : IsChild cfg.numChildren p) (ready : Ready cfg v p input)
    (step : LocalStep cfg mutex p (v.loc p) input next) :
    Noticed cfg ((v.consume p input).become p next) := by
  constructor
  · intro a ha
    rw [View.consume_become_loc]
    split
    next eq =>
      subst eq
      exact waits_keep two refined child (h.waits a ha) step
    next => exact h.waits a ha
  · intro a ha
    rw [View.consume_become_loc]
    split
    next eq => exact (h.confined p child).keep control child ready step
    next => exact h.confined a ha

end Keep

theorem noticed_initial : Noticed cfg (initialState cfg mutex).view := by
  constructor
  · intro p child waiting
    simp [initialState, initialProcess, child.ne_parent, Pc.phase] at waiting
  · intro p _ id _
    rfl

theorem noticed (two : 2 ≤ cfg.numChildren) (r : MutexRun cfg mutex) :
    Control cfg r.final.view ∧ Counted cfg r.final.view (r.observations own) ∧
      Refined cfg r.final.view (r.observations own) ∧ Noticed cfg r.final.view := by
  refine MutexRun.invariant (J := fun v os => Refined cfg v os ∧ Noticed cfg v) mutex_lawful own
    ⟨.initial, noticed_initial⟩ ?_ ?_ ?_ r
  · intro v os p input control inv child ready
    exact inv.1.safe (p := ⟨p, child⟩) control ready
  · intro v os p input next control inv child ready step
    exact ⟨inv.1.keep (p := ⟨p, child⟩) control ready step,
      inv.2.keep two inv.1 control child ready step⟩
  · intro v v' os inv frame
    refine ⟨inv.1.parent frame, fun p child => ?_, fun p child => ?_⟩
    · rw [frame.loc p child.ne_parent]
      exact inv.2.waits p child
    · rw [frame.loc p child.ne_parent]
      exact inv.2.confined p child

/-! ## Two children or more -/

/-- The smallest request has been answered by everybody, and stands on top of its queue. -/
theorem Refined.admitted {s : ProcessState Mux} {os : List Observation}
    (h : Refined cfg s.view os) {p : Child cfg.numChildren}
    (waits : (s.view.loc p).pc.phase = .waiting) (confined : Confined cfg (s.loc p).mux)
    (silent : ∀ q, q ≠ p →
      (image cfg s.view os).chan p q = [] ∧ (image cfg s.view os).chan q p = [])
    (least : ∀ q, q ≠ p → (image cfg s.view os).phase q ≠ .idle →
      (image cfg s.view os).label p < (image cfg s.view os).label q) :
    Admitted cfg p (s.loc p).mux := by
  have settled (q : Child cfg.numChildren) (ne : q ≠ p) :
      ((image cfg s.view os).link p q).Settled :=
    ⟨congrArg requests (silent q ne).1, congrArg replies (silent q ne).2⟩
  constructor
  · have counted := h.counted p
    rwa [waits, if_pos rfl, Lamport.State.card_of_settled settled, card_child] at counted
  · have standing : queueLookup (s.loc p).mux.queue p ≠ emptyRequestTime :=
      (h.inv.grants.standing p).mpr (fun idle => by cases waits.symm.trans idle)
    apply topEnqueuedRequest_eq p.2.1 (p.2.2.trans cfg.le_max) standing
    intro id pos ne queued
    have inside : id ≤ cfg.numChildren := by
      by_contra out
      exact queued (confined id (not_le.mp out))
    have other : (⟨id, pos, inside⟩ : Child cfg.numChildren) ≠ p :=
      fun eq => ne (congrArg Subtype.val eq)
    have known : (image cfg s.view os).known p ⟨id, pos, inside⟩ =
        queueLookup (s.loc p).mux.queue id := if_neg ne
    have record := (h.inv.link ⟨id, pos, inside⟩ p other).record
    have request : (image cfg s.view os).known p ⟨id, pos, inside⟩ =
        (image cfg s.view os).request ⟨id, pos, inside⟩ := by
      have empty : ((image cfg s.view os).link ⟨id, pos, inside⟩ p).out = [] :=
        (silent _ other).2
      rw [empty] at record
      exact Option.some.inj record
    have active : (image cfg s.view os).phase ⟨id, pos, inside⟩ ≠ .idle := by
      refine (h.inv.grants.standing _).mp ?_
      rw [← request, known]
      exact queued
    rcases Prod.Lex.lt_iff.mp (least _ other active) with lt | ⟨same, lt⟩
    · exact .inl ((request.symm.trans known) ▸ lt)
    · exact .inr ⟨(request.symm.trans known) ▸ same, lt⟩

theorem Refined.not_all_waiting {s : ProcessState Mux} {os : List Observation}
    (h : Refined cfg s.view os) (noticed : Noticed cfg s.view) (stuck : Stuck cfg mutex s)
    (waiting : ∃ p, IsChild cfg.numChildren p ∧ ∃ i, (s.loc p).pc = .requestCs i)
    (silent : ∀ p q, IsChild cfg.numChildren p → IsChild cfg.numChildren q → q ≠ p →
      s.transit q p = []) : False := by
  obtain ⟨p, waits, least⟩ := exists_least_waiting (image cfg s.view os).label waiting
  have empty (a b : Child cfg.numChildren) (ne : a ≠ b) :
      childChan csMessage cfg s.view a b = [] := by
    rw [childChan, State.view_chan, silent b a b.2 a.2 (fun k => ne (Subtype.ext k))]
    rfl
  refine noticed.waits p p.2 waits (h.admitted waits (noticed.confined p p.2)
    (fun q ne => ⟨empty p q ne.symm, empty q p ne⟩) fun q ne active => ?_)
  refine lt_of_le_of_ne (least q (stuck.waiting_of_active q.2 active)) fun eq => ne ?_
  exact (congrArg (fun l => (ofLex l).2) eq).symm

theorem completed_or_canStep (two : 2 ≤ cfg.numChildren) (r : MutexRun cfg mutex) :
    r.Completed own ∨ CanStep cfg mutex r.final := by
  obtain ⟨control, counted, refined, noticed⟩ := noticed two r
  exact r.completed_or_canStep control counted (refined.not_all_waiting noticed)

/-! ## One child -/

/-- A child alone up to the first poll of `request_cs`. -/
def loneSchedule : List (Choice Nat) := [.act 1, .send 1, .act 1, .act 1]

/-- No message ever comes, and without a message the test for the entry is not made. -/
theorem stuck_alone (one : cfg.numChildren = 1) :
    ∃ r : MutexRun cfg mutex, ¬(r.Completed own ∨ CanStep cfg mutex r.final) := by
  obtain ⟨n, maxChildren, pos, le⟩ := cfg
  obtain rfl : n = 1 := one
  obtain ⟨s, follow, flushed, pc, empty⟩ :
      ∃ s, (initialState ⟨1, maxChildren, pos, le⟩ mutex).follow?
          (spawnChildren ⟨1, maxChildren, pos, le⟩ mutex true) loneSchedule = some s ∧
        s.outbox 1 = [] ∧ (s.loc 1).pc = .requestCs 1 ∧ s.chan 0 1 = [] :=
    ⟨_, rfl, rfl, rfl, rfl⟩
  obtain ⟨ts, run⟩ := Run.follow? .nil follow
  refine ⟨⟨_, s, run⟩, ?_⟩
  rintro (completed | ⟨e, s', child, step, moves⟩)
  · cases (completed 1 ⟨le_rfl, le_rfl⟩).1.symm.trans pc
  · obtain alone : e.actor = 1 := Nat.le_antisymm child.2 child.1
    have polls : spawnChildren ⟨1, maxChildren, pos, le⟩ mutex true 1 (s.loc 1) =
        .poll [0] (requestCsLoop ⟨1, maxChildren, pos, le⟩ mutex 1 1 (s.loc 1)) (s.loc 1, []) := by
      have code : spawnChildren ⟨1, maxChildren, pos, le⟩ mutex true 1 (s.loc 1) =
          childEntry ⟨1, maxChildren, pos, le⟩ mutex true 1 (s.loc 1) := rfl
      rw [code]
      simp only [childEntry, pc]
      congr 1
      have same : (s.loc 1).at_ (.requestCs 1) (s.loc 1).locals = s.loc 1 := by
        rw [← pc]
        rfl
      exact congrArg (fun st => (st, [])) same
    cases step with
    | send pending =>
      obtain rfl : _ = 1 := alone
      rw [flushed] at pending
      cases pending
    | act _ code | receive _ code | receiveEmpty _ code =>
      obtain rfl : _ = 1 := alone
      cases polls.symm.trans code
    | poll _ code mem head =>
      obtain rfl : _ = 1 := alone
      cases polls.symm.trans code
      rw [List.mem_singleton.mp mem, empty] at head
      cases head
    | pollEmpty idle code =>
      obtain rfl : _ = 1 := alone
      cases polls.symm.trans code
      exact moves ⟨⟨_, rfl⟩, State.become_self idle⟩

/-- Runs are over or some child can go on, exactly when there are two children or more. -/
theorem lamport_progress_iff (cfg : Config) :
    (∀ r : MutexRun cfg mutex, r.Completed own ∨ CanStep cfg mutex r.final) ↔
      2 ≤ cfg.numChildren := by
  constructor
  · intro all
    by_contra few
    have one : cfg.numChildren = 1 := Nat.le_antisymm (Nat.lt_succ_iff.mp (not_le.mp few)) cfg.pos
    obtain ⟨r, stuck⟩ := stuck_alone one
    exact stuck (all r)
  · exact completed_or_canStep

def oneChild : Config := ⟨1, 15, by decide, by decide⟩

/-- `main` accepts one child. -/
theorem lamport_progress_fails_alone :
    ∃ r : MutexRun oneChild mutex, ¬(r.Completed own ∨ CanStep oneChild mutex r.final) :=
  stuck_alone rfl

end Distra.Pa4
