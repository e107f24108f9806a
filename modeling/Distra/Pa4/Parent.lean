import Distra.Network.Traffic
import Distra.Pa4.Taken

/-!
# The parent among its children

`parent_step` says once what a step of `parent_entry` can do. `MutexRun.induction_traffic` is the
induction over runs where it matters what the parent does: it builds on what is known of all runs
already.
-/

namespace Distra

open Network

variable {μ : Type} {cfg : Config} {M : MutexCode μ}

/-- A step of the parent. -/
inductive ParentStep (n : Nat) (st : Process μ) : Option (Nat × Message) → Process μ → Prop
  | started {fr q m} : st.pc = .awaitAllStarted fr → ipcReceiveAllNext n parentId fr = some q →
      m.type = .started →
      ParentStep n st (some (q, m))
        { st with pc := .awaitAllStarted q,
                  lamportTime := synchronizeTime m.localTime st.lamportTime }
  | allStarted {fr} : st.pc = .awaitAllStarted fr → ipcReceiveAllNext n parentId fr = none →
      ParentStep n st none { st with pc := .awaitAllDone parentId }
  | done {fr q m} : st.pc = .awaitAllDone fr → ipcReceiveAllNext n parentId fr = some q →
      m.type = .done →
      ParentStep n st (some (q, m))
        { st with pc := .awaitAllDone q,
                  lamportTime := synchronizeTime m.localTime st.lamportTime }
  | allDone {fr} : st.pc = .awaitAllDone fr → ipcReceiveAllNext n parentId fr = none →
      ParentStep n st none { st with pc := .exited }
  /-- The type of the message is not the one that the barrier waits for. -/
  | unexpected {fr q m} :
      (st.pc = .awaitAllStarted fr ∧ m.type ≠ .started ∨
        st.pc = .awaitAllDone fr ∧ m.type ≠ .done) →
      ipcReceiveAllNext n parentId fr = some q →
      ParentStep n st (some (q, m)) { st with pc := .panicked }
  | blocked : ParentStep n st none st

section Inversion

variable {n : Nat} {st : Process μ}

/-- What the parent can do with a message, or without one. -/
def ParentCan (n : Nat) (st : Process μ) : Action Nat (Process μ) Message → Prop
  | .act next => ParentStep n st none next.1 ∧ next.2 = []
  | .receive q onMessage onEmpty =>
    (∀ m, q ≤ n ∧ ParentStep n st (some (q, m)) (onMessage m).1 ∧ (onMessage m).2 = []) ∧
      onEmpty = (st, [])
  | .poll _ _ _ => False
  | .stop => True

theorem parent_can (st : Process μ) :
    ParentCan cfg.numChildren st (parentEntry cfg parentId st) := by
  unfold parentEntry
  dsimp only
  split
  next fr pc =>
    split
    next q found =>
      refine ⟨fun m => ⟨(ipcReceiveAllNext_eq_some found).2.1, ?_⟩, rfl⟩
      unfold ipcExtReceive
      split
      next type => exact ⟨.started pc found type, rfl⟩
      next type => exact ⟨.unexpected (.inl ⟨pc, type⟩) found, rfl⟩
    next end_ => exact ⟨.allStarted pc end_, rfl⟩
  next fr pc =>
    split
    next q found =>
      refine ⟨fun m => ⟨(ipcReceiveAllNext_eq_some found).2.1, ?_⟩, rfl⟩
      unfold ipcExtReceive
      split
      next type => exact ⟨.done pc found type, rfl⟩
      next type => exact ⟨.unexpected (.inr ⟨pc, type⟩) found, rfl⟩
    next end_ => exact ⟨.allDone pc end_, rfl⟩
  next => trivial

theorem parent_step {v v' : ProcessView μ} {e : Event Nat Message}
    (h : Move (spawnChildren cfg M true) v e v') (parent : e.actor = parentId) :
    v.Offers parentId e.input ∧ (∀ x ∈ e.input, x.1 ≤ cfg.numChildren) ∧
      ∃ st, v' = (v.consume parentId e.input).become parentId (st, []) ∧
        ParentStep cfg.numChildren (v.loc parentId) e.input st := by
  have entry {a} (code : spawnChildren cfg M true parentId (v.loc parentId) = a) :
      ParentCan cfg.numChildren (v.loc parentId) a :=
    code ▸ @parent_can _ cfg (v.loc parentId)
  cases h with
  | @act p next code =>
    obtain rfl : p = parentId := parent
    obtain ⟨step, silent⟩ := entry code
    exact ⟨trivial, nofun, next.1, by rw [← silent]; rfl, step⟩
  | poll code =>
    obtain rfl : _ = parentId := parent
    exact (entry code).elim
  | pollEmpty code =>
    obtain rfl : _ = parentId := parent
    exact (entry code).elim
  | @receive p q m rest onMessage onEmpty code head =>
    obtain rfl : p = parentId := parent
    obtain ⟨le, step, silent⟩ := (entry code).1 m
    refine ⟨⟨rest, head⟩, fun x mem => ?_, (onMessage m).1, by rw [← silent]; rfl, step⟩
    cases mem
    exact le
  | @receiveEmpty p q onMessage onEmpty code =>
    obtain rfl : p = parentId := parent
    have empty := (entry code).2
    subst empty
    exact ⟨trivial, nofun, _, rfl, .blocked⟩

end Inversion

theorem Ready.offers {v : ProcessView μ} {p : Nat} {input : Option (Nat × Message)}
    (ready : Ready cfg v p input) : v.Offers p input := by
  cases input with
  | none => trivial
  | some x => exact ready.2.2

theorem Ready.le {v : ProcessView μ} {p : Nat} {input : Option (Nat × Message)}
    (ready : Ready cfg v p input) : ∀ x ∈ input, x.1 ≤ cfg.numChildren := by
  rintro x rfl
  exact ready.1

def MutexRun.traffic (r : MutexRun cfg M) : Traffic Nat (Process μ) Message :=
  Network.traffic r.transitions r.final

/-- The induction over runs that looks at the parent too, with all that has been sent and taken.
What is known of every run can be used at every step. -/
theorem MutexRun.induction_traffic (unfailing : ∀ r : MutexRun cfg M, Unfailing cfg M r.final)
    {J : ProcessView μ → Traffic Nat (Process μ) Message → Prop}
    (start : J (initialState cfg M).view .none)
    (child : ∀ (r : MutexRun cfg M) p input next, J r.final.view r.traffic →
      IsChild cfg.numChildren p → Ready cfg r.final.view p input →
      LocalStep cfg M p (r.final.loc p) input next →
      J ((r.final.view.consume p input).become p next) (r.traffic.step p input next))
    (parent : ∀ (r : MutexRun cfg M) input st, J r.final.view r.traffic →
      r.final.view.Offers parentId input → (∀ x ∈ input, x.1 ≤ cfg.numChildren) →
      ParentStep cfg.numChildren (r.final.loc parentId) input st →
      J ((r.final.view.consume parentId input).become parentId (st, []))
        (r.traffic.step parentId input (st, [])))
    (r : MutexRun cfg M) : J r.final.view r.traffic := by
  obtain ⟨ts, s, run⟩ := r
  induction run with
  | nil => exact start
  | @snoc ts s e s' run step ih =>
    rcases step.traffic ts with ⟨same, written⟩ | ⟨move, traffic⟩
    · rw [MutexRun.traffic, same, written]
      exact ih
    · by_cases isParent : e.actor = parentId
      · obtain ⟨offers, sources, st, after, step⟩ := parent_step move isParent
        have grown := traffic (st, []) (isParent ▸ after)
        rw [isParent] at grown
        rw [MutexRun.traffic, grown, after]
        exact parent ⟨ts, s, run⟩ _ _ ih offers sources step
      · obtain ⟨isChild, ready, ⟨next, step, after⟩ | fails⟩ := child_move move isParent
        · rw [MutexRun.traffic, traffic next after, after]
          exact child ⟨ts, s, run⟩ _ _ _ ih isChild ready step
        · exact absurd fails ((unfailing ⟨ts, s, run⟩).safe _ isChild _ ready)

/-- The same for what does not depend on the past. -/
theorem MutexRun.induction (unfailing : ∀ r : MutexRun cfg M, Unfailing cfg M r.final)
    {J : ProcessView μ → Prop} (start : J (initialState cfg M).view)
    (child : ∀ (r : MutexRun cfg M) p input next, J r.final.view → IsChild cfg.numChildren p →
      Ready cfg r.final.view p input →
      LocalStep cfg M p (r.final.loc p) input next →
      J ((r.final.view.consume p input).become p next))
    (parent : ∀ (r : MutexRun cfg M) input st, J r.final.view →
      r.final.view.Offers parentId input → (∀ x ∈ input, x.1 ≤ cfg.numChildren) →
      ParentStep cfg.numChildren (r.final.loc parentId) input st →
      J ((r.final.view.consume parentId input).become parentId (st, [])))
    (r : MutexRun cfg M) : J r.final.view :=
  MutexRun.induction_traffic (J := fun v _ => J v) unfailing start child parent r

end Distra
