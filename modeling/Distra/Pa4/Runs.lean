import Distra.Pa4.Control

/-!
# Runs of `pa4`, `pa5` and `pa6`

`MutexRun.invariant` is the induction over runs that the three mutexes share. What is observed of a
run are the messages taken by children and their entries into the critical section.
-/

namespace Distra

open Network

variable {μ : Type}

inductive Observation where
  | took (p q : Nat) (m : Message)
  | entered (p time : Nat)
  deriving DecidableEq, Repr

/-- `request_cs` has returned 0 and `release_cs` has not been called. -/
def Pc.Inside : Pc → Prop
  | .criticalSection _ => True
  | _ => False

instance : DecidablePred Pc.Inside
  | .criticalSection _ => isTrue trivial
  | .childSyncStarted | .awaitAllStarted _ | .iteration _ | .requestCs _ | .handleCsRequests
  | .awaitAllDone _ | .exited | .panicked | .aborted => isFalse id

/-- What a step of child `p` from `st` to `st'` shows, `stamp` giving the time of its request. -/
def childEvents (stamp : Nat → Process μ → Nat) (p : Nat) (input : Option (Nat × Message))
    (st st' : Process μ) : List Observation :=
  (input.toList.map fun x => .took p x.1 x.2) ++
    if ¬st.pc.Inside ∧ st'.pc.Inside then [.entered p (stamp p st')] else []

def events (stamp : Nat → Process μ → Nat) (v : ProcessView μ) (e : Event Nat Message)
    (v' : ProcessView μ) : List Observation :=
  if e.actor = parentId then []
  else childEvents stamp e.actor e.input (v.loc e.actor) (v'.loc e.actor)

theorem events_silent (stamp : Nat → Process μ → Nat) (v : ProcessView μ) (p q : Nat)
    (m : Message) : events stamp v (.send p q m) v = [] := by
  simp [events, childEvents, Event.input]

def MutexRun.observations {cfg : Config} {M : MutexCode μ} (stamp : Nat → Process μ → Nat)
    (r : MutexRun cfg M) : List Observation := observe (events stamp) r.transitions

/-- The critical sections that `p` has entered. -/
def entriesBy (p : Nat) (os : List Observation) : Nat :=
  os.countP fun
    | .entered p' _ => p' = p
    | _ => false

/-- From a request of `i` that `j` takes to the next entry of `i`, `j` enters at most once. -/
def BoundedOvertaking (n : Nat) (os : List Observation) : Prop :=
  ∀ i j, IsChild n i → IsChild n j → i ≠ j → ∀ m win, .took j i m :: win <:+: os →
    m.type = .csRequest → entriesBy i win = 0 → entriesBy j win ≤ 1

/-- The critical sections that a child at this point has entered. -/
def Pc.entries (self : Nat) : Pc → Nat
  | .iteration i | .requestCs i => i - 1
  | .criticalSection i => i
  | .handleCsRequests | .exited => 5 * self
  | _ => 0

/-- The loop counter is between its bounds. -/
def Pc.InRange (self : Nat) : Pc → Prop
  | .iteration i => 1 ≤ i ∧ i ≤ 5 * self + 1
  | .requestCs i | .criticalSection i => 1 ≤ i ∧ i ≤ 5 * self
  | _ => True

theorem LocalStep.entries {cfg : Config} {M : MutexCode μ} {p : Nat} {st : Process μ}
    {input : Option (Nat × Message)} {next : Next Nat (Process μ) Message}
    (h : LocalStep cfg M p st input next) (range : st.pc.InRange p) :
    next.1.pc.InRange p ∧
      next.1.pc.entries p =
        st.pc.entries p + if ¬st.pc.Inside ∧ next.1.pc.Inside then 1 else 0 := by
  have loop (k : Int) : (finalLoop k).InRange p ∧ (finalLoop k).entries p = 5 * p ∧
      ¬(finalLoop k).Inside := by
    unfold finalLoop
    split <;> simp [Pc.InRange, Pc.entries, Pc.Inside]
  cases h with
  | syncStarted pc => simp [childSyncStarted, pc, Pc.InRange, Pc.entries, Pc.Inside]
  | barrier pc => simp [pc, Pc.InRange, Pc.entries, Pc.Inside]
  | barrierWait pc => simp [pc, Pc.InRange, Pc.entries, Pc.Inside]
  | barrierEnd pc => simp [pc, Pc.InRange, Pc.entries, Pc.Inside]
  | request pc more =>
    rw [pc] at range
    exact ⟨⟨range.1, more⟩, by simp [pc, Process.at_, Pc.entries, Pc.Inside]⟩
  | finish pc last =>
    obtain ⟨inRange, done, outside⟩ := loop st.awaitingChildren
    rw [pc] at range
    refine ⟨inRange, ?_⟩
    have : (childSendDone cfg true p st).1.pc = finalLoop st.awaitingChildren := rfl
    rw [this, done, pc]
    simp only [Pc.entries, outside, and_false, if_false]
    have := range.2
    omega
  | @served i _ _ verdict _ _ pc _ _ =>
    rw [pc] at range ⊢
    have := range.1
    cases verdict <;>
      simp [Process.at_, Verdict.pc, Pc.entries, Pc.Inside, Pc.InRange] at range ⊢ <;> omega
  | doneServed pc =>
    rw [pc] at range
    exact ⟨range, by simp [pc, Process.at_, Pc.entries, Pc.Inside]⟩
  | @idle i verdict _ _ pc _ =>
    rw [pc] at range ⊢
    have := range.1
    cases verdict <;>
      simp [Process.at_, Verdict.pc, Pc.entries, Pc.Inside, Pc.InRange] at range ⊢ <;> omega
  | release pc =>
    rw [pc] at range
    refine ⟨⟨by omega, ?_⟩, by simp [pc, Process.at_, Pc.entries, Pc.Inside]⟩
    have := range.2
    omega
  | handled pc => simp [pc, Process.at_, Pc.InRange, Pc.entries, Pc.Inside]
  | doneHandled pc =>
    obtain ⟨inRange, done, outside⟩ := loop (st.awaitingChildren - 1)
    refine ⟨inRange, ?_⟩
    rw [if_neg (fun k => outside k.2), pc]
    exact done
  | handleWait pc => simp [pc, Pc.InRange, Pc.entries, Pc.Inside]

/-- The entries observed are those that the loop counters tell. -/
def Counted (cfg : Config) (v : ProcessView μ) (os : List Observation) : Prop :=
  ∀ p, IsChild cfg.numChildren p →
    (v.loc p).pc.InRange p ∧ entriesBy p os = (v.loc p).pc.entries p

theorem entriesBy_append (p : Nat) (os os' : List Observation) :
    entriesBy p (os ++ os') = entriesBy p os + entriesBy p os' := List.countP_append

theorem entriesBy_childEvents (stamp : Nat → Process μ → Nat) (p a : Nat)
    (input : Option (Nat × Message)) (st st' : Process μ) :
    entriesBy a (childEvents stamp p input st st') =
      if p = a ∧ ¬st.pc.Inside ∧ st'.pc.Inside then 1 else 0 := by
  have took : entriesBy a (input.toList.map fun x => .took p x.1 x.2) = 0 := by
    cases input <;> rfl
  rw [childEvents, entriesBy_append, took]
  by_cases h : ¬st.pc.Inside ∧ st'.pc.Inside
  · by_cases ha : p = a <;> simp [h, ha, entriesBy]
  · simp [h, entriesBy]

theorem Counted.keep {cfg : Config} {M : MutexCode μ} {v : ProcessView μ} {os : List Observation}
    (h : Counted cfg v os) (stamp : Nat → Process μ → Nat) {p : Nat}
    (child : IsChild cfg.numChildren p) {input : Option (Nat × Message)}
    {next : Next Nat (Process μ) Message} (step : LocalStep cfg M p (v.loc p) input next) :
    Counted cfg ((v.consume p input).become p next)
      (os ++ childEvents stamp p input (v.loc p) next.1) := by
  obtain ⟨inRange, count⟩ := step.entries (h p child).1
  intro a ha
  rw [View.consume_become_loc, entriesBy_append, entriesBy_childEvents, (h a ha).2]
  by_cases eq : a = p
  · subst eq
    rw [if_pos rfl]
    exact ⟨inRange, by rw [count]; simp⟩
  · rw [if_neg eq, if_neg (fun k => eq k.1.symm)]
    exact ⟨(h a ha).1, rfl⟩

theorem Control.initial (cfg : Config) (M : MutexCode μ) :
    Control cfg (initialState cfg M).view := by
  have pc {p : Nat} (child : IsChild cfg.numChildren p) :
      (initialProcess cfg M p).pc = .childSyncStarted := by
    simp [initialProcess, child.ne_parent]
  have loc (p : Nat) : (initialState cfg M).view.loc p = initialProcess cfg M p := rfl
  refine ⟨?_, fun _ _ => rfl, ?_, ?_, ?_⟩
  · intro p child
    rw [loc, pc child]
    simp [Pc.Healthy, Pc.Failed]
  · intro p q hp hq ne
    rw [loc, loc, pc hp, pc hq]
    exact ⟨fun _ => rfl, fun _ k => absurd rfl k, fun k => absurd (.inl rfl) k,
      fun _ _ hx => absurd hx List.not_mem_nil, Nat.zero_le _,
      fun _ hx => absurd hx List.not_mem_nil⟩
  · intro p child
    have all : (peers cfg.numChildren p).filter (Pending (initialState cfg M).view p) =
        peers cfg.numChildren p := by
      refine Finset.filter_true_of_mem fun q hq => .inl ?_
      rw [loc, pc (mem_peers.mp hq).2]
      simp [Pc.Finished]
    rw [all, card_peers child]
    have := cfg.pos
    simp only [loc, initialProcess]
    omega
  · intro p child
    rw [loc, pc child]
    simp

theorem Counted.initial (cfg : Config) (M : MutexCode μ) :
    Counted cfg (initialState cfg M).view [] := by
  intro p child
  have pc : ((initialState cfg M).view.loc p).pc = .childSyncStarted := by
    simp [initialState, initialProcess, child.ne_parent]
  rw [pc]
  exact ⟨trivial, rfl⟩

theorem Control.parent {cfg : Config} {v v' : ProcessView μ} (h : Control cfg v)
    (frame : ParentFrame v v') : Control cfg v' := by
  refine ⟨?_, ?_, ?_, ?_, ?_⟩
  · intro p child
    rw [frame.loc p child.ne_parent]
    exact h.healthy p child
  · intro p ne
    rw [frame.chan _ p ne]
    exact h.parentSilent p ne
  · intro p q hp hq neq
    rw [frame.loc p hp.ne_parent, frame.loc q hq.ne_parent, frame.chan q p hp.ne_parent]
    exact h.incoming p q hp hq neq
  · intro p child
    rw [frame.loc p child.ne_parent, h.awaiting p child]
    congr 2
    refine Finset.filter_congr fun q hq => ?_
    rw [Pending, Pending, frame.loc q (mem_peers.mp hq).2.ne_parent,
      frame.chan q p child.ne_parent]
  · intro p child
    rw [frame.loc p child.ne_parent]
    exact h.final p child

theorem Counted.parent {cfg : Config} {v v' : ProcessView μ} {os : List Observation}
    (h : Counted cfg v os) (frame : ParentFrame v v') : Counted cfg v' os := by
  intro p child
  rw [frame.loc p child.ne_parent]
  exact h p child

/-- The failures that are up to the mutex: a failed assertion, or a CS message handed back. -/
inductive MutexFails (cfg : Config) (M : MutexCode μ) (p : Nat) (st : Process μ) :
    Option (Nat × Message) → Prop
  | requestCs {i} : st.pc = .iteration i → M.requestCs cfg p st.locals = none →
      MutexFails cfg M p st none
  | take {i q m} : st.pc = .requestCs i → M.requestCsTake cfg p st.locals q m = none →
      MutexFails cfg M p st (some (q, m))
  | takeUnexpected {i q m l out} : st.pc = .requestCs i →
      M.requestCsTake cfg p st.locals q m = some (.nonCsMessageReceived, l, out) →
      m.type.IsCs → MutexFails cfg M p st (some (q, m))
  | retry {i q m l out} : st.pc = .requestCs i →
      M.requestCsTake cfg p st.locals q m = some (.nonCsMessageReceived, l, out) →
      m.type = .done → M.requestCs cfg p l = none → MutexFails cfg M p st (some (q, m))
  | empty {i} : st.pc = .requestCs i → M.requestCsEmpty cfg p st.locals = none →
      MutexFails cfg M p st none
  | release {i} : st.pc = .criticalSection i → M.releaseCs cfg p st.locals = none →
      MutexFails cfg M p st none
  | handle {q m} : st.pc = .handleCsRequests → M.handleCsRequests cfg p st.locals q m = none →
      MutexFails cfg M p st (some (q, m))
  | handleUnexpected {q m l out} : st.pc = .handleCsRequests →
      M.handleCsRequests cfg p st.locals q m = some (.nonCsMessageReceived, l, out) →
      m.type.IsCs → MutexFails cfg M p st (some (q, m))

theorem Control.fails {cfg : Config} {M : MutexCode μ} {v : ProcessView μ} (h : Control cfg v)
    {p : Nat} (child : IsChild cfg.numChildren p) {input : Option (Nat × Message)}
    (ready : Ready cfg v p input) (fails : Fails cfg M p (v.loc p) input) :
    MutexFails cfg M p (v.loc p) input := by
  have cs {q : Nat} {m : Message} (ready : Ready cfg v p (some (q, m)))
      (past : ¬(v.loc p).pc.Awaits q) (other : m.type ≠ .done) : m.type.IsCs := by
    obtain ⟨qchild, ne⟩ := h.sender_child child ready
    obtain ⟨-, -, rest, head⟩ := ready
    have link := h.incoming p q child qchild ne.symm
    rw [head] at link
    exact (link.cs_or_done past m (by simp)).resolve_right other
  cases fails with
  | @barrier fr q m pc next unexpected =>
    obtain ⟨qchild, ne⟩ := h.sender_child child ready
    obtain ⟨-, -, rest, head⟩ := ready
    have link := h.incoming p q child qchild ne.symm
    rw [head] at link
    have sent : (v.loc q).pc ≠ .childSyncStarted := fun start => by simpa using link.unsent start
    obtain ⟨lt, -⟩ := ipcReceiveAllNext_eq_some next
    obtain ⟨_, _, eq, started, -⟩ := link.awaited (.inr ⟨fr, pc, lt⟩) sent
    cases eq
    exact absurd started unexpected
  | requestCs pc failed => exact .requestCs pc failed
  | take pc failed => exact .take pc failed
  | takeUnexpected pc taken other =>
    exact .takeUnexpected pc taken (cs ready (by simp [pc, Pc.Awaits]) other)
  | retry pc taken type failed => exact .retry pc taken type failed
  | empty pc failed => exact .empty pc failed
  | release pc failed => exact .release pc failed
  | handle pc failed => exact .handle pc failed
  | handleUnexpected pc taken other =>
    exact .handleUnexpected pc taken (cs ready (by simp [pc, Pc.Awaits]) other)

/-- The induction over runs for one `mutex.c`: an invariant `J` that excludes every failure and is
kept by the steps of the children holds at the end of every run. -/
theorem MutexRun.invariant {cfg : Config} {M : MutexCode μ} (lawful : M.Lawful)
    (stamp : Nat → Process μ → Nat) {J : ProcessView μ → List Observation → Prop}
    (start : J (initialState cfg M).view [])
    (safe : ∀ v os p input, Control cfg v → J v os → IsChild cfg.numChildren p →
      Ready cfg v p input → ¬MutexFails cfg M p (v.loc p) input)
    (keep : ∀ v os p input next, Control cfg v → J v os → IsChild cfg.numChildren p →
      Ready cfg v p input → LocalStep cfg M p (v.loc p) input next →
      J ((v.consume p input).become p next) (os ++ childEvents stamp p input (v.loc p) next.1))
    (parent : ∀ v v' os, J v os → ParentFrame v v' → J v' os) (r : MutexRun cfg M) :
    Control cfg r.final.view ∧ Counted cfg r.final.view (r.observations stamp) ∧
      J r.final.view (r.observations stamp) := by
  refine Run.invariant (I := fun v os => Control cfg v ∧ Counted cfg v os ∧ J v os)
    (events_silent stamp) ⟨.initial cfg M, .initial cfg M, start⟩ ?_ r.run
  intro v e v' os ⟨control, counted, inv⟩ move
  by_cases isParent : e.actor = parentId
  · have frame := parent_move move isParent
    rw [events, if_pos isParent, List.append_nil]
    exact ⟨control.parent frame, counted.parent frame, parent _ _ _ inv frame⟩
  · obtain ⟨child, ready, ⟨next, step, rfl⟩ | fails⟩ := child_move move isParent
    · rw [events, if_neg isParent, View.consume_become_loc, if_pos rfl]
      exact ⟨control.keep child ready (step.control lawful), counted.keep stamp child step,
        keep _ _ _ _ _ control inv child ready step⟩
    · exact absurd (control.fails child ready fails) (safe _ _ _ _ control inv child ready)

end Distra
