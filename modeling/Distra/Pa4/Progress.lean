import Distra.Pa4.Grants
import Mathlib.Data.Finset.Max

/-!
# When no child can go on

A state in which the only steps left to the children are empty polls. Its children stand at a poll
or have exited, and unless all have exited some of them wait in `request_cs`.
-/

namespace Distra

open Network

variable {μ : Type} {cfg : Config} {M : MutexCode μ}

abbrev ProcessState (μ : Type) := State Nat (Process μ) Message

/-- A poll that finds nothing and goes back to the poll. -/
def EmptyPoll (s : ProcessState μ) (e : Event Nat Message) (s' : ProcessState μ) : Prop :=
  (∃ p, e = .empty p) ∧ s' = s

/-- Some child can take a step other than an empty poll. -/
def CanStep (cfg : Config) (M : MutexCode μ) (s : ProcessState μ) : Prop :=
  ∃ e s', IsChild cfg.numChildren e.actor ∧ Step (spawnChildren cfg M true) s e s' ∧
    ¬EmptyPoll s e s'

def MutexRun.start (cfg : Config) (M : MutexCode μ) : MutexRun cfg M := ⟨[], _, .nil⟩

def twoChildren : Config := ⟨2, 15, Nat.le_add_right 1 1, Nat.le_add_right 2 13⟩

/-- Two children up to their requests. -/
def bothAsk : List (Choice Nat) :=
  [.act 1, .send 1, .send 1, .act 2, .send 2, .send 2, .take 1 2, .take 2 1, .act 1, .act 1,
    .send 1, .act 2, .act 2]

/-- Every child has entered its critical sections and left the last loop. -/
def MutexRun.Completed (r : MutexRun cfg M) (stamp : Nat → Process μ → Nat) : Prop :=
  ∀ p, IsChild cfg.numChildren p →
    (r.final.loc p).pc = .exited ∧ entriesBy p (r.observations stamp) = 5 * p

structure Stuck (cfg : Config) (M : MutexCode μ) (s : ProcessState μ) : Prop where
  flushed : ∀ p, IsChild cfg.numChildren p → s.outbox p = []
  polls : ∀ p, IsChild cfg.numChildren p →
    (∃ i, (s.loc p).pc = .requestCs i) ∨ (s.loc p).pc = .handleCsRequests ∨
      (s.loc p).pc = .exited
  idle : ∀ p, IsChild cfg.numChildren p → ∀ i, (s.loc p).pc = .requestCs i →
    s.become p (requestCsIdle cfg M p i (s.loc p)) = s
  silent : ∀ p q, IsChild cfg.numChildren p → IsChild cfg.numChildren q → q ≠ p →
    (s.loc p).pc ≠ .exited → s.transit q p = []

section NotCanStep

variable {s : ProcessState μ} (stuck : ¬CanStep cfg M s) {p : Nat}
  (child : IsChild cfg.numChildren p)
include stuck child

omit stuck in
theorem child_spawned (st : Process μ) :
    spawnChildren cfg M true p st = childEntry cfg M true p st := by
  simp [spawnChildren, child.ne_parent, child.2]

theorem flushed_of_stuck : s.outbox p = [] := by
  cases pending : s.outbox p with
  | nil => rfl
  | cons x rest =>
    refine absurd ⟨.send p x.1 x.2, _, child, .send pending, ?_⟩ stuck
    rintro ⟨⟨_, eq⟩, -⟩
    cases eq

theorem no_act (next : Next Nat (Process μ) Message) :
    childEntry cfg M true p (s.loc p) ≠ .act next := by
  intro code
  have code := (child_spawned child _).trans code
  refine stuck ⟨.act p, _, child, .act (flushed_of_stuck stuck child) code, ?_⟩
  rintro ⟨⟨_, eq⟩, -⟩
  cases eq

theorem no_receive {q : Nat} {onMessage : Message → Next Nat (Process μ) Message}
    {onEmpty : Next Nat (Process μ) Message}
    (code : childEntry cfg M true p (s.loc p) = .receive q onMessage onEmpty) :
    s.chan q p = [] := by
  have code := (child_spawned child _).trans code
  cases head : s.chan q p with
  | nil => rfl
  | cons m rest =>
    refine absurd ⟨.take p q m, _, child,
      .receive (flushed_of_stuck stuck child) code head, ?_⟩ stuck
    rintro ⟨⟨_, eq⟩, -⟩
    cases eq

theorem no_poll {sources : List Nat} {onMessage : Nat → Message → Next Nat (Process μ) Message}
    {onEmpty : Next Nat (Process μ) Message}
    (code : childEntry cfg M true p (s.loc p) = .poll sources onMessage onEmpty) :
    (∀ q ∈ sources, s.chan q p = []) ∧ s.become p onEmpty = s := by
  have code := (child_spawned child _).trans code
  constructor
  · intro q mem
    cases head : s.chan q p with
    | nil => rfl
    | cons m rest =>
      refine absurd ⟨.take p q m, _, child,
        .poll (flushed_of_stuck stuck child) code mem head, ?_⟩ stuck
      rintro ⟨⟨_, eq⟩, -⟩
      cases eq
  · by_contra moves
    refine stuck ⟨.empty p, _, child, .pollEmpty (flushed_of_stuck stuck child) code, ?_⟩
    exact fun empty => moves empty.2

end NotCanStep

theorem Stuck.of_not_canStep {s : ProcessState μ} (control : Control cfg s.view)
    (stuck : ¬CanStep cfg M s) : Stuck cfg M s := by
  have flushed (p : Nat) (child : IsChild cfg.numChildren p) := flushed_of_stuck stuck child
  have started (p : Nat) (child : IsChild cfg.numChildren p) :
      (s.loc p).pc ≠ .childSyncStarted := by
    intro pc
    exact no_act stuck child _ (by simp [childEntry, pc]; rfl)
  have transit {p q : Nat} (child : IsChild cfg.numChildren q) : s.transit q p = s.chan q p :=
    State.transit_of_idle (flushed q child) p
  have polls (p : Nat) (child : IsChild cfg.numChildren p) :
      (∃ i, (s.loc p).pc = .requestCs i) ∨ (s.loc p).pc = .handleCsRequests ∨
        (s.loc p).pc = .exited := by
    have healthy := control.healthy p child
    rw [State.view_loc] at healthy
    cases pc : (s.loc p).pc with
    | childSyncStarted => exact absurd pc (started p child)
    | awaitAllStarted fr =>
      cases next : ipcReceiveAllNext cfg.numChildren p fr with
      | none => exact absurd (by simp [childEntry, pc, next]; rfl) (no_act stuck child _)
      | some q =>
        obtain ⟨lt, le, ne, -⟩ := ipcReceiveAllNext_eq_some next
        have qchild : IsChild cfg.numChildren q := ⟨Nat.zero_lt_of_lt lt, le⟩
        have link := control.incoming p q child qchild ne.symm
        obtain ⟨m, rest, head, -⟩ := link.awaited (.inr ⟨fr, pc, lt⟩) (started q qchild)
        have empty : s.chan q p = [] :=
          no_receive stuck child (by simp only [childEntry, pc, next]; rfl)
        rw [State.view_chan, transit qchild, empty] at head
        cases head
    | iteration i => exact absurd (by simp only [childEntry, pc]; rfl) (no_act stuck child _)
    | requestCs i => exact .inl ⟨i, rfl⟩
    | criticalSection i =>
      exact absurd (by simp only [childEntry, pc]; rfl) (no_act stuck child _)
    | handleCsRequests => exact .inr (.inl rfl)
    | awaitAllDone fr => exact absurd pc (healthy.2 fr)
    | exited => exact .inr (.inr rfl)
    | panicked => exact absurd (.inl pc) healthy.1
    | aborted => exact absurd (.inr pc) healthy.1
  refine ⟨flushed, polls, ?_, ?_⟩
  · intro p child i pc
    exact (no_poll stuck child (by simp only [childEntry, pc]; rfl)).2
  · intro p q child qchild ne running
    rw [transit qchild]
    have mem : q ∈ otherProcesses cfg.numChildren p := mem_otherProcesses.mpr ⟨qchild.2, ne⟩
    rcases polls p child with ⟨i, pc⟩ | pc | pc
    · exact (no_poll stuck child (by simp only [childEntry, pc]; rfl)).1 q mem
    · exact (no_poll stuck child (by simp only [childEntry, pc]; rfl)).1 q mem
    · exact absurd pc running

/-- Unless all children have exited, some wait in `request_cs` and nothing is in transit between
the children. -/
theorem Stuck.exited_or_waiting {s : ProcessState μ} (control : Control cfg s.view)
    (stuck : Stuck cfg M s) :
    (∀ p, IsChild cfg.numChildren p → (s.loc p).pc = .exited) ∨
      (∃ p, IsChild cfg.numChildren p ∧ ∃ i, (s.loc p).pc = .requestCs i) ∧
        ∀ p, IsChild cfg.numChildren p → (s.loc p).pc ≠ .exited ∧
          ∀ q, IsChild cfg.numChildren q → q ≠ p → s.transit q p = [] := by
  have finished {p : Nat} (child : IsChild cfg.numChildren p) (exited : (s.loc p).pc = .exited)
      (q : Nat) (qchild : IsChild cfg.numChildren q) : (s.loc q).pc.Finished := by
    by_cases eq : q = p
    · exact eq ▸ .inr exited
    · by_contra unfinished
      have awaiting := control.awaiting p child
      have left := (control.final p child).2 exited
      rw [awaiting] at left
      have mem : q ∈ (peers cfg.numChildren p).filter (Pending s.view p) :=
        Finset.mem_filter.mpr ⟨mem_peers.mpr ⟨eq, qchild⟩, .inl unfinished⟩
      have := Finset.card_pos.mpr ⟨q, mem⟩
      omega
  have waited {p : Nat} (child : IsChild cfg.numChildren p)
      (pc : (s.loc p).pc = .handleCsRequests) :
      ∃ q, IsChild cfg.numChildren q ∧ ¬(s.loc q).pc.Finished := by
    have left := (control.final p child).1 pc
    rw [control.awaiting p child] at left
    obtain ⟨q, mem⟩ := Finset.card_pos.mp (Int.natCast_pos.mp left)
    obtain ⟨peer, pending⟩ := Finset.mem_filter.mp mem
    obtain ⟨ne, qchild⟩ := mem_peers.mp peer
    refine ⟨q, qchild, ?_⟩
    rcases pending with unfinished | ⟨x, inTransit, -⟩
    · exact unfinished
    · rw [State.view_chan, stuck.silent p q child qchild ne (by simp [pc])] at inTransit
      cases inTransit
  by_cases waiting : ∃ p, IsChild cfg.numChildren p ∧ ∃ i, (s.loc p).pc = .requestCs i
  · refine .inr ⟨waiting, fun p child => ?_⟩
    have running : (s.loc p).pc ≠ .exited := by
      intro exited
      obtain ⟨q, qchild, i, pc⟩ := waiting
      have := finished child exited q qchild
      simp [pc, Pc.Finished] at this
    exact ⟨running, fun q qchild ne => stuck.silent p q child qchild ne running⟩
  · refine .inl fun p child => ?_
    rcases stuck.polls p child with ⟨i, pc⟩ | pc | pc
    · exact absurd ⟨p, child, i, pc⟩ waiting
    · obtain ⟨q, qchild, unfinished⟩ := waited child pc
      rcases stuck.polls q qchild with ⟨i, pc⟩ | pc | pc
      · exact absurd ⟨q, qchild, i, pc⟩ waiting
      · exact absurd (.inl pc) unfinished
      · exact absurd (.inr pc) unfinished
    · exact pc

/-- A child that polls is in no critical section. -/
theorem Stuck.waiting_of_active {s : ProcessState μ} (stuck : Stuck cfg M s) {p : Nat}
    (child : IsChild cfg.numChildren p) (active : (s.loc p).pc.phase ≠ .idle) :
    (s.loc p).pc.phase = .waiting := by
  rcases stuck.polls p child with ⟨i, pc⟩ | pc | pc
  · rw [pc]
    rfl
  · exact absurd (congrArg Pc.phase pc) active
  · exact absurd (congrArg Pc.phase pc) active

/-- Among the children that wait, one has the smallest label. -/
theorem exists_least_waiting {α : Type} [LinearOrder α] {s : ProcessState μ}
    (label : Child cfg.numChildren → α)
    (waiting : ∃ p, IsChild cfg.numChildren p ∧ ∃ i, (s.loc p).pc = .requestCs i) :
    ∃ p : Child cfg.numChildren, (s.loc p).pc.phase = .waiting ∧
      ∀ q : Child cfg.numChildren, (s.loc q).pc.phase = .waiting → label p ≤ label q := by
  obtain ⟨p₀, child₀, i, pc⟩ := waiting
  have nonempty : (Finset.univ.filter (fun p : Child cfg.numChildren =>
      (s.loc p).pc.phase = .waiting)).Nonempty :=
    ⟨⟨p₀, child₀⟩, Finset.mem_filter.mpr ⟨Finset.mem_univ _, by rw [pc]; rfl⟩⟩
  obtain ⟨p, mem, least⟩ := Finset.exists_min_image _ label nonempty
  refine ⟨p, (Finset.mem_filter.mp mem).2, fun q waits => least q ?_⟩
  exact Finset.mem_filter.mpr ⟨Finset.mem_univ _, waits⟩

/-- A run is over or some child can go on, unless the children wait for each other with nothing in
transit between them. -/
theorem MutexRun.completed_or_canStep {stamp : Nat → Process μ → Nat} (r : MutexRun cfg M)
    (control : Control cfg r.final.view) (counted : Counted cfg r.final.view (r.observations stamp))
    (goesOn : Stuck cfg M r.final →
      (∃ p, IsChild cfg.numChildren p ∧ ∃ i, (r.final.loc p).pc = .requestCs i) →
      (∀ p q, IsChild cfg.numChildren p → IsChild cfg.numChildren q → q ≠ p →
        r.final.transit q p = []) → False) :
    r.Completed stamp ∨ CanStep cfg M r.final := by
  by_cases moves : CanStep cfg M r.final
  · exact .inr moves
  left
  have stuck := Stuck.of_not_canStep control moves
  rcases stuck.exited_or_waiting control with exited | ⟨waiting, rest⟩
  · intro p child
    refine ⟨exited p child, ?_⟩
    rw [(counted p child).2, State.view_loc, exited p child]
    rfl
  · exact (goesOn stuck waiting fun p q child qchild ne => (rest p child).2 q qchild ne).elim

end Distra
