import Distra.Pa4.Departures

/-!
# All processes come to their end

A child goes through its program once, and sends so many messages. So only so many steps of a run
are not polls in vain. Wherever no other step is left, all processes have ended.
-/

namespace Distra

open Network

variable {μ : Type} {cfg : Config} {M : MutexCode μ}

/-- How far a process at this point has come. -/
def Pc.rank (self : Nat) : Pc → Nat
  | .childSyncStarted => 0
  | .awaitAllStarted _ => 1
  | .awaitAllDone _ => 2
  | .iteration i => 3 * i - 1
  | .requestCs i => 3 * i
  | .criticalSection i => 3 * i + 1
  | .handleCsRequests | .exited | .panicked | .aborted => 15 * self + 3

section Rank

variable {p : Nat} {st : Process μ} {input : Option (Nat × Message)}
  {next : Next Nat (Process μ) Message}

theorem rank_finalLoop (k : Int) (p : Nat) : (finalLoop k).rank p = 15 * p + 3 := by
  unfold finalLoop
  split <;> rfl

theorem Pc.rank_le {pc : Pc} (range : pc.InRange p) : pc.rank p ≤ 15 * p + 3 := by
  cases pc <;> simp only [Pc.rank, Pc.InRange] at range ⊢ <;> omega

/-- A child does not go back, and every step without a message takes it on, or it changes nothing
as far as the mutex lets it. -/
theorem LocalStep.rank (step : LocalStep cfg M p st input next) (range : st.pc.InRange p) :
    st.pc.rank p ≤ next.1.pc.rank p ∧
      (input = none → st.pc.rank p < next.1.pc.rank p ∨ next = (st, []) ∨
        ∃ i verdict l out, st.pc = .requestCs i ∧
          M.requestCsEmpty cfg p st.locals = some (verdict, l, out) ∧ verdict ≠ .entered ∧
          next = (st.at_ (.requestCs i) l, out)) := by
  cases step with
  | syncStarted pc => simp [childSyncStarted, pc, Pc.rank]
  | barrier pc => simp [pc, Pc.rank]
  | barrierWait pc => exact ⟨le_rfl, fun _ => .inr (.inl rfl)⟩
  | barrierEnd pc => simp [pc, Pc.rank]
  | request pc =>
    rw [pc] at range ⊢
    have := range.1
    simp only [Process.at_, Pc.rank]
    omega
  | finish pc =>
    rw [pc] at range ⊢
    have := range.2
    have after : (childSendDone cfg true p st).1.pc.rank p = 15 * p + 3 := rank_finalLoop _ p
    rw [after, Pc.rank]
    omega
  | @served i q m verdict l out pc taken cs =>
    rw [pc]
    cases verdict <;> simp [Process.at_, Verdict.pc, Pc.rank]
  | doneServed pc => simp [pc, Process.at_, Pc.rank]
  | @idle i verdict l out pc found =>
    rw [pc]
    cases verdict with
    | entered => simp [Process.at_, Verdict.pc, Pc.rank]
    | waits => exact ⟨le_rfl, fun _ => .inr (.inr ⟨i, _, l, out, rfl, found, by simp, rfl⟩)⟩
    | nonCsMessageReceived =>
      exact ⟨le_rfl, fun _ => .inr (.inr ⟨i, _, l, out, rfl, found, by simp, rfl⟩)⟩
  | release pc =>
    simp only [pc, Process.at_, Pc.rank]
    omega
  | handled pc => simp [pc, Process.at_, Pc.rank]
  | doneHandled pc =>
    rw [pc]
    exact ⟨(rank_finalLoop _ p).ge, fun silent => by cases silent⟩
  | handleWait pc => exact ⟨le_rfl, fun _ => .inr (.inl rfl)⟩

theorem ParentStep.rank {n : Nat} {st' : Process μ} (step : ParentStep n st input st') :
    st.pc.rank parentId ≤ st'.pc.rank parentId ∧
      (input = none → st.pc.rank parentId < st'.pc.rank parentId ∨ st' = st) := by
  cases step with
  | started pc | allStarted pc | done pc | allDone pc => simp [pc, Pc.rank]
  | unexpected pc =>
    rcases pc with ⟨pc, -⟩ | ⟨pc, -⟩ <;> simp [pc, Pc.rank]
  | blocked => exact ⟨le_rfl, fun _ => .inr rfl⟩

/-- A step of its own changes the point at which a process stands. -/
theorem act_moves (code : spawnChildren cfg M true p st = .act next) : next.1.pc ≠ st.pc := by
  have loop (k : Int) (i : Nat) : finalLoop k ≠ .iteration i := by
    unfold finalLoop
    split <;> nofun
  unfold spawnChildren at code
  split at code
  · unfold parentEntry at code
    dsimp only at code
    split at code
    next pc =>
      split at code <;> cases code
      rw [pc]
      nofun
    next pc =>
      split at code <;> cases code
      rw [pc]
      nofun
    next => cases code
  · split at code
    next =>
      unfold childEntry at code
      dsimp only at code
      split at code
      next pc =>
        cases code
        rw [pc]
        nofun
      next pc =>
        split at code <;> cases code
        rw [pc]
        nofun
      next i pc =>
        cases code
        rw [pc]
        split
        · unfold callRequestCs
          cases M.requestCs cfg p st.locals <;> nofun
        · exact loop st.awaitingChildren i
      next => cases code
      next i pc =>
        cases code
        rw [pc]
        split <;> nofun
      all_goals cases code
    next => cases code

end Rank

/-- Where a step without a message leaves its process as it was, it is a poll in vain. -/
theorem idle_of_still {s s' : ProcessState μ} {e : Event Nat Message}
    (step : Step (spawnChildren cfg M true) s e s')
    (move : Move (spawnChildren cfg M true) s.view e s'.view) (silent : e.input = none)
    (still : s'.view = s.view.become e.actor (s.loc e.actor, [])) :
    Transition.Idle ⟨s, e, s'⟩ := by
  have same {p : Nat} {next : Next Nat (Process μ) Message} (idle : s.outbox p = [])
      (still : (s.become p next).view = s.view.become p (s.loc p, [])) :
      next = (s.loc p, []) := by
    obtain ⟨state, sends⟩ := State.become_congr idle still
    refine Prod.ext state (List.eq_nil_iff_forall_not_mem.mpr fun x mem => ?_)
    have mem : x.2 ∈ outTo next.2 x.1 := mem_outTo.mpr mem
    rw [sends] at mem
    cases mem
  cases step with
  | send => cases move
  | act idle code => exact absurd (congrArg (·.1.pc) (same idle still)) (act_moves code)
  | pollEmpty idle | receiveEmpty idle =>
    refine ⟨⟨_, rfl⟩, ?_⟩
    dsimp only
    rw [same idle still, State.become_self idle]
  | poll | receive => cases silent

/-! ## Every run -/

/-- The local ids of all processes. -/
def processes (n : Nat) : Finset Nat := Finset.range (n + 1)

theorem mem_processes {n p : Nat} : p ∈ processes n ↔ p ≤ n := by
  rw [processes, Finset.mem_range, Nat.lt_succ_iff]

/-- How far all processes have come. -/
def ranks (n : Nat) (s : ProcessState μ) : Nat := ∑ p ∈ processes n, (s.loc p).pc.rank p

/-- What `child_entry` expects of its mutex to come to its end. -/
structure MutexCode.Ends (cfg : Config) (M : MutexCode μ) (stamp : Nat → Process μ → Nat)
    (share : Nat → Nat → Nat) : Prop where
  leaves : M.Leaves cfg
  /-- A poll in vain lets the child in, or it leaves everything as it was. -/
  polls : ∀ (r : MutexRun cfg M) p i verdict l out, IsChild cfg.numChildren p →
    (r.final.loc p).pc = .requestCs i →
    M.requestCsEmpty cfg p (r.final.loc p).locals = some (verdict, l, out) → verdict ≠ .entered →
    l = (r.final.loc p).locals ∧ out = []
  counted : ∀ r : MutexRun cfg M, Counted cfg r.final.view (r.observations stamp)
  sends : ∀ (r : MutexRun cfg M) a b, (r.traffic.sent a b).length ≤ share a b
  goesOn : ∀ r : MutexRun cfg M, r.Completed stamp ∨ CanStep cfg M r.final

namespace MutexRun

variable {stamp : Nat → Process μ → Nat} {share : Nat → Nat → Nat} (ends : M.Ends cfg stamp share)
  (r : MutexRun cfg M) {s' : ProcessState μ} {e : Event Nat Message}
include ends

/-- A step that moves a process keeps the rank, and raises it without a message. -/
theorem ranked_move (step : Step (spawnChildren cfg M true) r.final e s')
    (move : Move (spawnChildren cfg M true) r.final.view e s'.view) :
    (e.actor ≤ cfg.numChildren ∧ ∀ x ∈ e.input, x.1 ≤ cfg.numChildren) ∧
      ranks cfg.numChildren r.final ≤ ranks cfg.numChildren s' ∧
        (e.input = none → ¬Transition.Idle ⟨r.final, e, s'⟩ →
          ranks cfg.numChildren r.final < ranks cfg.numChildren s') := by
  have sum {next : Next Nat (Process μ) Message} (le : e.actor ≤ cfg.numChildren)
      (after : s'.view = (r.final.view.consume e.actor e.input).become e.actor next) :
      ranks cfg.numChildren s' + (r.final.loc e.actor).pc.rank e.actor =
        ranks cfg.numChildren r.final + next.1.pc.rank e.actor := by
    have become := sum_rank_become (processes cfg.numChildren) (fun a st => st.pc.rank a)
      r.final.view e.input next (mem_processes.mpr le)
    rw [← after] at become
    exact become
  by_cases isParent : e.actor = parentId
  · obtain ⟨-, sources, st, after, parent⟩ := parent_step move isParent
    have le : e.actor ≤ cfg.numChildren := isParent ▸ parent_le _
    rw [← isParent] at after parent
    have sum := sum le after
    obtain ⟨keeps, raises⟩ := parent.rank
    rw [← isParent, State.view_loc] at keeps raises
    dsimp only at sum
    refine ⟨⟨le, sources⟩, by omega, fun silent busy => ?_⟩
    rcases raises silent with lt | rfl
    · omega
    · refine absurd (idle_of_still step move silent ?_) busy
      rw [after, silent]
      rfl
  · obtain ⟨isChild, ready, ⟨next, localStep, after⟩ | fails⟩ := child_move move isParent
    · have sum := sum isChild.2 after
      obtain ⟨keeps, raises⟩ := localStep.rank (ends.counted r _ isChild).1
      rw [State.view_loc] at keeps raises
      refine ⟨⟨isChild.2, ready.le⟩, by omega, fun silent busy => ?_⟩
      rcases raises silent with lt | rfl | ⟨i, verdict, l, out, pc, found, waits, rfl⟩
      · omega
      · refine absurd (idle_of_still step move silent ?_) busy
        rw [after, silent]
        rfl
      · obtain ⟨rfl, rfl⟩ := ends.polls r _ _ _ _ _ isChild pc found waits
        refine absurd (idle_of_still step move silent ?_) busy
        rw [after, silent, ← pc]
        rfl
    · exact absurd fails ((ends.leaves.unfailing r).safe _ isChild _ ready)

end MutexRun

/-- The steps that are not polls in vain, at most. -/
def stepLimit (n : Nat) (share : Nat → Nat → Nat) : Nat :=
  ∑ p ∈ processes n, (15 * p + 3) + ∑ c ∈ processes n ×ˢ processes n, 2 * share c.1 c.2

namespace MutexRun

variable {stamp : Nat → Process μ → Nat} {share : Nat → Nat → Nat} (ends : M.Ends cfg stamp share)
include ends

theorem write_within (r : MutexRun cfg M) {s' : ProcessState μ} {p q : Nat} {m : Message}
    (step : Step (spawnChildren cfg M true) r.final (.send p q m) s') :
    p ≤ cfg.numChildren ∧ q ≤ cfg.numChildren := by
  have announced := (r.announces ends.leaves).announced
  have pending : r.traffic.sent p q ≠ [] := by
    intro none_
    have fifo := r.sent_eq p q
    rw [none_] at fifo
    have inTransit := step.send_transit
    rw [← State.view_chan, (List.append_eq_nil_iff.mp fifo.symm).2] at inTransit
    cases inTransit
  constructor <;> by_contra far
  · exact pending (announced.silent p q fun child => far child.2)
  · exact pending (announced.within p q (Nat.not_le.mp far))

theorem climbs : Climbs (spawnChildren cfg M true) (initialState cfg M) Transition.Idle fun ts s =>
    ranks cfg.numChildren s +
      volume (processes cfg.numChildren ×ˢ processes cfg.numChildren) ts := by
  refine @Climbs.of_ranked _ _ _ _ _ _ (processes cfg.numChildren ×ˢ processes cfg.numChildren)
    _ (fun _ s => ranks cfg.numChildren s) fun {ts s e s'} run step => ?_
  have channel {a b : Nat} (ha : a ≤ cfg.numChildren) (hb : b ≤ cfg.numChildren) :
      (a, b) ∈ processes cfg.numChildren ×ˢ processes cfg.numChildren :=
    Finset.mem_product.mpr ⟨mem_processes.mpr ha, mem_processes.mpr hb⟩
  rcases step.view with ⟨same, p, q, m, rfl⟩ | move
  · obtain ⟨sender, receiver⟩ := write_within ends ⟨ts, s, run⟩ step
    have loc : s'.loc = s.loc := congrArg View.loc same
    have keeps : ranks cfg.numChildren s = ranks cfg.numChildren s' := by
      rw [ranks, ranks, loc]
    refine ⟨?_, nofun, keeps.le, fun nothing => absurd rfl (nothing p q m)⟩
    rintro _ _ _ ⟨⟩
    exact channel sender receiver
  · obtain ⟨⟨actor, source⟩, keeps, raises⟩ := ranked_move ends ⟨ts, s, run⟩ step move
    refine ⟨?_, ?_, keeps, fun _ silent busy => raises silent busy⟩
    · rintro p q m rfl
      cases move
    · rintro p q m rfl
      exact channel (source _ rfl) actor

theorem measure_le {ts : List (Transition Nat (Process μ) Message)} {s : ProcessState μ}
    (run : Run (spawnChildren cfg M true) (initialState cfg M) ts s) :
    ranks cfg.numChildren s + volume (processes cfg.numChildren ×ˢ processes cfg.numChildren) ts ≤
      stepLimit cfg.numChildren share := by
  have ranked : ranks cfg.numChildren s ≤ ∑ p ∈ processes cfg.numChildren, (15 * p + 3) := by
    refine Finset.sum_le_sum fun p mem => ?_
    by_cases parent : p = parentId
    · subst parent
      rcases (announces ends.leaves ⟨ts, s, run⟩).oversees with ⟨fr, pc⟩ | ⟨fr, pc⟩ | pc <;>
        rw [← State.view_loc, pc, Pc.rank] <;> omega
    · exact Pc.rank_le
        (ends.counted ⟨ts, s, run⟩ p ⟨Nat.pos_of_ne_zero parent, mem_processes.mp mem⟩).1
  have sent := volume_le_sent (C := processes cfg.numChildren ×ˢ processes cfg.numChildren) run
    fun _ _ => rfl
  have shared : ∑ c ∈ processes cfg.numChildren ×ˢ processes cfg.numChildren,
      2 * ((Network.traffic ts s).sent c.1 c.2).length ≤
        ∑ c ∈ processes cfg.numChildren ×ˢ processes cfg.numChildren, 2 * share c.1 c.2 :=
    Finset.sum_le_sum fun c _ => Nat.mul_le_mul_left 2 (ends.sends ⟨ts, s, run⟩ c.1 c.2)
  exact Nat.add_le_add ranked (sent.trans shared)

end MutexRun

/-! ## The end -/

namespace MutexRun

/-- All processes have ended after their critical sections, and nothing is left in the channels. -/
structure Ended (stamp : Nat → Process μ → Nat) (r : MutexRun cfg M) : Prop where
  exited : ∀ p ≤ cfg.numChildren, (r.final.loc p).pc = .exited
  flushed : ∀ p, r.final.outbox p = []
  empty : ∀ p q, r.final.chan p q = []
  entries : ∀ p, IsChild cfg.numChildren p → entriesBy p (r.observations stamp) = 5 * p

/-- Nothing but polls in vain keeps a run from its end. -/
structure Terminates (stamp : Nat → Process μ → Nat) (limit : Nat) (r : MutexRun cfg M) :
    Prop where
  bounded : ∀ l : List (Transition Nat (Process μ) Message), l.Sublist r.transitions →
    (∀ t ∈ l, ¬t.Idle) → l.length ≤ limit
  ended : ¬r.final.CanStep (spawnChildren cfg M true) ↔ r.Ended stamp
  continues : ∃ r' : MutexRun cfg M, r.transitions <+: r'.transitions ∧ r'.Ended stamp

theorem Ended.not_canStep {stamp : Nat → Process μ → Nat} {r : MutexRun cfg M}
    (ended : r.Ended stamp) : ¬r.final.CanStep (spawnChildren cfg M true) := by
  have stopped (p : Nat) : spawnChildren cfg M true p (r.final.loc p) = .stop := by
    by_cases le : p ≤ cfg.numChildren
    · exact code_exited p (ended.exited p le)
    · have far : p ≠ parentId := fun eq => le (eq ▸ parent_le _)
      rw [spawnChildren, if_neg far, if_neg le]
  rintro ⟨e, s', step, -⟩
  cases step with
  | send pending => cases (ended.flushed _).symm.trans pending
  | act _ code | poll _ code | pollEmpty _ code | receive _ code | receiveEmpty _ code =>
    cases (stopped _).symm.trans code

variable {stamp : Nat → Process μ → Nat} {share : Nat → Nat → Nat} (ends : M.Ends cfg stamp share)
  (r : MutexRun cfg M)
include ends

/-- Where all children have ended, the parent finds what it waits for. -/
theorem parent_ends (still : ¬r.final.CanStep (spawnChildren cfg M true))
    (exited : ∀ p, IsChild cfg.numChildren p → (r.final.loc p).pc = .exited)
    (flushed : ∀ p, r.final.outbox p = []) : (r.final.loc parentId).pc = .exited := by
  have announces := r.announces ends.leaves
  have code {a : Action Nat (Process μ) Message}
      (entry : parentEntry cfg parentId (r.final.loc parentId) = a) :
      spawnChildren cfg M true parentId (r.final.loc parentId) = a := by
    rw [spawnChildren, if_pos rfl, entry]
  have no_act {next : Next Nat (Process μ) Message}
      (entry : parentEntry cfg parentId (r.final.loc parentId) = .act next) : False := by
    refine still ⟨_, _, .act (flushed parentId) (code entry), ?_⟩
    rintro ⟨⟨_, eq⟩, -⟩
    cases eq
  have no_receive {q : Nat} {onMessage : Message → Next Nat (Process μ) Message}
      {onEmpty : Next Nat (Process μ) Message} (child : IsChild cfg.numChildren q)
      (entry : parentEntry cfg parentId (r.final.loc parentId) = .receive q onMessage onEmpty)
      (unheard : (r.final.loc parentId).pc.heard q ≠ [.started, .done]) : False := by
    have chan := announces.chan r.sent_eq child
    simp only [State.view_loc, State.view_chan, exited q child,
      State.transit_of_idle (flushed q)] at chan
    cases head : r.final.chan q parentId with
    | nil =>
      rw [head, List.map_nil, List.append_nil] at chan
      exact unheard chan.symm
    | cons m rest =>
      refine still ⟨_, _, .receive (flushed parentId) (code entry) head, ?_⟩
      rintro ⟨⟨_, eq⟩, -⟩
      cases eq
  have waited {q : Nat} {types : List MessageType} (fr : Nat) (lt : fr < q)
      (ne : types ≠ [.started, .done]) : (if q ≤ fr then [.started, .done] else types) ≠
        [.started, .done] := by
    rw [if_neg (Nat.not_le.mpr lt)]
    exact ne
  rcases announces.oversees with ⟨fr, pc⟩ | ⟨fr, pc⟩ | pc
  · rw [State.view_loc] at pc
    cases found : ipcReceiveAllNext cfg.numChildren parentId fr with
    | none => exact (no_act (by simp only [parentEntry, pc, found]; rfl)).elim
    | some q =>
      obtain ⟨lt, le, -⟩ := ipcReceiveAllNext_eq_some found
      refine (no_receive ⟨Nat.zero_lt_of_lt lt, le⟩
        (by simp only [parentEntry, pc, found]; rfl) ?_).elim
      rw [pc, Pc.heard]
      split <;> simp
  · rw [State.view_loc] at pc
    cases found : ipcReceiveAllNext cfg.numChildren parentId fr with
    | none => exact (no_act (by simp only [parentEntry, pc, found]; rfl)).elim
    | some q =>
      obtain ⟨lt, le, -⟩ := ipcReceiveAllNext_eq_some found
      refine (no_receive ⟨Nat.zero_lt_of_lt lt, le⟩
        (by simp only [parentEntry, pc, found]; rfl) ?_).elim
      rw [pc]
      exact waited fr lt (by simp)
  · exact pc

theorem ended_of_still (still : ¬r.final.CanStep (spawnChildren cfg M true)) : r.Ended stamp := by
  have flushed (p : Nat) : r.final.outbox p = [] := by
    cases pending : r.final.outbox p with
    | nil => rfl
    | cons x rest =>
      refine absurd ⟨.send p x.1 x.2, _, .send pending, ?_⟩ still
      rintro ⟨⟨_, eq⟩, -⟩
      cases eq
  have completed : r.Completed stamp := (ends.goesOn r).resolve_right fun goesOn => by
    obtain ⟨e, s', -, step, busy⟩ := goesOn
    exact still ⟨e, s', step, busy⟩
  have exited (p : Nat) (le : p ≤ cfg.numChildren) : (r.final.loc p).pc = .exited := by
    by_cases parent : p = parentId
    · exact parent ▸ r.parent_ends ends still (fun q child => (completed q child).1) flushed
    · exact (completed p ⟨Nat.pos_of_ne_zero parent, le⟩).1
  refine ⟨exited, flushed, fun p q => ?_, fun p child => (completed p child).2⟩
  have transit : r.final.transit p q = [] := by
    by_cases le : q ≤ cfg.numChildren
    · exact r.transit_eq_nil ends.leaves le (exited q le) p
    · have fifo := r.sent_eq p q
      rw [(r.announces ends.leaves).announced.within p q (Nat.not_le.mp le)] at fifo
      exact (List.append_eq_nil_iff.mp fifo.symm).2
  exact (List.append_eq_nil_iff.mp transit).1

theorem terminates : r.Terminates stamp (stepLimit cfg.numChildren share) where
  bounded _ sub busy := ((climbs ends).length_le r.run sub busy).trans (measure_le ends r.run)
  ended := ⟨r.ended_of_still ends, fun ended => ended.not_canStep⟩
  continues := by
    obtain ⟨ts, s, run, still⟩ := (climbs ends).exists_settled
      (fun _ _ run => measure_le ends run) r.run
    exact ⟨⟨r.transitions ++ ts, s, r.run.trans run⟩, List.prefix_append _ _,
      ended_of_still ends _ still⟩

end MutexRun

/-! ## One child -/

/-- Up to the first poll of `request_cs`. -/
def Pc.Early (pc : Pc) : Prop :=
  pc = .childSyncStarted ∨ (∃ fr, pc = .awaitAllStarted fr) ∨ pc = .iteration 1 ∨
    pc = .requestCs 1

theorem LocalStep.early {p : Nat} {st : Process μ} {next : Next Nat (Process μ) Message}
    (step : LocalStep cfg M p st none next) (pos : 1 ≤ p) (early : st.pc.Early)
    (waits : ∀ l verdict l' out, M.requestCsEmpty cfg p l = some (verdict, l', out) →
      verdict = .waits) : next.1.pc.Early := by
  cases step with
  | syncStarted => exact .inr (.inl ⟨_, rfl⟩)
  | barrierWait => exact early
  | barrierEnd => exact .inr (.inr (.inl rfl))
  | request pc =>
    rw [pc] at early
    obtain rfl : _ = 1 := by simpa [Pc.Early] using early
    exact .inr (.inr (.inr rfl))
  | finish pc last =>
    rw [pc] at early
    obtain rfl : _ = 1 := by simpa [Pc.Early] using early
    omega
  | idle pc found =>
    rw [pc] at early
    obtain rfl : _ = 1 := by simpa [Pc.Early] using early
    cases waits _ _ _ _ found
    exact .inr (.inr (.inr rfl))
  | release pc | handleWait pc => simp [pc, Pc.Early] at early

end Distra
