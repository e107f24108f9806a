import Distra.Network.Termination
import Distra.Pa1.Barriers

/-!
# The end of `pa1`

A process goes through its code once, and a child writes two messages to each of the others. So all
but so many steps of a run are reads of empty channels, and wherever it stands, it can be continued
to the end of all processes.
-/

namespace Distra.Pa1

open Network

variable {cfg : Config}

/-- How far a process at this point has come. -/
def Pc.rank : Pc → Nat
  | .childBroadcastStarted => 0
  | .logStarted => 1
  | .awaitAllStarted _ => 2
  | .childBroadcastDone => 3
  | .logDone => 4
  | .awaitAllDone _ => 5
  | .exited | .panicked => 6

theorem Pc.rank_le (pc : Pc) : pc.rank ≤ 6 := by
  cases pc <;> simp [Pc.rank]

section Rank

variable {n p : Nat} {st : Process} {input : Option (Nat × MessageType)} {next : ProcessNext}

/-- A process does not go back. -/
theorem LocalStep.rank_le (step : LocalStep n p st input next) : st.pc.rank ≤ next.1.pc.rank := by
  cases step with
  | childBroadcastStarted _ pc | logStarted _ pc | childBroadcastDone _ pc | logDone _ pc
  | allDone pc =>
    simp [pc, Process.goTo, Process.logEvent, Pc.rank]
  | started pc | done pc | allStarted pc =>
    simp only [pc, Process.goTo, Process.logEvent]
    split <;> simp [Pc.rank]
  | blocked => exact le_rfl

theorem ipcExtReceiveAllType_act {type : MessageType} {fr : Nat} {pc : Nat → Pc}
    {next' : ProcessNext} (code : ipcExtReceiveAllType n p st type fr pc next' = .act next) :
    next' = next := by
  unfold ipcExtReceiveAllType at code
  split at code
  · cases code
  · exact Action.act.inj code

theorem onEmpty_of_receive {q : Nat} {onMessage : MessageType → ProcessNext} {onEmpty : ProcessNext}
    (code : spawnChildren cfg p st = .receive q onMessage onEmpty) : onEmpty = (st, []) := by
  have waits {type : MessageType} {fr self : Nat} {pc : Nat → Pc} {next' : ProcessNext}
      (code : ipcExtReceiveAllType cfg.numChildren self st type fr pc next' =
        .receive q onMessage onEmpty) : onEmpty = (st, []) := by
    unfold ipcExtReceiveAllType at code
    split at code
    · cases code
      rfl
    · cases code
  unfold spawnChildren parentEntry childEntry at code
  split at code
  · split at code
    · exact waits code
    · exact waits code
    · cases code
  · split at code
    · split at code
      all_goals
        first
          | exact waits code
          | cases code
    · cases code

/-- A step of its own takes a process on. -/
theorem rank_lt_of_act (code : spawnChildren cfg p st = .act next) :
    st.pc.rank < next.1.pc.rank := by
  unfold spawnChildren at code
  split at code
  · unfold parentEntry at code
    cases pc : st.pc with
    | awaitAllStarted | awaitAllDone =>
      rw [pc] at code
      rw [← ipcExtReceiveAllType_act code]
      simp [Process.logEvent, Pc.rank]
    | _ =>
      rw [pc] at code
      cases code
  · split at code
    · unfold childEntry at code
      cases pc : st.pc with
      | childBroadcastStarted | logStarted | childBroadcastDone | logDone =>
        rw [pc] at code
        cases code
        simp [Process.goTo, Process.logEvent, Pc.rank]
      | awaitAllStarted | awaitAllDone =>
        rw [pc] at code
        rw [← ipcExtReceiveAllType_act code]
        simp [Process.logEvent, Pc.rank]
      | _ =>
        rw [pc] at code
        cases code
    · cases code

end Rank

/-! ## Traffic -/

/-- The channels that are written to. -/
def linkedChannels (n : Nat) : Finset (Nat × Nat) :=
  (Finset.range (n + 1) ×ˢ Finset.range (n + 1)).filter fun c => c.1 ≠ parentId ∧ c.1 ≠ c.2

theorem mem_linkedChannels {n a b : Nat} : (a, b) ∈ linkedChannels n ↔ Linked n a b := by
  rw [linkedChannels, Finset.mem_filter, Finset.mem_product, Finset.mem_range, Finset.mem_range]
  dsimp only [Linked, IsChild, parentId]
  omega

theorem Barrier.linked {v : BarrierView} {took : Nat → Nat → List MessageType} {n a b : Nat}
    (inv : Barrier n v took) {m : MessageType} (mem : m ∈ v.chan a b) : Linked n a b := by
  by_contra stray
  rw [inv.quiet stray] at mem
  cases mem

section Runs

variable (r : BarrierRun cfg) {a b : Nat}

/-- The receiver has not taken more than it could. -/
theorem length_transit_le : (r.final.transit a b).length ≤ 2 := by
  have inv := barrier_of_run r
  by_cases link : Linked cfg.numChildren a b
  · have script := inv.script link
    rw [State.view_chan] at script
    rw [script.eq, List.length_drop, List.length_take]
    have := script.short
    have two : barrierScript.length = 2 := rfl
    omega
  · have quiet := inv.quiet link
    rw [State.view_chan] at quiet
    rw [quiet]
    exact Nat.zero_le _

theorem length_traffic_le (link : Linked cfg.numChildren a b) :
    (written r.transitions a b).length + (taken r.transitions b a).length ≤ 4 := by
  have inv := barrier_of_run r
  have script := inv.script link
  have took := congrArg List.length (inv.took link)
  have fifo := congrArg List.length (r.run.fifo (rfl : initialState.chan a b = []))
  have transit := congrArg List.length script.eq
  have two : barrierScript.length = 2 := rfl
  rw [State.view_chan, State.transit] at transit
  rw [List.length_append] at fifo transit
  rw [List.length_drop, List.length_take] at transit
  rw [List.length_take] at took
  have := script.short
  omega

end Runs

/-- The steps other than reads of empty channels, at most. -/
def stepLimit (n : Nat) : Nat := 6 * (n + 1) + 4 * (n + 1) ^ 2

def ranks (n : Nat) (s : State Nat Process MessageType) : Nat :=
  ∑ p ∈ Finset.range (n + 1), (s.loc p).pc.rank

theorem barrier_climbs : Climbs (spawnChildren cfg) initialState Transition.Idle fun ts s =>
    ranks cfg.numChildren s + volume (linkedChannels cfg.numChildren) ts := by
  refine @Climbs.of_ranked _ _ _ _ _ _ (linkedChannels cfg.numChildren) _
    (fun _ s => ranks cfg.numChildren s) fun {ts s e s'} run step => ?_
  have inv := barrier_of_run ⟨ts, s, run⟩
  have sends : ∀ p q m, e = .send p q m → (p, q) ∈ linkedChannels cfg.numChildren := by
    rintro p q m rfl
    exact mem_linkedChannels.mpr (inv.linked step.send_transit)
  have takes : ∀ p q m, e = .take p q m → (q, p) ∈ linkedChannels cfg.numChildren := by
    rintro p q m rfl
    have mem : m ∈ s.chan q p := (step.input_mem rfl).2
    exact mem_linkedChannels.mpr (inv.linked (List.mem_append_left _ mem))
  rcases step.view with ⟨same, p, q, m, rfl⟩ | move
  · have loc : s'.loc = s.loc := congrArg View.loc same
    refine ⟨sends, takes, ?_, fun nothing => absurd rfl (nothing p q m)⟩
    rw [ranks, ranks, loc]
  · obtain ⟨le, -, next, after, stepped⟩ := barrier_move move
    have sum : ranks cfg.numChildren s' + (s.loc e.actor).pc.rank =
        ranks cfg.numChildren s + next.1.pc.rank := by
      have become := sum_rank_become (Finset.range (cfg.numChildren + 1))
        (fun _ (st : Process) => st.pc.rank) s.view e.input next
        (Finset.mem_range.mpr (Nat.lt_succ_of_le le))
      rw [← after] at become
      exact become
    have keeps := stepped.rank_le
    rw [State.view_loc] at keeps
    refine ⟨sends, takes, by omega, fun _ silent busy => ?_⟩
    cases step with
    | send => cases move
    | @act p next' idle code =>
      have raises := rank_lt_of_act code
      have own : next'.1 = next.1 := by
        have := congrArg (fun v => v.loc p) after
        simpa [State.become, View.become, View.consume, Event.input, Event.actor] using this
      rw [own] at raises
      dsimp only [Event.actor] at sum
      omega
    | @receiveEmpty p q onMessage onEmpty idle code =>
      refine absurd ⟨⟨p, rfl⟩, ?_⟩ busy
      have still : onEmpty = (s.loc p, []) := onEmpty_of_receive code
      rw [still]
      exact State.become_self idle
    | pollEmpty _ code =>
      exact (code ▸ can_spawnChildren _ _ : Can _ _ _ (.poll _ _ _)).elim
    | poll | receive => cases silent

theorem barrier_measure_le {ts : List (Transition Nat Process MessageType)}
    {s : State Nat Process MessageType} (run : Run (spawnChildren cfg) initialState ts s) :
    ranks cfg.numChildren s + volume (linkedChannels cfg.numChildren) ts ≤
      stepLimit cfg.numChildren := by
  have ranked : ranks cfg.numChildren s ≤ (cfg.numChildren + 1) * 6 := by
    refine (Finset.sum_le_card_nsmul _ _ _ fun p _ => Pc.rank_le _).trans ?_
    rw [Finset.card_range]
    exact le_rfl
  have few : (linkedChannels cfg.numChildren).card ≤ (cfg.numChildren + 1) ^ 2 := by
    refine (Finset.card_filter_le _ _).trans ?_
    rw [Finset.card_product, Finset.card_range, pow_two]
  have traffic : volume (linkedChannels cfg.numChildren) ts ≤
      (linkedChannels cfg.numChildren).card * 4 := by
    refine Finset.sum_le_card_nsmul _ _ _ fun c mem => ?_
    exact length_traffic_le ⟨ts, s, run⟩ (mem_linkedChannels.mp mem)
  rw [stepLimit]
  omega

/-! ## The end -/

/-- All processes have come to their end, with nothing left in buffers and channels. -/
structure Ended (cfg : Config) (s : State Nat Process MessageType) : Prop where
  exited : ∀ p ≤ cfg.numChildren, (s.loc p).pc = .exited
  empty : ∀ p q, s.transit p q = []

/-- Nothing but reads of empty channels keeps a run from its end. -/
structure Terminates (r : BarrierRun cfg) : Prop where
  bounded : ∀ l : List (Transition Nat Process MessageType), l.Sublist r.transitions →
    (∀ t ∈ l, ¬t.Idle) → l.length ≤ stepLimit cfg.numChildren
  ended : ¬r.final.CanStep (spawnChildren cfg) ↔ Ended cfg r.final
  continues : ∃ r' : BarrierRun cfg, r.transitions <+: r'.transitions ∧ Ended cfg r'.final

section End

variable (r : BarrierRun cfg)

theorem ended_of_exited (exited : ∀ p ≤ cfg.numChildren, (r.final.loc p).pc = .exited) :
    Ended cfg r.final := by
  have inv := barrier_of_run r
  refine ⟨exited, fun a b => ?_⟩
  rw [← State.view_chan]
  by_cases link : Linked cfg.numChildren a b
  · refine (inv.script link).eq_nil ?_
    rw [State.view_loc, exited a link.1.2, exited b link.2.1]
    exact le_refl 2
  · exact inv.quiet link

theorem Ended.not_canStep {s : State Nat Process MessageType} (h : Ended cfg s) :
    ¬s.CanStep (spawnChildren cfg) := by
  have stopped (p : Nat) : spawnChildren cfg p (s.loc p) = .stop := by
    unfold spawnChildren
    split_ifs with parent le
    · rw [parentEntry, h.exited p (parent ▸ parent_le _)]
    · rw [childEntry, h.exited p le]
    · rfl
  rintro ⟨e, s', step, -⟩
  cases step with
  | @send p q m rest pending =>
    have transit := h.empty p q
    rw [State.transit, pending, outTo_cons, if_pos rfl] at transit
    simp at transit
  | act _ code | poll _ code | pollEmpty _ code | receive _ code | receiveEmpty _ code =>
    cases (stopped _).symm.trans code

theorem ended_of_still (still : ¬r.final.CanStep (spawnChildren cfg)) : Ended cfg r.final := by
  refine ended_of_exited r fun p le => ?_
  by_contra unfinished
  obtain ⟨e, s', step, busy⟩ := (barrier_of_run r).advances le unfinished
  refine still ⟨e, s', step, ?_⟩
  rintro ⟨⟨p, eq⟩, -⟩
  exact busy p eq

theorem continues :
    ∃ ts s, Run (spawnChildren cfg) r.final ts s ∧ Ended cfg s := by
  obtain ⟨ts, s, run, still⟩ := barrier_climbs.exists_settled
    (fun _ _ run => barrier_measure_le run) r.run
  exact ⟨ts, s, run, ended_of_still ⟨_, s, r.run.trans run⟩ still⟩

end End

/-- Every run of `pa1` has so many steps at most besides reads of empty channels, it is over where
nothing else is left, and it can be continued to that point. -/
theorem barriers_terminate (cfg : Config) (r : BarrierRun cfg) : Terminates r where
  bounded _ sub busy := (barrier_climbs.length_le r.run sub busy).trans (barrier_measure_le r.run)
  ended := ⟨ended_of_still r, fun ended => ended.not_canStep⟩
  continues := by
    obtain ⟨ts, s, run, ended⟩ := continues r
    exact ⟨⟨r.transitions ++ ts, s, r.run.trans run⟩, List.prefix_append _ _, ended⟩

end Distra.Pa1
