import Distra.Pa23.Robbery
import Distra.Pa23.Wires
import Distra.Pa3.ClockBound

/-!
# `pa2` and `pa3` over pipes

An entry of a history is always at its time, so a history fits into a `BalanceHistory` where no time
is beyond `MAX_T`. The physical time of `pa2` never is, and the Lamport time of `pa3` is not where
the transfers are few.
-/

namespace Distra.Pa23

open Network Ipc

/-! ## Histories -/

/-- A history of `c` with its entries at their times. -/
structure Tidy (c : Nat) (history : BalanceHistory) : Prop where
  id : history.id = c
  historyLen : history.historyLen ≤ maxT
  time : ∀ t, (history.history t).time ≤ t

section Tidy

variable {c : Nat} {history : BalanceHistory}

theorem tidy_initial (c : Nat) (balance : Balance) : Tidy c (initialHistory c balance) := by
  refine ⟨rfl, (by decide : 1 ≤ maxT), fun t => ?_⟩
  by_cases first : t = 0
  · subst first
    exact le_rfl
  · rw [Pa3.initialHistory_of_ne first]
    exact Nat.zero_le _

theorem Tidy.record (h : Tidy c history) (state : BalanceState) :
    Tidy c (recordHistory history state) := by
  refine ⟨h.id, Nat.le_of_lt_succ (Nat.mod_lt _ (by decide)), fun t => ?_⟩
  by_cases here : t = state.time
  · subst here
    exact (congrArg BalanceState.time (Function.update_self _ _ _)).le
  · rw [Pa3.recordHistory_of_ne here]
    exact h.time t

theorem Tidy.fill (h : Tidy c history) (balance : Balance) (recvT : Nat) :
    Tidy c (fillHistory history balance recvT) := by
  unfold fillHistory
  generalize List.range' history.historyLen (recvT - history.historyLen) = times
  induction times generalizing history with
  | nil => exact h
  | cons t times ih => exact ih (h.record ⟨balance, t, 0⟩)

/-- Children are few, and the entries before `MAX_T` have small times. -/
theorem Tidy.packs {n : Nat} (h : Tidy c history) (le : c ≤ n) (few : n ≤ maxChildren)
    (rest : ∀ t, maxT < t → history.history t = ⟨0, 0, 0⟩) : history.Packs := by
  refine ⟨?_, h.historyLen, fun t => ?_, rest⟩
  · have few : n ≤ 15 := few
    rw [h.id]
    omega
  · by_cases later : maxT < t
    · rw [rest t later]
      exact Nat.zero_le _
    · exact (h.time t).trans ((Nat.not_lt.mp later).trans (by decide))

end Tidy

/-! ## `pa3` -/

section Lamport

variable {cfg : BankConfig}

theorem tidy_lamport (r : BankRun cfg Pa3.bank) (c : Nat) :
    Tidy c (r.final.loc c).data.history := by
  refine r.local_invariant Pa3.bank_lawful Pa3.bank_drops
    (K := fun c st => Tidy c st.data.history) (fun c => tidy_initial c _) ?_ c
  have loop (c : Nat) (l : Pa3.Locals) (m : BankMessage) (h : Tidy c l.history) :
      Tidy c (Pa3.childLoop c l m).2.1.history := by
    have filled := h.fill l.balance (synchronizeTime m.localTime l.lamportTime)
    unfold Pa3.childLoop Pa3.childReacts
    dsimp only
    split
    · exact filled
    · split
      · exact (filled.record _).record _
      · split <;> exact filled
    · exact filled
  rintro c - st flight input next flight' before step
  rcases step with step | ⟨child, -, pc⟩
  · cases step with
    | forward | deliver => exact loop c st.data _ before
    | stop => exact loop c st.data ⟨.stop, _⟩ before
    | childDone => exact before.fill _ _
    | _ => exact before
  · exact loop c st.data ⟨.done, _⟩ before

/-- The largest clock is within the bounds of a history. -/
theorem fitsPipes_lamport (small : Pa3.clockLimit cfg ≤ maxT) : FitsPipes cfg Pa3.bank where
  lawful := Pa3.bank_lawful
  drops := Pa3.bank_drops
  fits r a b m mem := by
    have stamp := (Pa3.timed_le r).times a b m mem
    refine ⟨(stamp.trans small).trans_lt (by decide), ?_⟩
    refine BankRun.packs Pa3.bank_lawful Pa3.bank_drops Pa3.Locals.history (fun d => ⟨_, rfl⟩)
      (fun r c child => ?_) r a b m mem
    refine (tidy_lamport r c).packs child.2 cfg.le_max fun t later => ?_
    exact Pa3.entry_later r child (small.trans_lt later)

theorem robbery_clockLimit_le {n : Nat} {pos : 1 ≤ n} {le_max : n ≤ maxChildren}
    {startBalances : Nat → Balance} (few : n ≤ 11) :
    Pa3.clockLimit (robbery n pos le_max startBalances) ≤ maxT := by
  have transfers : (bankRobbery n).length ≤ n := by
    rw [length_bankRobbery]
    split
    · exact le_rfl
    · exact Nat.zero_le _
  have ticks : n * (n + 5) ≤ 11 * (11 + 5) := Nat.mul_le_mul few (Nat.add_le_add_right few 5)
  change n + 2 + 6 * (bankRobbery n).length + n * (n + 5) ≤ 255
  omega

/-- Over pipes with room for 4096 bytes `pa3` does what it does over FIFO channels, as long as no
clock can get beyond `MAX_T`: no write is refused, and while nobody has exited, the processes can
come to their end whenever no `DONE` has been lost, and none is about to be. -/
theorem lamport_bank_over_pipes {capacity : Nat} {W : PipedState (Process Pa3.Locals) BankMessage}
    (small : Pa3.clockLimit cfg ≤ maxT) (wide : 4096 ≤ capacity)
    (run : PipedBank cfg Pa3.bank capacity W) :
    BankOverPipes cfg Pa3.bank W ∧ (W.Living cfg.numChildren → ∀ r : BankRun cfg Pa3.bank,
      Simulates (start cfg Pa3.bank) bankCodec cfg.numChildren W r.final →
        (CompletableOverPipes cfg Pa3.bank capacity W ↔
          Awaits r.transitions ∧ ∀ p, IsChild cfg.numChildren p → ¬Doomed r.final p)) :=
  ⟨(fitsPipes_lamport small).safe wide run, (fitsPipes_lamport small).completable_iff wide⟩

theorem lamport_bank_over_pipes_two :
    ∃ W, PipedBank twoRobbers Pa3.bank 4096 W ∧ BankOverPipes twoRobbers Pa3.bank W ∧
      ∀ p ≤ 2, (W.loc p).pc = .exited := by
  have small : Pa3.clockLimit twoRobbers ≤ maxT := by decide
  obtain ⟨W, run, -, exited, -⟩ := (fitsPipes_lamport small).completable (le_refl 4096)
  exact ⟨W, run, (lamport_bank_over_pipes small le_rfl run).1, exited⟩

/-- With 11 children at most, what the parent of `pa3` prints of `bank_robbery` over pipes is what
it prints over FIFO channels. -/
theorem robbery_over_pipes (n : Nat) (pos : 1 ≤ n) (le_max : n ≤ maxChildren) (few : n ≤ 11)
    (startBalances : Nat → Balance) {capacity : Nat} (wide : 4096 ≤ capacity)
    {W : PipedState (Process Pa3.Locals) BankMessage}
    (run : PipedBank (robbery n pos le_max startBalances) Pa3.bank capacity W) :
    BankOverPipes (robbery n pos le_max startBalances) Pa3.bank W ∧
      ∀ allHistory, (W.loc parentId).printed = some allHistory →
        Robbed n startBalances allHistory := by
  have safe := (fitsPipes_lamport (robbery_clockLimit_le few)).safe wide run
  refine ⟨safe, fun allHistory printed => ?_⟩
  obtain ⟨r, simulates⟩ := safe.follows
  rw [simulates.loc] at printed
  obtain ⟨flight, banked⟩ := banked_of_printed r printed
  exact robbed_of_banked banked printed

theorem robbery_over_pipes_two :
    ∃ W allHistory, PipedBank twoRobbers Pa3.bank 4096 W ∧
      (W.loc parentId).printed = some allHistory ∧ Robbed 2 (fun _ => 100) allHistory := by
  have small : Pa3.clockLimit twoRobbers ≤ maxT := by decide
  obtain ⟨W, run, -, -, printed, -⟩ := (fitsPipes_lamport small).completable (le_refl 4096)
  obtain ⟨allHistory, printed⟩ := Option.ne_none_iff_exists'.mp printed
  have known := robbery_over_pipes 2 twoRobbers_pos twoRobbers_le_max (by decide) (fun _ => 100)
    le_rfl run
  exact ⟨W, allHistory, run, printed, known.2 allHistory printed⟩

end Lamport

/-! ## `pa2` -/

section Physical

variable {cfg : BankConfig} {physical : Pa2.Physical} {p : Nat} {st : Process Pa2.Locals}
  {flight flight' : Flight} {input : Option (Nat × BankMessage)} {next : ProcessNext Pa2.Locals}

/-- A tidy history with no entry beyond `MAX_T`. -/
structure Inside (c : Nat) (history : BalanceHistory) : Prop where
  tidy : Tidy c history
  rest : ∀ t, maxT < t → history.history t = ⟨0, 0, 0⟩

theorem Inside.fill {c : Nat} {history : BalanceHistory} (h : Inside c history) (balance : Balance)
    {recvT : Nat} (small : recvT ≤ maxT) : Inside c (fillHistory history balance recvT) :=
  ⟨h.tidy.fill balance recvT, fun t later =>
    (Pa3.fillHistory_of_le history balance (small.trans later.le)).trans (h.rest t later)⟩

theorem Inside.record {c : Nat} {history : BalanceHistory} (h : Inside c history)
    {state : BalanceState} (small : state.time ≤ maxT) : Inside c (recordHistory history state) :=
  ⟨h.tidy.record state, fun t later =>
    (Pa3.recordHistory_of_ne (small.trans_lt later).ne').trans (h.rest t later)⟩

section Bounded

variable (clock : ∀ p call, physical.getPhysicalTime p call ≤ maxT)
include clock

theorem inside_physical (r : BankRun cfg (Pa2.bank physical)) (c : Nat) :
    Inside c (r.final.loc c).data.history := by
  refine r.local_invariant (Pa2.bank_lawful physical) (Pa2.bank_drops physical)
    (K := fun c st => Inside c st.data.history) (fun c => ⟨tidy_initial c _, ?_⟩) ?_ c
  · exact fun t later => Pa3.initialHistory_of_ne (Nat.ne_zero_of_lt later)
  have loop (c : Nat) (l : Pa2.Locals) (m : BankMessage) (h : Inside c l.history) :
      Inside c (Pa2.childLoop physical c l m).2.1.history := by
    have recv := clock c l.calls
    have filled := h.fill l.balance recv
    unfold Pa2.childLoop
    dsimp only
    split
    · exact filled.record recv
    · split
      · exact filled
      · split <;> exact filled
    · exact filled
  rintro c - st flight input next flight' before step
  rcases step with step | ⟨child, -, pc⟩
  · cases step with
    | forward | deliver => exact loop c st.data _ before
    | stop => exact loop c st.data ⟨.stop, _⟩ before
    | _ => exact before
  · exact loop c st.data ⟨.done, _⟩ before

/-- What is sent has the time of the buffer, or that of `get_physical_time`. -/
theorem stamped_physical (own : st.data.bufTime ≤ 2 ^ 16 - 1)
    (taken : ∀ x ∈ input, x.2.localTime ≤ 2 ^ 16 - 1)
    (step : Followed cfg (Pa2.bank physical) p st flight input next flight') :
    next.1.data.bufTime ≤ 2 ^ 16 - 1 ∧ ∀ x ∈ next.2, x.2.localTime ≤ 2 ^ 16 - 1 := by
  have multicast {body : Body} :
      ∀ x ∈ sendMulticast cfg.numChildren p (⟨body, st.data.bufTime⟩ : BankMessage),
        x.2.localTime ≤ 2 ^ 16 - 1 := by
    intro x mem
    obtain ⟨_, _, rfl⟩ := List.mem_map.mp mem
    exact own
  have loop (m : BankMessage) (small : m.localTime ≤ 2 ^ 16 - 1) :
      (Pa2.childLoop physical p st.data m).2.1.bufTime ≤ 2 ^ 16 - 1 ∧
        ∀ x ∈ (Pa2.childLoop physical p st.data m).2.2, x.2.localTime ≤ 2 ^ 16 - 1 := by
    have single {q : Nat} {body : Body} :
        ∀ x ∈ [(q, (⟨body, m.localTime⟩ : BankMessage))], x.2.localTime ≤ 2 ^ 16 - 1 := by
      intro x mem
      rw [List.mem_singleton.mp mem]
      exact small
    unfold Pa2.childLoop
    dsimp only
    split
    · exact ⟨small, nofun⟩
    · split
      · exact ⟨small, single⟩
      · split
        · exact ⟨small, single⟩
        · exact ⟨small, nofun⟩
    · exact ⟨small, nofun⟩
  rcases step with step | ⟨child, -, pc⟩
  · cases step with
    | childSyncStarted | childSyncDone => exact ⟨own, multicast⟩
    | sendStop parent =>
      subst parent
      exact ⟨own, multicast⟩
    | started | done | history => exact ⟨taken _ rfl, nofun⟩
    | childStarted | parentStarted | looked | parentDone | printHistory | blocked | ack =>
      exact ⟨own, nofun⟩
    | depart =>
      refine ⟨own, fun x mem => ?_⟩
      rw [List.mem_singleton.mp mem]
      exact (clock _ _).trans (by decide)
    | childDone =>
      refine ⟨own, fun x mem => ?_⟩
      rw [List.mem_singleton.mp mem]
      exact own
    | forward | deliver | stop => exact loop _ (taken _ rfl)
  · exact loop _ (taken _ rfl)

/-- A time stamp has 16 bits. -/
theorem times_physical (unused : ∀ p, physical.unused p < 2 ^ 16)
    (r : BankRun cfg (Pa2.bank physical)) (a b : Nat) :
    ∀ m ∈ r.final.transit a b, m.localTime < 2 ^ 16 := by
  obtain ⟨-, -, -, -, timed⟩ :=
    BankRun.invariant (Pa2.bank_lawful physical) (Pa2.bank_drops physical)
      (J := fun v _ => Timed (·.data.bufTime) BankMessage.localTime v (2 ^ 16 - 1))
      ⟨fun p => Nat.le_pred_of_lt (unused p), fun _ _ _ mem => absurd mem List.not_mem_nil⟩
      (by
        intro v _ _ p input next _ timed _ _ _ ready step
        obtain ⟨own, sent⟩ :=
          stamped_physical clock (timed.clock p) (timed.taken ready.offers) step
        have after : Timed (·.data.bufTime) BankMessage.localTime
            ((v.consume p input).become p next) (2 ^ 16 - 1 + 0) :=
          timed.step_le ready.offers own sent
        exact after)
      r
  exact fun m mem => Nat.lt_of_le_pred (by decide) (timed.times a b m mem)

/-- No time is beyond the bounds of a history. -/
theorem fitsPipes_physical (unused : ∀ p, physical.unused p < 2 ^ 16) :
    FitsPipes cfg (Pa2.bank physical) where
  lawful := Pa2.bank_lawful physical
  drops := Pa2.bank_drops physical
  fits r a b m mem := by
    refine ⟨times_physical clock unused r a b m mem, ?_⟩
    refine BankRun.packs (Pa2.bank_lawful physical) (Pa2.bank_drops physical) Pa2.Locals.history
      (fun d => ⟨_, rfl⟩) (fun r c child => ?_) r a b m mem
    have inside := inside_physical clock r c
    exact inside.tidy.packs child.2 cfg.le_max inside.rest

/-- `pa2` over pipes, if `get_physical_time` keeps to `MAX_T`. -/
theorem physical_bank_over_pipes (unused : ∀ p, physical.unused p < 2 ^ 16) {capacity : Nat}
    {W : PipedState (Process Pa2.Locals) BankMessage} (wide : 4096 ≤ capacity)
    (run : PipedBank cfg (Pa2.bank physical) capacity W) :
    BankOverPipes cfg (Pa2.bank physical) W ∧
      (W.Living cfg.numChildren → ∀ r : BankRun cfg (Pa2.bank physical),
        Simulates (start cfg (Pa2.bank physical)) bankCodec cfg.numChildren W r.final →
          (CompletableOverPipes cfg (Pa2.bank physical) capacity W ↔
            Awaits r.transitions ∧ ∀ p, IsChild cfg.numChildren p → ¬Doomed r.final p)) :=
  ⟨(fitsPipes_physical clock unused).safe wide run,
    (fitsPipes_physical clock unused).completable_iff wide⟩

end Bounded

theorem physical_bank_over_pipes_two :
    ∃ W, PipedBank twoRobbers (Pa2.bank sameSecond) 4096 W ∧
      BankOverPipes twoRobbers (Pa2.bank sameSecond) W ∧ ∀ p ≤ 2, (W.loc p).pc = .exited := by
  have clock (p call : Nat) : sameSecond.getPhysicalTime p call ≤ maxT := Nat.zero_le _
  have unused (p : Nat) : sameSecond.unused p < 2 ^ 16 := Nat.two_pow_pos 16
  obtain ⟨W, run, -, exited, -⟩ := (fitsPipes_physical clock unused).completable (le_refl 4096)
  exact ⟨W, run, (physical_bank_over_pipes clock unused le_rfl run).1, exited⟩

end Physical

end Distra.Pa23
