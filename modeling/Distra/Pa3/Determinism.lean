import Distra.Pa23.Restored
import Distra.Pa3.Histories

/-!
# The schedule does not matter

The ledger fixes all entries that a child makes, and no process ever writes past the end of a
history. So what the parent prints is a function of the configuration.
-/

namespace Distra.Pa3

open Network Pa23

variable {cfg : BankConfig}

theorem bank_drops : bank.Drops := fun _ _ _ => ⟨_, rfl⟩

/-! ## Entries that are never written -/

/-- The first entry that a process cannot have written yet. -/
def unwritten (st : Process Locals) : Nat :=
  match st.pc with
  | .exited => st.data.lamportTime - 1
  | _ => st.data.lamportTime + 1

/-- What the process has not got to is as it was at the start. -/
structure Untouched (cfg : BankConfig) (p : Nat) (st : Process Locals) : Prop where
  entries : p ≠ parentId → ∀ t, unwritten st ≤ t → st.data.history.history t = ⟨0, 0, 0⟩
  slots : ∀ fr, st.pc = .receiveHistories fr → fr ≤ cfg.numChildren ∧
    ∀ i, fr ≤ i → st.allHistory.history i = ⟨0, 0, fun _ => ⟨0, 0, 0⟩⟩
  printed : ∀ allHistory, st.printed = some allHistory →
    ∀ i, cfg.numChildren ≤ i → allHistory.history i = ⟨0, 0, fun _ => ⟨0, 0, 0⟩⟩

theorem initialHistory_of_ne {c t : Nat} {balance : Balance} (ne : t ≠ 0) :
    (initialHistory c balance).history t = ⟨0, 0, 0⟩ := by
  simp only [initialHistory, Function.update_of_ne ne]

theorem recordHistory_of_ne {history : BalanceHistory} {state : BalanceState} {t : Nat}
    (ne : t ≠ state.time) : (recordHistory history state).history t = history.history t :=
  Function.update_of_ne ne _ _

theorem foldl_recordHistory_of_not_mem {times : List Nat} {t : Nat} (balance : Balance)
    (fresh : t ∉ times) (history : BalanceHistory) :
    (times.foldl (fun history t => recordHistory history ⟨balance, t, 0⟩) history).history t =
      history.history t := by
  induction times generalizing history with
  | nil => rfl
  | cons time times ih =>
    rw [List.mem_cons, not_or] at fresh
    rw [List.foldl_cons, ih fresh.2]
    exact recordHistory_of_ne fresh.1

theorem fillHistory_of_le {recvT t : Nat} (history : BalanceHistory) (balance : Balance)
    (le : recvT ≤ t) : (fillHistory history balance recvT).history t = history.history t := by
  apply foldl_recordHistory_of_not_mem
  intro mem
  obtain ⟨lower, upper⟩ := List.mem_range'_1.mp mem
  omega

/-- The loop of `child_entry` writes no entry past the clock. -/
theorem childLoop_untouched (c : Nat) (l : Locals) (m : BankMessage) {t : Nat}
    (lt : (childLoop c l m).2.1.lamportTime < t) :
    l.lamportTime < t ∧ (childLoop c l m).2.1.history.history t = l.history.history t := by
  obtain ⟨body, time⟩ := m
  have later := lt_synchronizeTime time l.lamportTime
  have filled (le : synchronizeTime time l.lamportTime ≤ t) :
      (fillHistory l.history l.balance (synchronizeTime time l.lamportTime)).history t =
        l.history.history t := fillHistory_of_le _ _ le
  cases body with
  | transfer order =>
    by_cases src : order.src = c
    · rw [childLoop_src rfl src] at lt ⊢
      dsimp only at lt ⊢
      refine ⟨by omega, ?_⟩
      rw [recordHistory_of_ne (by dsimp only; omega), recordHistory_of_ne (by dsimp only; omega)]
      exact filled (by omega)
    · by_cases dst : order.dst = c
      · rw [childLoop_dst rfl src dst] at lt ⊢
        dsimp only at lt ⊢
        exact ⟨by omega, filled (by omega)⟩
      · simp only [childLoop, childReacts, childReceived, if_neg src, if_neg dst,
          advanceLamportTime] at lt ⊢
        exact ⟨by omega, filled (by omega)⟩
  | _ => exact ⟨later.trans lt, filled (Nat.le_of_lt lt)⟩

section Steps

variable {p : Nat} {st : Process Locals} {pc : Pc} {run : Locals × BankSends}

/-- A child goes on, and its clock does not go back. -/
theorem Untouched.goTo (h : Untouched cfg p st) (before : st.pc ≠ .exited) (after : pc ≠ .exited)
    (child : p ≠ parentId) (other : ∀ fr, pc ≠ .receiveHistories fr)
    (history : ∀ t, run.1.lamportTime < t → st.data.lamportTime < t ∧
      run.1.history.history t = st.data.history.history t) :
    Untouched cfg p (st.goTo pc run).1 := by
  have written (st : Process Locals) (running : st.pc ≠ .exited) :
      unwritten st = st.data.lamportTime + 1 := by
    rw [unwritten]
    split
    next exited => exact absurd exited running
    next => rfl
  constructor
  · intro _ t le
    rw [written _ after] at le
    obtain ⟨later, eq⟩ := history t le
    refine eq.trans (h.entries child t ?_)
    rw [written _ before]
    exact later
  · exact fun fr eq => absurd eq (other fr)
  · exact h.printed

/-- The parent goes on, and collects nothing. -/
theorem Untouched.parent (h : Untouched cfg p st) (parent : p = parentId)
    (other : ∀ fr, pc ≠ .receiveHistories fr) : Untouched cfg p (st.goTo pc run).1 :=
  ⟨fun child => absurd parent child, fun fr eq => absurd eq (other fr), h.printed⟩

theorem untouched_initial (cfg : BankConfig) (p : Nat) :
    Untouched cfg p (initialProcess cfg bank p) := by
  constructor
  · intro child t le
    have pc : (initialProcess cfg bank p).pc = .childSyncStarted := if_neg child
    rw [unwritten, pc] at le
    exact initialHistory_of_ne (Nat.ne_of_gt le)
  · intro fr pc
    rw [initialProcess] at pc
    split at pc <;> cases pc
  · nofun

theorem Untouched.childDone (h : Untouched cfg p st) (child : p ≠ parentId)
    (running : st.pc ≠ .exited) :
    Untouched cfg p (st.goTo .exited (sendHistory st.data)).1 := by
  constructor
  · intro _ t le
    have later := lt_synchronizeTime st.data.bufTime st.data.lamportTime
    have le : synchronizeTime st.data.bufTime st.data.lamportTime ≤ t := le
    refine (fillHistory_of_le _ _ le).trans (h.entries child t ?_)
    rw [unwritten]
    split
    next exited => exact absurd exited running
    next => omega
  · nofun
  · exact h.printed

theorem Untouched.step {flight flight' : Flight} {input : Option (Nat × BankMessage)}
    {next : ProcessNext Locals} (le : p ≤ cfg.numChildren) (h : Untouched cfg p st)
    (step : Followed cfg bank p st flight input next flight') : Untouched cfg p next.1 := by
  have looped (m : BankMessage) (t : Nat)
      (lt : (childLoop p st.data m).2.1.lamportTime < t) := childLoop_untouched p st.data m lt
  rcases step with step | ⟨child, -, pc⟩
  · cases step with
    | childSyncStarted child pc =>
      exact h.goTo (by rw [pc]; nofun) nofun child nofun fun t lt => ⟨Nat.lt_of_succ_lt lt, rfl⟩
    | started pc =>
      by_cases parent : p = parentId
      · exact h.parent parent nofun
      · refine h.goTo (by rw [pc]; nofun) nofun parent nofun fun t lt => ⟨?_, rfl⟩
        exact (lt_synchronizeTime _ _).trans lt
    | childStarted child pc | looked child pc =>
      exact h.goTo (by rw [pc]; nofun) nofun child nofun fun t lt => ⟨lt, rfl⟩
    | parentStarted parent | depart parent | ack parent | sendStop parent =>
      exact h.parent parent nofun
    | forward src pc =>
      by_cases parent : p = parentId
      · exact h.parent parent nofun
      · exact h.goTo (by rw [pc]; nofun) nofun parent nofun (looped _)
    | deliver dst _ pc =>
      by_cases parent : p = parentId
      · exact h.parent parent nofun
      · exact h.goTo (by rw [pc]; nofun) nofun parent nofun (looped _)
    | stop child pc => exact h.goTo (by rw [pc]; nofun) nofun child nofun (looped _)
    | childSyncDone child pc =>
      exact h.goTo (by rw [pc]; nofun) nofun child nofun fun t lt => ⟨Nat.lt_of_succ_lt lt, rfl⟩
    | done pc =>
      by_cases parent : p = parentId
      · exact h.parent parent nofun
      · refine h.goTo (by rw [pc]; nofun) nofun parent nofun fun t lt => ⟨?_, rfl⟩
        exact (lt_synchronizeTime _ _).trans lt
    | childDone child pc => exact h.childDone child (by rw [pc]; nofun)
    | parentDone parent =>
      refine ⟨fun child => absurd parent child, fun fr pc => ?_, h.printed⟩
      obtain rfl := Pc.receiveHistories.inj pc
      exact ⟨parent_le _, fun _ _ => rfl⟩
    | @history fr q _ _ parent pc found =>
      subst parent
      obtain ⟨lt, le, -⟩ := ipcReceiveAllNext_eq_some found
      refine ⟨fun child => absurd rfl child, fun fr' pc' => ?_, h.printed⟩
      obtain rfl := Pc.receiveHistories.inj pc'
      refine ⟨le, fun i above => ?_⟩
      rw [← (h.slots fr pc).2 i (by omega)]
      exact Function.update_of_ne (by omega) _ _
    | @printHistory fr parent pc last =>
      subst parent
      refine ⟨fun child => absurd rfl child, nofun, fun allHistory eq => ?_⟩
      obtain rfl := Option.some.inj eq
      obtain ⟨le, blank⟩ := h.slots fr pc
      exact fun i above => blank i (le.trans above)
    | blocked => exact h
  · exact h.goTo (by rw [pc]; nofun) nofun child nofun (looped _)

end Steps

theorem untouched (r : BankRun cfg bank) (p : Nat) : Untouched cfg p (r.final.loc p) :=
  r.local_invariant bank_lawful bank_drops (untouched_initial cfg)
    (fun _ le _ _ _ _ _ h step => h.step le step) p

/-! ## What is printed -/

/-- The history of child `c`. -/
def closedHistory (cfg : BankConfig) (c : Nat) : BalanceHistory where
  id := c
  historyLen := lastTick cfg
  history := fun t => if t < lastTick cfg then ledger cfg c t else ⟨0, 0, 0⟩

/-- The histories of all children. -/
def closedHistories (cfg : BankConfig) : AllHistory where
  historyLen := cfg.numChildren
  history := fun i =>
    if i < cfg.numChildren then closedHistory cfg (i + 1) else ⟨0, 0, fun _ => ⟨0, 0, 0⟩⟩

theorem Closed.eq_closedHistory {c : Nat} {history : BalanceHistory} (h : Closed cfg c history)
    (rest : ∀ t, lastTick cfg ≤ t → history.history t = ⟨0, 0, 0⟩) :
    history = closedHistory cfg c := by
  obtain ⟨id, len, entries⟩ := history
  rw [closedHistory, BalanceHistory.mk.injEq]
  refine ⟨h.entered.id, h.len, ?_⟩
  funext t
  split
  next lt => exact h.entry lt
  next ge => exact rest t (not_lt.mp ge)

/-- If the parent prints and no clock has passed `MAX_T`, all that it prints is known. -/
theorem printed_eq (r : BankRun cfg bank) {allHistory : AllHistory}
    (printed : (r.final.loc parentId).printed = some allHistory)
    (clocks : ∀ p ≤ cfg.numChildren, (r.final.loc p).data.lamportTime ≤ maxT) :
    allHistory = closedHistories cfg := by
  obtain ⟨small, flight, banked⟩ := banked_of_printed r printed clocks
  obtain ⟨len, filed⟩ := banked.collected.printed allHistory printed
  have blank := (untouched r parentId).printed allHistory printed
  obtain ⟨historyLen, histories⟩ := allHistory
  rw [closedHistories, AllHistory.mk.injEq]
  refine ⟨len, ?_⟩
  funext i
  split
  next lt =>
    have child : IsChild cfg.numChildren (i + 1) := ⟨Nat.succ_pos i, lt⟩
    have closed := banked.closed small printed child
    apply Closed.eq_closedHistory closed
    intro t le
    have eq : histories i = (r.final.loc (i + 1)).data.history := (filed (i + 1) child).eq
    have exited : (r.final.loc (i + 1)).pc = .exited := (filed (i + 1) child).exited
    have clock := banked.timed.child (i + 1) child
    rw [(filed (i + 1) child).exited] at clock
    have clock : (r.final.loc (i + 1)).data.lamportTime = lastTick cfg + 1 := clock
    refine (congrArg (fun history => history.history t) eq).trans ?_
    apply (untouched r (i + 1)).entries child.ne_parent
    rw [unwritten, exited, clock]
    exact le
  next ge => exact blank i (not_lt.mp ge)

/-- Two runs that print, print the same. -/
theorem printed_deterministic (r r' : BankRun cfg bank) {allHistory allHistory' : AllHistory}
    (printed : (r.final.loc parentId).printed = some allHistory)
    (printed' : (r'.final.loc parentId).printed = some allHistory')
    (clocks : ∀ p ≤ cfg.numChildren, (r.final.loc p).data.lamportTime ≤ maxT)
    (clocks' : ∀ p ≤ cfg.numChildren, (r'.final.loc p).data.lamportTime ≤ maxT) :
    allHistory = allHistory' :=
  (printed_eq r printed clocks).trans (printed_eq r' printed' clocks').symm

/-- Child 2 is the first to start, and has passed the channel of the parent when the parent sends
its `TRANSFER`. -/
def secondFirst : List (Choice Nat) :=
  [.act 2, .send 2, .send 2, .act 1, .send 1, .send 1, .take 2 1, .act 2, .empty 2, .take 1 2,
    .act 1, .take 0 1, .take 0 2, .act 0, .act 0, .send 0, .take 1 0, .send 1, .take 2 1,
    .send 2, .take 0 2, .act 0, .send 0, .send 0, .take 1 0, .take 2 0, .act 1, .send 1, .send 1,
    .act 2, .send 2, .send 2, .take 1 2, .take 2 1, .act 1, .send 1, .act 2, .send 2, .take 0 1,
    .take 0 2, .act 0, .take 0 1, .take 0 2, .act 0]

/-- Two schedules of two children and one transfer. -/
theorem printed_deterministic_oneTransfer :
    ∃ (r r' : BankRun oneTransfer bank) (allHistory : AllHistory),
      (initialState oneTransfer bank).follow? (start oneTransfer bank) oneTransferSchedule =
        some r.final ∧
      (initialState oneTransfer bank).follow? (start oneTransfer bank) secondFirst =
        some r'.final ∧
      (r.final.loc parentId).printed = some allHistory ∧
      (r'.final.loc parentId).printed = some allHistory := by
  obtain ⟨r, allHistory, follow, printed, clocks⟩ :=
    prints_of_schedule oneTransferSchedule (by decide +kernel)
  obtain ⟨r', allHistory', follow', printed', clocks'⟩ :=
    prints_of_schedule secondFirst (by decide +kernel)
  obtain rfl := printed_deterministic r r' printed printed' clocks clocks'
  exact ⟨r, r', allHistory, follow, follow', printed, printed'⟩

end Distra.Pa3
