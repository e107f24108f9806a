import Distra.Network.Potential
import Distra.Pa23.Doomed
import Distra.Pa3.Determinism

/-!
# The clocks in all runs

A main loop that takes a `DONE` gets ahead of the ledger, and its child passes that on. But after
the `STOP`s only a multicast and a history are left for every child. So no clock passes a limit,
whatever gets lost, and no entry is ever written beyond it.
-/

namespace Distra.Pa3

open Network Pa23

variable {cfg : BankConfig} {v : BankView Locals} {flight : Flight} {p : Nat} {K : Nat}
  {input : Option (Nat × BankMessage)} {next : ProcessNext Locals}

/-- The ticks that a child is left with once the parent has sent its `STOP`s. -/
def lateWork (n : Nat) : Pc → Nat
  | .childSyncStarted | .awaitAllStarted _ | .receiveAny _ | .childSyncDone => n + 4
  | .awaitAllDone _ => 3
  | _ => 0

/-- `STARTED` is too old to raise the largest clock. -/
def lateBudget (n : Nat) : Budget Nat (Process Locals) BankMessage where
  procs := Finset.range (n + 1)
  clock st := st.data.lamportTime
  time := BankMessage.localTime
  work p st := if p = parentId then 0 else lateWork n st.pc
  cost m := if m.body.type = .started then 0 else 1

/-- The `STOP`s leave at `departure cfg []`. -/
def clockLimit (cfg : BankConfig) : Nat :=
  departure cfg [] + cfg.numChildren * (cfg.numChildren + 5)

/-- The clock of a child that has not passed its first barrier. -/
def Fresh (n : Nat) (st : Process Locals) : Prop :=
  match st.pc with
  | .childSyncStarted => st.data.lamportTime = 0
  | .awaitAllStarted fr => fr ≤ n ∧ st.data.lamportTime ≤ fr + 1
  | _ => True

/-- After the `STOP`s, with no clock beyond `K`. -/
structure Late (cfg : BankConfig) (v : BankView Locals) (K : Nat) : Prop where
  stopped : 1 ≤ (v.loc parentId).pc.sent parentId
  base : departure cfg [] ≤ K
  within : (lateBudget cfg.numChildren).Within (clockLimit cfg) v K
  fresh : ∀ c, IsChild cfg.numChildren c → Fresh cfg.numChildren (v.loc c)
  started : ∀ a b, ∀ m ∈ v.chan a b, m.body.type = .started → m.localTime = 1

section Cost

variable {n : Nat} {m : BankMessage}

theorem late_procs {n p : Nat} (le : p ≤ n) : p ∈ (lateBudget n).procs :=
  Finset.mem_range.mpr (Nat.lt_succ_of_le le)

theorem late_work (child : p ≠ parentId) (st : Process Locals) :
    (lateBudget n).work p st = lateWork n st.pc := if_neg child

theorem lateWork_le (n : Nat) (pc : Pc) : lateWork n pc ≤ n + 4 := by
  cases pc <;> simp only [lateWork] <;> omega

theorem cost_started (type : m.body.type = .started) : (lateBudget n).cost m = 0 := if_pos type

theorem cost_other (type : m.body.type ≠ .started) : (lateBudget n).cost m = 1 := if_neg type

theorem outCost_multicast (le : p ≤ n) (m : BankMessage) :
    (lateBudget n).outCost (sendMulticast n p m) = n * (lateBudget n).cost m := by
  rw [Budget.outCost, sendMulticast, List.map_map]
  change ((otherProcesses n p).map fun _ => (lateBudget n).cost m).sum = _
  rw [List.map_const', List.sum_replicate_nat, length_otherProcesses le]

end Cost

/-! ## After the `STOP`s -/

section Late

theorem Late.after (h : Late cfg v K) (ready : Ready v p input) (le : p ≤ cfg.numChildren)
    (sources : ∀ x ∈ input, x.1 ≤ cfg.numChildren) (ticks : Nat)
    (clock : next.1.data.lamportTime ≤ K + ticks)
    (times : ∀ x ∈ next.2, x.2.localTime ≤ next.1.data.lamportTime)
    (paid : ticks + (lateBudget cfg.numChildren).work p next.1 +
        (lateBudget cfg.numChildren).outCost next.2 ≤
      (lateBudget cfg.numChildren).work p (v.loc p) +
        (lateBudget cfg.numChildren).outCost input.toList)
    (parent : p = parentId → 1 ≤ next.1.pc.sent parentId)
    (fresh : p ≠ parentId → Fresh cfg.numChildren next.1)
    (started : ∀ x ∈ next.2, x.2.body.type = .started → x.2.localTime = 1) :
    Late cfg ((v.consume p input).become p next) (K + ticks) := by
  refine ⟨?_, h.base.trans (Nat.le_add_right _ _),
    h.within.step_le _ (late_procs le) ready.offers (fun x mem => late_procs (sources x mem))
      clock times paid, fun c child => ?_, fun a b m mem type => ?_⟩
  · rw [View.consume_become_loc]
    split
    next actor => exact parent actor.symm
    next => exact h.stopped
  · rw [View.consume_become_loc]
    split
    next actor => exact fresh (actor ▸ child.ne_parent)
    next => exact h.fresh c child
  · rw [View.consume_become_chan] at mem
    rcases List.mem_append.mp mem with mem | mem
    · exact h.started a b m (mem_consume mem) type
    · split at mem
      · exact started (b, m) (mem_outTo.mp mem) type
      · cases mem

/-- A step without a message that leaves the clock alone. -/
theorem Late.still (h : Late cfg v K) (le : p ≤ cfg.numChildren)
    (clock : next.1.data.lamportTime = (v.loc p).data.lamportTime) (silent : next.2 = [])
    (work : p ≠ parentId →
      lateWork cfg.numChildren next.1.pc ≤ lateWork cfg.numChildren (v.loc p).pc)
    (parent : p = parentId → 1 ≤ next.1.pc.sent parentId)
    (fresh : p ≠ parentId → Fresh cfg.numChildren next.1) :
    Late cfg ((v.consume p none).become p next) K := by
  have ready : Ready v p none := trivial
  refine h.after ready le (by simp) 0 (clock ▸ h.within.clock p) ?_ ?_ parent fresh ?_
  · rw [silent]
    exact fun _ mem => absurd mem List.not_mem_nil
  · rw [silent]
    by_cases isParent : p = parentId
    · subst isParent
      exact le_rfl
    · rw [late_work isParent, late_work isParent]
      have := work isParent
      simp only [Option.toList, Budget.outCost, List.map_nil, List.sum_nil]
      omega
  · rw [silent]
    exact fun _ mem => absurd mem List.not_mem_nil

/-- A step that takes a message and sends none. -/
theorem Late.taken (h : Late cfg v K) (le : p ≤ cfg.numChildren) {q : Nat} {m : BankMessage}
    (ready : Ready v p (some (q, m))) (source : q ≤ cfg.numChildren)
    (type : m.body.type ≠ .started)
    (clock : next.1.data.lamportTime = synchronizeTime m.localTime (v.loc p).data.lamportTime)
    (silent : next.2 = [])
    (work : p ≠ parentId →
      lateWork cfg.numChildren next.1.pc ≤ lateWork cfg.numChildren (v.loc p).pc)
    (parent : p = parentId → 1 ≤ next.1.pc.sent parentId)
    (fresh : p ≠ parentId → Fresh cfg.numChildren next.1) :
    Late cfg ((v.consume p (some (q, m))).become p next) (K + 1) := by
  have stamp : m.localTime ≤ K := h.within.timed.taken ready.offers (q, m) rfl
  have own : (v.loc p).data.lamportTime ≤ K := h.within.clock p
  refine h.after ready le (by rintro x ⟨⟩; exact source) 1 ?_ ?_ ?_ parent fresh ?_
  · rw [clock, synchronizeTime_eq_max]
    omega
  · rw [silent]
    exact fun _ mem => absurd mem List.not_mem_nil
  · have cost := cost_other (n := cfg.numChildren) type
    have price : (lateBudget cfg.numChildren).outCost (some (q, m)).toList = 1 := by
      simp [Budget.outCost, cost]
    rw [silent, price]
    by_cases isParent : p = parentId
    · subst isParent
      exact le_rfl
    · rw [late_work isParent, late_work isParent]
      have := work isParent
      simp only [Budget.outCost, List.map_nil, List.sum_nil]
      omega
  · rw [silent]
    exact fun _ mem => absurd mem List.not_mem_nil

/-- `p` takes a message that no history depends on. -/
theorem Late.step (h : Late cfg v K) (le : p ≤ cfg.numChildren) (ready : Ready v p input)
    (sources : ∀ x ∈ input, x.1 ≤ cfg.numChildren)
    (buffered : ∀ p, (v.loc p).data.bufTime ≤ (v.loc p).data.lamportTime) {flight' : Flight}
    (step : Followed cfg bank p (v.loc p) .none input next flight') :
    ∃ K', Late cfg ((v.consume p input).become p next) K' := by
  have stopped := h.stopped
  have early {pc : Pc} (parent : p = parentId) (at_ : (v.loc p).pc = pc)
      (sent : pc.sent parentId = 0) : False := by
    rw [← parent, at_, parent, sent] at stopped
    cases stopped
  have own : (v.loc p).data.lamportTime ≤ K := h.within.clock p
  have base : cfg.numChildren + 2 ≤ K := (Nat.le_add_right _ _).trans h.base
  rcases step with step | ⟨child, -, pc⟩
  · cases step with
    | childSyncStarted child pc =>
      have fresh := h.fresh p ⟨Nat.pos_of_ne_zero child, le⟩
      rw [Fresh, pc] at fresh
      refine ⟨K, h.after ready le sources 0 ?_ ?_ ?_ (fun parent => absurd parent child)
        (fun _ => ⟨Nat.zero_le _, ?_⟩) ?_⟩
      · change advanceLamportTime (v.loc p).data.lamportTime ≤ K
        rw [fresh, advanceLamportTime]
        omega
      · intro x mem
        obtain ⟨_, _, rfl⟩ := List.mem_map.mp mem
        exact le_rfl
      · have sent : (lateBudget cfg.numChildren).outCost (sendMulticast cfg.numChildren p
            ⟨.started, advanceLamportTime (v.loc p).data.lamportTime⟩) = 0 := by
          rw [outCost_multicast le, cost_started rfl, Nat.mul_zero]
        rw [late_work child, late_work child, pc]
        exact (congrArg (0 + (cfg.numChildren + 4) + ·) sent).le.trans (by simp [lateWork])
      · exact (congrArg advanceLamportTime fresh).le
      · intro x mem _
        obtain ⟨_, _, rfl⟩ := List.mem_map.mp mem
        exact congrArg advanceLamportTime fresh
    | @started _ fr q t pc found =>
      have child : p ≠ parentId := fun parent => early parent pc rfl
      have fresh := h.fresh p ⟨Nat.pos_of_ne_zero child, le⟩
      rw [Fresh, pc] at fresh
      obtain ⟨ahead, within, -⟩ := ipcReceiveAllNext_eq_some found
      have taken := ready
      obtain ⟨rest, head⟩ := taken
      have one : t = 1 := h.started q p ⟨.started, t⟩ (head ▸ List.mem_cons_self) rfl
      have clock : synchronizeTime t (v.loc p).data.lamportTime ≤ q + 1 := by
        rw [one, synchronizeTime_eq_max]
        omega
      refine ⟨K, h.after ready le sources 0 ?_ (by simp) ?_ (fun parent => absurd parent child)
        (fun _ => ⟨within, clock⟩) (by simp)⟩
      · change synchronizeTime t (v.loc p).data.lamportTime ≤ K
        omega
      · rw [late_work child, late_work child, pc]
        simp [lateWork, Budget.outCost]
    | childStarted child pc =>
      refine ⟨K, h.still le rfl rfl (fun _ => ?_) (fun parent => absurd parent child)
        fun _ => trivial⟩
      rw [pc]
      exact le_rfl
    | parentStarted parent pc => exact (early parent pc rfl).elim
    | depart parent pc => exact (early parent pc rfl).elim
    | sendStop parent pc => exact (early parent pc rfl).elim
    | looked child pc =>
      refine ⟨K, h.still le rfl rfl (fun _ => ?_) (fun parent => absurd parent child)
        fun _ => trivial⟩
      rw [pc]
      exact le_rfl
    | stop child pc =>
      refine ⟨K + 1, h.taken le ready (parent_le _) (by simp [Body.type]) rfl rfl (fun _ => ?_)
        (fun parent => absurd parent child) fun _ => trivial⟩
      rw [pc]
      exact le_rfl
    | childSyncDone child pc =>
      refine ⟨K + 1, h.after ready le sources 1 (Nat.succ_le_succ own) ?_ ?_
        (fun parent => absurd parent child) (fun _ => trivial) ?_⟩
      · intro x mem
        obtain ⟨_, _, rfl⟩ := List.mem_map.mp mem
        exact le_rfl
      · have sent : (lateBudget cfg.numChildren).outCost (sendMulticast cfg.numChildren p
            ⟨.done, advanceLamportTime (v.loc p).data.lamportTime⟩) = cfg.numChildren := by
          rw [outCost_multicast le, cost_other (by simp [Body.type]), Nat.mul_one]
        rw [late_work child, late_work child, pc]
        exact (congrArg (1 + 3 + ·) sent).le.trans (by simp only [lateWork]; omega)
      · intro x mem type
        obtain ⟨_, _, rfl⟩ := List.mem_map.mp mem
        cases type
    | @done _ fr q t pc found =>
      refine ⟨K + 1, h.taken le ready (ipcReceiveAllNext_eq_some found).2.1 (by simp [Body.type])
        rfl rfl (fun _ => ?_) (fun _ => rfl.ge) fun _ => trivial⟩
      rw [pc]
      exact le_rfl
    | childDone child pc =>
      have clock : synchronizeTime (v.loc p).data.bufTime (v.loc p).data.lamportTime =
          (v.loc p).data.lamportTime + 1 := synchronizeTime_of_ge (buffered p)
      refine ⟨K + 2, h.after ready le sources 2 ?_ ?_ ?_ (fun parent => absurd parent child)
        (fun _ => trivial) ?_⟩
      · change advanceLamportTime (synchronizeTime _ _) ≤ K + 2
        rw [clock]
        exact Nat.add_le_add_right own 2
      · intro x mem
        rw [List.mem_singleton.mp mem]
        exact le_rfl
      · rw [late_work child, late_work child, pc]
        exact le_rfl
      · intro x mem type
        rw [List.mem_singleton.mp mem] at type
        cases type
    | parentDone parent pc =>
      exact ⟨K, h.still le rfl rfl (fun child => absurd parent child) (fun _ => rfl.ge)
        fun child => absurd parent child⟩
    | history parent pc found =>
      exact ⟨K + 1, h.taken le ready (ipcReceiveAllNext_eq_some found).2.1 (by simp [Body.type])
        rfl rfl (fun child => absurd parent child) (fun _ => rfl.ge)
        fun child => absurd parent child⟩
    | printHistory parent pc =>
      exact ⟨K, h.still le rfl rfl (fun child => absurd parent child) (fun _ => rfl.ge)
        fun child => absurd parent child⟩
    | blocked =>
      exact ⟨K, h.still le rfl rfl (fun _ => le_rfl) (fun parent => parent ▸ stopped)
        fun child => h.fresh p ⟨Nat.pos_of_ne_zero child, le⟩⟩
  · refine ⟨K + 1, h.taken le ready (sources _ rfl) (by simp [Body.type]) rfl rfl (fun _ => ?_)
      (fun parent => absurd parent child) fun _ => trivial⟩
    rw [pc]
    exact le_rfl

end Late

/-! ## Every run -/

/-- The buffer never holds a time beyond the clock. -/
theorem bufTime_le (r : BankRun cfg bank) (p : Nat) :
    (r.final.loc p).data.bufTime ≤ (r.final.loc p).data.lamportTime := by
  refine r.local_invariant bank_lawful bank_drops
    (K := fun _ st => st.data.bufTime ≤ st.data.lamportTime) (fun _ => le_rfl) ?_ p
  have loop (p : Nat) (l : Locals) (m : BankMessage) :
      (childLoop p l m).2.1.bufTime ≤ (childLoop p l m).2.1.lamportTime := by
    have later := (received_lt_synchronizeTime m.localTime l.lamportTime).le
    unfold childLoop childReacts
    dsimp only
    split
    · exact later
    · split
      · exact le_rfl
      · split <;> exact le_rfl
    · exact later
  rintro p - st flight input next flight' before step
  have clock (t : Nat) : t ≤ synchronizeTime t st.data.lamportTime :=
    (received_lt_synchronizeTime _ _).le
  rcases step with step | ⟨child, -, pc⟩
  · cases step with
    | childSyncStarted | sendStop | childSyncDone | childDone => exact le_rfl
    | started | done | history => exact clock _
    | childStarted | parentStarted | looked | parentDone | printHistory | blocked => exact before
    | depart => exact before.trans (Nat.le_succ _)
    | ack => exact before.trans (lt_synchronizeTime _ _).le
    | forward | deliver => exact loop p st.data _
    | stop => exact loop p st.data ⟨.stop, _⟩
  · exact loop p st.data ⟨.done, _⟩

/-- What is not there never moves. -/
theorem outside (r : BankRun cfg bank) {p : Nat} (far : cfg.numChildren < p) :
    r.final.loc p = initialProcess cfg bank p :=
  r.local_invariant bank_lawful bank_drops
    (K := fun p st => cfg.numChildren < p → st = initialProcess cfg bank p) (fun _ _ => rfl)
    (fun _ le _ _ _ _ _ _ _ far => absurd le (Nat.not_le.mpr far)) p far

/-! ## Up to the `STOP`s -/

section Early

variable (shape : Shape cfg v flight) (timed : Timed cfg v flight)
  (early : (v.loc parentId).pc.sent parentId = 0)
include shape early

/-- Before the `STOP`s every child is in its main loop, or on the way to it. -/
theorem early_child {c : Nat} (child : IsChild cfg.numChildren c) :
    (v.loc c).pc.sent c ≤ 1 ∧ (v.loc c).pc.taken c parentId = 0 := by
  have taken := (shape.fits parentId (parent_le _) c child.2 child.ne_parent.symm).le
  rw [early, Nat.le_zero] at taken
  refine ⟨?_, taken⟩
  by_contra more
  rw [Pc.taken_of_sent child.ne_parent (Nat.not_le.mp more)] at taken
  cases taken

/-- Nothing but `STARTED`s and the message of a transfer is in a channel. -/
theorem early_message {a b : Nat} (ha : a ≤ cfg.numChildren) (hb : b ≤ cfg.numChildren)
    (ne : a ≠ b) {m : BankMessage} (mem : m ∈ v.chan a b) :
    m.body.type = .started ∨ m.body.type ∈ flight.types a b := by
  have listed : m.body.type ∈ typesIn v a b := List.mem_map_of_mem mem
  rw [(shape.fits a ha b hb ne).eq] at listed
  refine (List.mem_append.mp listed).imp_left fun scripted => ?_
  have scripted := List.mem_of_mem_drop scripted
  by_cases parent : a = parentId
  · rw [parent, early] at scripted
    cases scripted
  · have few := (early_child shape early ⟨Nat.pos_of_ne_zero parent, ha⟩).1
    have first : m.body.type ∈ (script a b).take 1 :=
      (List.take_sublist_take_left few).subset scripted
    rw [script, if_neg parent] at first
    split at first <;> exact List.mem_singleton.mp first

include timed

theorem early_clock {c : Nat} (child : IsChild cfg.numChildren c) :
    (v.loc c).data.lamportTime ≤ departure cfg [] ∧ Fresh cfg.numChildren (v.loc c) ∧
      lateWork cfg.numChildren (v.loc c).pc = cfg.numChildren + 4 := by
  obtain ⟨few, taken⟩ := early_child shape early child
  have clock := timed.child c child
  have role := shape.role c child.2
  have last := departure_nil cfg
  unfold Fresh
  cases pc : (v.loc c).pc with
  | childSyncStarted =>
    rw [pc] at clock
    have clock : (v.loc c).data.lamportTime = 0 := clock
    exact ⟨clock ▸ Nat.zero_le _, clock, rfl⟩
  | awaitAllStarted fr =>
    rw [pc] at clock
    obtain ⟨le, clock⟩ := clock
    exact ⟨by omega, ⟨le, clock⟩, rfl⟩
  | receiveAny =>
    rw [pc] at clock
    exact ⟨le_trans clock (departure_le cfg _), trivial, rfl⟩
  | childSyncDone | bankRobbery | awaitAck | exited | panicked | aborted =>
    rw [pc] at taken role
    first
      | exact role.elim
      | cases taken
  | awaitAllDone | receiveHistories =>
    rw [pc] at taken
    simp [Pc.taken, parentId] at taken

end Early

theorem banked_of_early (r : BankRun cfg bank)
    (early : (r.final.loc parentId).pc.sent parentId = 0) :
    ∃ flight, Banked cfg r.final.view flight := by
  refine (invariant_of_run r.run).resolve_right ?_
  rintro ⟨p, q, lost⟩
  obtain ⟨w, flight, restored, shape⟩ := r.restored bank_lawful bank_drops
  have stopped := shape.stopped_of_sentDone lost.sender (restored.loc ▸ lost.sent)
  rw [restored.loc, State.view_loc, early] at stopped
  cases stopped

theorem potential_started {n : Nat} (started : ∀ a b, ∀ m ∈ v.chan a b, m.body.type = .started) :
    (lateBudget n).potential v ≤ n * (n + 4) := by
  have traffic : ∑ b ∈ (lateBudget n).procs, ∑ a ∈ (lateBudget n).procs,
      (lateBudget n).total (v.chan a b) = 0 := by
    refine Finset.sum_eq_zero fun b _ => Finset.sum_eq_zero fun a _ => ?_
    refine List.sum_eq_zero fun cost mem => ?_
    obtain ⟨m, sent, rfl⟩ := List.mem_map.mp mem
    exact cost_started (started a b m sent)
  have work : ∑ a ∈ (lateBudget n).procs, (lateBudget n).work a (v.loc a) ≤ n * (n + 4) := by
    refine le_of_eq_of_le (Finset.sum_range_succ' _ n) ?_
    have children : ∑ a ∈ Finset.range n, (lateBudget n).work (a + 1) (v.loc (a + 1)) ≤
        ∑ _a ∈ Finset.range n, (n + 4) := by
      refine Finset.sum_le_sum fun a _ => ?_
      rw [late_work (Nat.succ_ne_zero a)]
      exact lateWork_le n _
    rw [Finset.sum_const, Finset.card_range] at children
    exact children
  rw [Budget.potential, traffic]
  exact work

/-- What the `STOP`s leave with. -/
theorem late_of_sendStop (r : BankRun cfg bank) (pc : (r.final.loc parentId).pc = .bankRobbery []) :
    Late cfg ((r.final.view.consume parentId none).become parentId
      ((r.final.loc parentId).goTo (.awaitAllDone parentId)
        (sendStop cfg.numChildren (r.final.loc parentId).data))) (departure cfg []) := by
  have early : (r.final.view.loc parentId).pc.sent parentId = 0 := congrArg (Pc.sent parentId) pc
  obtain ⟨flight, banked⟩ := banked_of_early r early
  have clock := banked.timed.parent
  rw [State.view_loc, pc] at clock
  have clock : (r.final.loc parentId).data.lamportTime + 1 = departure cfg [] := clock
  have nothing : flight = .none := by
    have under := banked.shape.under
    rwa [State.view_loc, pc] at under
  subst nothing
  have children {c : Nat} (child : IsChild cfg.numChildren c) :=
    early_clock banked.shape banked.timed early child
  have first {a b : Nat} {m : BankMessage} (mem : m ∈ r.final.transit a b) :
      m.body.type = .started ∧ m.localTime = 1 := by
    obtain ⟨⟨ha, hb⟩, ne⟩ :=
      BankRun.within bank_lawful bank_drops r (List.ne_nil_of_mem mem)
    have type := (early_message banked.shape early ha hb ne mem).resolve_right List.not_mem_nil
    refine ⟨type, ?_⟩
    have stamp := banked.timed.stamps a ha b hb ne m mem
    rw [Stamp, Body.eq_started type] at stamp
    exact stamp
  have timed : Network.Timed (lateBudget cfg.numChildren).clock (lateBudget cfg.numChildren).time
      r.final.view (departure cfg []) := by
    refine ⟨fun a => ?_, fun a b m mem => ?_⟩
    · by_cases far : cfg.numChildren < a
      · rw [State.view_loc, outside r far]
        exact Nat.zero_le _
      · by_cases parent : a = parentId
        · subst parent
          exact (Nat.le_succ _).trans clock.le
        · exact (children ⟨Nat.pos_of_ne_zero parent, Nat.not_lt.mp far⟩).1
    · exact (first mem).2.le.trans (by rw [departure_nil]; omega)
  obtain ⟨next, eq⟩ : ∃ next, next = (r.final.loc parentId).goTo (.awaitAllDone parentId)
      (sendStop cfg.numChildren (r.final.loc parentId).data) := ⟨_, rfl⟩
  rw [← eq]
  have ready : Ready r.final.view parentId none := trivial
  have ticked : next.1.data.lamportTime ≤ departure cfg [] + 0 := eq ▸ clock.le
  have stops : ∀ x ∈ next.2, x.2.body.type = .stop ∧ x.2.localTime = next.1.data.lamportTime := by
    rw [eq]
    intro x mem
    obtain ⟨_, _, rfl⟩ := List.mem_map.mp mem
    exact ⟨rfl, rfl⟩
  have price : (lateBudget cfg.numChildren).outCost next.2 = cfg.numChildren := by
    rw [eq]
    exact (outCost_multicast (parent_le _) _).trans (Nat.mul_one _)
  have after := timed.step_le ready.offers ticked fun x mem => (stops x mem).2.le.trans ticked
  refine ⟨?_, le_rfl, ⟨after.clock, after.times, ?_⟩, fun c child => ?_, fun a b m mem type => ?_⟩
  · rw [View.consume_become_loc, if_pos rfl, eq]
    exact le_rfl
  · have before := potential_started (v := r.final.view) (n := cfg.numChildren)
      fun a b m mem => (first mem).1
    have potential := (lateBudget cfg.numChildren).potential_step next (late_procs (parent_le _))
      ready.offers (by simp)
    have idle (st : Process Locals) : (lateBudget cfg.numChildren).work parentId st = 0 := rfl
    rw [idle, idle, price] at potential
    have limit : clockLimit cfg = departure cfg [] +
        (cfg.numChildren * (cfg.numChildren + 4) + cfg.numChildren) := rfl
    omega
  · rw [View.consume_become_loc, if_neg child.ne_parent]
    exact (children child).2.1
  · rw [View.consume_become_chan] at mem
    rcases List.mem_append.mp mem with mem | mem
    · exact (first mem).2
    · split at mem
      · cases (stops (b, m) (mem_outTo.mp mem)).1.symm.trans type
      · cases mem

/-- The step with which the parent sends its `STOP`s. -/
theorem sendStop_of_followed {st : Process Locals} {flight' : Flight}
    (step : Followed cfg bank parentId st flight input next flight')
    (early : st.pc.sent parentId = 0) (stopped : 1 ≤ next.1.pc.sent parentId) :
    st.pc = .bankRobbery [] ∧ input = none ∧
      next = st.goTo (.awaitAllDone parentId) (sendStop cfg.numChildren st.data) := by
  rcases step with step | ⟨child, -, pc⟩
  · cases step with
    | sendStop parent pc => exact ⟨pc, rfl, rfl⟩
    | childSyncStarted child | childStarted child | looked child | stop child | childSyncDone child
    | childDone child => exact absurd rfl child
    | started | parentStarted | depart | ack => cases stopped
    | done pc | parentDone _ pc | history _ pc | printHistory _ pc | forward _ pc
    | deliver _ _ pc =>
      rw [pc] at early
      cases early
    | blocked =>
      rw [early] at stopped
      cases stopped
  · exact absurd rfl child

theorem late (r : BankRun cfg bank) (stopped : 1 ≤ (r.final.loc parentId).pc.sent parentId) :
    ∃ K, Late cfg r.final.view K := by
  obtain ⟨ts, s, run⟩ := r
  induction run with
  | nil => cases stopped
  | @snoc ts s e s' run step ih =>
    let r : BankRun cfg bank := ⟨ts, s, run⟩
    change 1 ≤ (s'.view.loc parentId).pc.sent parentId at stopped
    change ∃ K, Late cfg s'.view K
    rcases step.view with ⟨same, -⟩ | move
    · rw [same] at stopped ⊢
      exact ih stopped
    · obtain ⟨w, flight, restored, shape⟩ := r.restored bank_lawful bank_drops
      obtain ⟨le, ready, next, after, stepped⟩ := bank_move move
      obtain ⟨-, flight', followed, -⟩ :=
        restored.step bank_lawful bank_drops shape le ready stepped
      rw [after] at stopped ⊢
      by_cases before : 1 ≤ (s.loc parentId).pc.sent parentId
      · obtain ⟨K, late⟩ := ih before
        obtain rfl : flight = .none := by
          apply shape.under.none
          rw [restored.loc]
          exact before
        refine late.step le ready ?_ (bufTime_le r) followed
        rintro ⟨q, m⟩ input
        rw [input] at ready
        obtain ⟨rest, head⟩ := ready
        have inTransit : m ∈ s.transit q e.actor := by
          rw [← State.view_chan, head]
          exact List.mem_cons_self
        exact (r.within bank_lawful bank_drops (List.ne_nil_of_mem inTransit)).1.1
      · have early : (s.loc parentId).pc.sent parentId = 0 := by omega
        rw [View.consume_become_loc] at stopped
        split at stopped
        next actor =>
          rw [← actor] at followed ⊢
          obtain ⟨pc, input, next⟩ := sendStop_of_followed followed early stopped
          rw [input, next]
          exact ⟨_, late_of_sendStop r pc⟩
        next => exact absurd stopped before

/-- The message of a transfer is a `TRANSFER` or an `ACK`. -/
theorem type_of_flight {a b : Nat} {type : MessageType} (mem : type ∈ flight.types a b) :
    (type = .transfer ∨ type = .ack) ∧ flight ≠ .none ∧ delay flight ≤ 4 := by
  cases flight with
  | none => cases mem
  | toSrc => exact ⟨.inl (Flight.mem_toSrc mem).1, nofun, Nat.zero_le _⟩
  | toDst => exact ⟨.inl (Flight.mem_toDst mem).1, nofun, (by decide : 2 ≤ 4)⟩
  | ack => exact ⟨.inr (Flight.mem_ack mem).1, nofun, le_rfl⟩

/-- Before the `STOP`s nothing is later than they will be. -/
theorem early_timed (r : BankRun cfg bank)
    (early : (r.final.loc parentId).pc.sent parentId = 0) :
    Network.Timed (·.data.lamportTime) BankMessage.localTime r.final.view (departure cfg []) := by
  obtain ⟨flight, banked⟩ := banked_of_early r early
  have last := departure_nil cfg
  have suffix := banked.timed.suffix
  have parentClock := banked.timed.parent
  have under := banked.shape.under
  have role := banked.shape.role parentId (parent_le _)
  rw [State.view_loc] at suffix parentClock under role
  refine ⟨fun a => ?_, fun a b m mem => ?_⟩
  · rw [State.view_loc]
    by_cases far : cfg.numChildren < a
    · rw [outside r far]
      exact Nat.zero_le _
    · by_cases parent : a = parentId
      · subst parent
        cases pc : (r.final.loc parentId).pc with
        | awaitAllStarted fr =>
          rw [pc] at parentClock
          obtain ⟨le, clock⟩ := parentClock
          split at clock <;> omega
        | bankRobbery orders =>
          rw [pc] at parentClock
          have clock : (r.final.loc parentId).data.lamportTime + 1 = departure cfg orders :=
            parentClock
          have := departure_le cfg orders
          omega
        | awaitAck order orders =>
          rw [pc] at parentClock
          exact le_of_eq_of_le parentClock (departure_le cfg _)
        | childSyncStarted | childSyncDone =>
          rw [pc] at role
          exact absurd rfl role
        | panicked | aborted =>
          rw [pc] at role
          exact role.elim
        | receiveAny | awaitAllDone | receiveHistories | exited =>
          rw [pc] at early
          cases early
      · exact (early_clock banked.shape banked.timed early
          ⟨Nat.pos_of_ne_zero parent, Nat.not_lt.mp far⟩).1
  · obtain ⟨⟨ha, hb⟩, ne⟩ := r.within bank_lawful bank_drops (List.ne_nil_of_mem mem)
    have stamp := banked.timed.stamps a ha b hb ne m mem
    rcases early_message banked.shape early ha hb ne mem with type | type
    · rw [Stamp, Body.eq_started type] at stamp
      exact le_of_eq_of_le stamp (by omega)
    · obtain ⟨transfer, busy, short⟩ := type_of_flight type
      have stamp : m.localTime =
          departure cfg (remaining cfg (r.final.loc parentId).pc) + delay flight := by
        obtain ⟨body, time⟩ := m
        cases body with
        | transfer | ack => exact stamp
        | _ => rcases transfer with transfer | transfer <;> cases transfer
      cases pc : (r.final.loc parentId).pc with
      | awaitAck order orders =>
        rw [pc] at stamp suffix
        have next : departure cfg orders = departure cfg (order :: orders) + 6 :=
          departure_cons suffix
        have := departure_le cfg orders
        have stamp : m.localTime = departure cfg (order :: orders) + delay flight := stamp
        omega
      | _ =>
        rw [pc] at under
        exact absurd under busy

theorem timed_le (r : BankRun cfg bank) : Network.Timed (·.data.lamportTime)
    BankMessage.localTime r.final.view (clockLimit cfg) := by
  obtain ⟨K, timed, le⟩ : ∃ K, Network.Timed (·.data.lamportTime) BankMessage.localTime
      r.final.view K ∧ K ≤ clockLimit cfg := by
    by_cases early : (r.final.loc parentId).pc.sent parentId = 0
    · exact ⟨_, early_timed r early, Nat.le_add_right _ _⟩
    · obtain ⟨K, late⟩ := late r (Nat.pos_of_ne_zero early)
      exact ⟨K, late.within.timed, (Nat.le_add_right _ _).trans late.within.covered⟩
  exact ⟨fun p => (timed.clock p).trans le, fun p q m mem => (timed.times p q m mem).trans le⟩

theorem entry_later (r : BankRun cfg bank) {c t : Nat} (child : IsChild cfg.numChildren c)
    (later : clockLimit cfg < t) : (r.final.loc c).data.history.history t = ⟨0, 0, 0⟩ := by
  refine (untouched r c).entries child.ne_parent t ?_
  have clock : (r.final.loc c).data.lamportTime ≤ clockLimit cfg := (timed_le r).clock c
  rw [unwritten]
  split <;> omega

/-- There is no transfer between one child and itself, so the clocks stay far from the end of the
array. -/
theorem clockLimit_of_alone (alone : cfg.numChildren = 1) : clockLimit cfg = 9 := by
  have no_orders : cfg.orders = [] := by
    refine List.eq_nil_iff_forall_not_mem.mpr fun order mem => ?_
    obtain ⟨⟨⟨src_pos, src_le⟩, dst_pos, dst_le⟩, ne⟩ := cfg.valid order mem
    omega
  rw [clockLimit, departure, alone, no_orders]
  rfl

/-- In every run, whatever gets lost, no clock and no time stamp goes beyond the limit, and no entry
of a history is written there. -/
theorem clocks_bounded (r : BankRun cfg bank) :
    (∀ p, (r.final.loc p).data.lamportTime ≤ clockLimit cfg) ∧
      (∀ p q, ∀ m ∈ r.final.transit p q, m.localTime ≤ clockLimit cfg) ∧
        ∀ c, IsChild cfg.numChildren c → ∀ t, clockLimit cfg < t →
          (r.final.loc c).data.history.history t = ⟨0, 0, 0⟩ :=
  ⟨(timed_le r).clock, (timed_le r).times, fun _ child _ => entry_later r child⟩

end Distra.Pa3
