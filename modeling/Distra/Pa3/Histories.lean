import Distra.Pa23.Lost
import Distra.Pa23.Shutdown
import Distra.Pa3.Clocks

/-!
# The histories that the parent prints

Every child books every transfer at its ticks, sends its history when it has booked all of them,
and the parent puts the histories together. As the ledger conserves the money at every tick, so do
they.
-/

namespace Distra.Pa3

open Network Pa23

variable {cfg : BankConfig} {v : BankView Locals} {flight flight' : Flight} {p c : Nat}
  {input : Option (Nat × BankMessage)} {next : ProcessNext Locals}

/-- A child that has exited has a whole history. -/
structure Kept (cfg : BankConfig) (c : Nat) (orders : List TransferOrder) (st : Process Locals) :
    Prop where
  booked : st.pc ≠ .exited → Booked cfg c orders st.data
  closed : st.pc = .exited → Closed cfg c st.data.history

def Kept.All (cfg : BankConfig) (v : BankView Locals) (flight : Flight) : Prop :=
  ∀ c, IsChild cfg.numChildren c → Kept cfg c (due cfg c flight (v.loc parentId).pc) (v.loc c)

section Books

variable {order : TransferOrder} {orders : List TransferOrder} {t : Nat}

theorem Booked.congr {l l' : Locals} (h : Booked cfg c orders l) (history : l'.history = l.history)
    (balance : l'.balance = l.balance) : Booked cfg c orders l' := by
  constructor
  · rw [history]
    exact h.entered
  · rw [history]
    exact h.len
  · rw [history, balance]
    exact h.rest

/-- A child that goes on without booking anything. -/
theorem Kept.congr {st st' : Process Locals} (h : Kept cfg c orders st) (before : st.pc ≠ .exited)
    (after : st'.pc ≠ .exited) (history : st'.data.history = st.data.history)
    (balance : st'.data.balance = st.data.balance) : Kept cfg c orders st' :=
  ⟨fun _ => (h.booked before).congr history balance, fun exited => absurd exited after⟩

/-- A transfer that the child has no part in. -/
theorem Kept.skip {st : Process Locals} (h : Kept cfg c (order :: orders) st)
    (suffix : order :: orders <:+ cfg.orders) (src : order.src ≠ c) (dst : order.dst ≠ c) :
    Kept cfg c orders st :=
  ⟨fun running => (h.booked running).skip suffix src dst, h.closed⟩

theorem remaining_of_stopped {pc : Pc} (stopped : 1 ≤ pc.sent parentId) :
    remaining cfg pc = [] := by
  cases pc <;> first | rfl | exact absurd stopped (by simp [Pc.sent])

/-- Nothing is due after the `STOP`. -/
theorem due_of_stopped {pc : Pc} (stopped : 1 ≤ pc.sent parentId) : due cfg c flight pc = [] := by
  rw [due, remaining_of_stopped stopped, List.tail_nil, ite_self]

/-- The books after a step of `p`. -/
theorem Kept.All.after (h : Kept.All cfg v flight) (pc : Pc)
    (pc_eq : (if parentId = p then next.1.pc else (v.loc parentId).pc) = pc)
    (own : IsChild cfg.numChildren p → Kept cfg p (due cfg p flight' pc) next.1)
    (others : ∀ c, IsChild cfg.numChildren c → c ≠ p →
      Kept cfg c (due cfg c flight (v.loc parentId).pc) (v.loc c) →
        Kept cfg c (due cfg c flight' pc) (v.loc c)) :
    Kept.All cfg ((v.consume p input).become p next) flight' := by
  intro c child
  have top : (((v.consume p input).become p next).loc parentId).pc = pc := by
    rw [View.consume_become_loc, ← pc_eq, apply_ite Process.pc]
  rw [top, View.consume_become_loc]
  split
  next eq =>
    subst eq
    exact own child
  next ne => exact others c child ne (h c child)

/-- A step that leaves the transfers alone. -/
theorem Kept.All.same (h : Kept.All cfg v flight)
    (same : parentId = p → remaining cfg next.1.pc = remaining cfg (v.loc parentId).pc)
    (own : IsChild cfg.numChildren p →
      Kept cfg p (due cfg p flight (v.loc parentId).pc) next.1) :
    Kept.All cfg ((v.consume p input).become p next) flight := by
  apply h.after _ rfl
  · rw [due_after same]
    exact own
  · intro c _ _ kept
    rw [due_after same]
    exact kept

/-- A step of a child that books nothing. -/
theorem Kept.All.idle (h : Kept.All cfg v flight) (ne : p ≠ parentId)
    (before : (v.loc p).pc ≠ .exited) (after : next.1.pc ≠ .exited)
    (history : next.1.data.history = (v.loc p).data.history)
    (balance : next.1.data.balance = (v.loc p).data.balance) :
    Kept.All cfg ((v.consume p input).become p next) flight :=
  h.same (fun parent => absurd parent.symm ne)
    (fun child => (h p child).congr before after history balance)

/-- A step of the parent that finishes no transfer. -/
theorem Kept.All.parent (h : Kept.All cfg v flight)
    (same : remaining cfg next.1.pc = remaining cfg (v.loc parentId).pc) :
    Kept.All cfg ((v.consume parentId input).become parentId next) flight :=
  h.same (fun _ => same) (fun child => absurd rfl child.ne_parent)

section Transfers

variable (small : lastTick cfg ≤ maxT)
include small

theorem Kept.All.forward (h : Kept.All cfg v (.toSrc order)) (timed : Timed cfg v (.toSrc order))
    (shape : Shape cfg v (.toSrc order)) (src : p = order.src)
    (pc : (v.loc p).pc = .receiveAny parentId)
    (head : ∃ rest, v.chan parentId p = ⟨.transfer order, t⟩ :: rest) :
    Kept.All cfg
      ((v.consume p (some (parentId, ⟨.transfer order, t⟩))).become p
        ((v.loc p).goTo (.receiveAny 0) (childLoop p (v.loc p).data ⟨.transfer order, t⟩).2))
      (.toDst order) := by
  subst src
  obtain ⟨⟨src, -⟩, -⟩ := shape.valid_flight (.inl rfl)
  obtain ⟨orders, left, suffix, rfl, clock⟩ := timed.forward_time shape pc head
  have before : due cfg order.src (.toSrc order) (v.loc parentId).pc = order :: orders :=
    (due_of_not_settled (not_settled_toSrc _ order)).trans left
  have after : due cfg order.src (.toDst order) (v.loc parentId).pc = orders :=
    due_of_settled rfl left
  apply h.after _ (if_neg src.ne_parent.symm)
  · intro child
    have booked := (h _ child).booked (by rw [pc]; nofun)
    rw [before] at booked
    rw [after]
    exact ⟨fun _ => booked.forward suffix small rfl clock, nofun⟩
  · intro c _ ne kept
    have unsettled : ¬Settled c (.toDst order) := fun eq => ne eq.symm
    rw [due_of_not_settled (not_settled_toSrc c order)] at kept
    rw [due_of_not_settled unsettled]
    exact kept

theorem Kept.All.deliver (h : Kept.All cfg v (.toDst order)) (timed : Timed cfg v (.toDst order))
    (shape : Shape cfg v (.toDst order)) (dst : p = order.dst)
    (pc : (v.loc p).pc = .receiveAny order.src)
    (head : ∃ rest, v.chan order.src p = ⟨.transfer order, t⟩ :: rest) :
    Kept.All cfg
      ((v.consume p (some (order.src, ⟨.transfer order, t⟩))).become p
        ((v.loc p).goTo (.receiveAny 0) (childLoop p (v.loc p).data ⟨.transfer order, t⟩).2))
      (.ack order) := by
  subst dst
  obtain ⟨⟨-, dst⟩, distinct⟩ := shape.valid_flight (.inr (.inl rfl))
  obtain ⟨orders, left, suffix, rfl, clock⟩ := timed.deliver_time shape pc head
  have unsettled : ¬Settled order.dst (.toDst order) := distinct
  have settled : Settled order.dst (.ack order) := .inr rfl
  apply h.after _ (if_neg dst.ne_parent.symm)
  · intro child
    have booked := (h _ child).booked (by rw [pc]; nofun)
    rw [due_of_not_settled unsettled, left] at booked
    rw [due_of_settled settled left]
    exact ⟨fun _ => booked.deliver suffix small distinct rfl clock, nofun⟩
  · intro c _ ne kept
    by_cases source : order.src = c
    · have before : Settled c (.toDst order) := source
      have after : Settled c (.ack order) := .inl source
      rw [due_of_settled before left] at kept
      rw [due_of_settled after left]
      exact kept
    · have before : ¬Settled c (.toDst order) := source
      have after : ¬Settled c (.ack order) := fun eq => eq.elim source (fun eq => ne eq.symm)
      rw [due_of_not_settled before] at kept
      rw [due_of_not_settled after]
      exact kept

omit small in
theorem Kept.All.ack (h : Kept.All cfg v (.ack order)) (timed : Timed cfg v (.ack order))
    (pc : (v.loc parentId).pc = .awaitAck order orders) (pc' : next.1.pc = .bankRobbery orders) :
    Kept.All cfg ((v.consume parentId input).become parentId next) .none := by
  have left := remaining_awaitAck cfg pc
  have suffix : order :: orders <:+ cfg.orders := left ▸ timed.suffix
  apply h.after (.bankRobbery orders) ((if_pos rfl).trans pc')
  · intro child
    exact absurd rfl child.ne_parent
  · intro c _ _ kept
    rw [due_of_not_settled (not_settled_none c)]
    by_cases settled : Settled c (.ack order)
    · rw [due_of_settled settled left] at kept
      exact kept
    · rw [due_of_not_settled settled, left] at kept
      exact kept.skip suffix (fun eq => settled (.inl eq)) (fun eq => settled (.inr eq))

theorem Kept.All.stop (h : Kept.All cfg v flight) (timed : Timed cfg v flight)
    (shape : Shape cfg v flight) (child : IsChild cfg.numChildren p)
    (pc : (v.loc p).pc = .receiveAny parentId)
    (head : ∃ rest, v.chan parentId p = ⟨.stop, t⟩ :: rest) :
    Kept.All cfg
      ((v.consume p (some (parentId, ⟨.stop, t⟩))).become p
        ((v.loc p).goTo .childSyncDone (childLoop p (v.loc p).data ⟨.stop, t⟩).2)) flight := by
  have stamp : t = departure cfg [] :=
    timed.stamp_of_head child.2 (parent_le _) child.ne_parent.symm head
  have clock := (timed.clock_of_receiveAny child pc).trans (departure_le cfg _)
  have stopped : 1 ≤ (v.loc parentId).pc.sent parentId :=
    Nat.zero_lt_of_lt ((shape.loop_head child.2 child.ne_parent pc head).waits_of_stop rfl)
  apply h.same (fun parent => absurd parent.symm child.ne_parent)
  intro _
  have booked := (h p child).booked (by rw [pc]; nofun)
  rw [due_of_stopped stopped] at booked ⊢
  rw [stamp]
  exact ⟨fun _ => booked.stop small clock, nofun⟩

theorem Kept.All.childDone (h : Kept.All cfg v flight) (timed : Timed cfg v flight)
    (shape : Shape cfg v flight) (child : IsChild cfg.numChildren p) {fr : Nat}
    (pc : (v.loc p).pc = .awaitAllDone fr)
    (last : ipcReceiveAllNext cfg.numChildren p fr = none) :
    Kept.All cfg
      ((v.consume p none).become p ((v.loc p).goTo .exited (sendHistory (v.loc p).data)))
      flight := by
  have stopped : 1 ≤ (v.loc parentId).pc.sent parentId := by
    have := (shape.fits parentId (parent_le _) p child.2 child.ne_parent.symm).le
    rw [pc] at this
    exact this
  apply h.same (fun parent => absurd parent.symm child.ne_parent)
  intro _
  have booked := (h p child).booked (by rw [pc]; nofun)
  rw [due_of_stopped stopped] at booked ⊢
  exact ⟨fun running => absurd rfl running,
    fun _ => booked.sendHistory small (timed.final_sync child pc last)⟩

theorem Kept.All.step (h : Kept.All cfg v flight) (timed : Timed cfg v flight)
    (shape : Shape cfg v flight) (le : p ≤ cfg.numChildren) (ready : Ready v p input)
    (step : Shaped cfg bank p (v.loc p) flight input next flight') :
    Kept.All cfg ((v.consume p input).become p next) flight' := by
  have child (ne : p ≠ parentId) : IsChild cfg.numChildren p := ⟨Nat.pos_of_ne_zero ne, le⟩
  cases step with
  | childSyncStarted ne pc => exact h.idle ne (by rw [pc]; nofun) nofun rfl rfl
  | started pc =>
    by_cases parent : p = parentId
    · subst parent
      exact h.parent (by rw [pc]; rfl)
    · exact h.idle parent (by rw [pc]; nofun) nofun rfl rfl
  | childStarted ne pc => exact h.idle ne (by rw [pc]; nofun) nofun rfl rfl
  | parentStarted parent pc =>
    subst parent
    exact h.parent (by rw [pc]; rfl)
  | @depart order orders parent pc =>
    subst parent
    apply h.after _ (if_pos rfl)
    · intro child
      exact absurd rfl child.ne_parent
    · intro c _ _ kept
      rw [due_of_not_settled (not_settled_none c), pc] at kept
      rw [due_of_not_settled (not_settled_toSrc c order)]
      exact kept
  | forward src pc => exact h.forward small timed shape src pc ready
  | deliver dst _ pc => exact h.deliver small timed shape dst pc ready
  | ack parent pc =>
    subst parent
    exact h.ack timed pc rfl
  | sendStop parent pc =>
    subst parent
    exact h.parent (by rw [pc]; rfl)
  | looked ne pc => exact h.idle ne (by rw [pc]; nofun) nofun rfl rfl
  | stop ne pc => exact h.stop small timed shape (child ne) pc ready
  | childSyncDone ne pc => exact h.idle ne (by rw [pc]; nofun) nofun rfl rfl
  | done pc =>
    by_cases parent : p = parentId
    · subst parent
      exact h.parent (by rw [pc]; rfl)
    · exact h.idle parent (by rw [pc]; nofun) nofun rfl rfl
  | childDone ne pc last => exact h.childDone small timed shape (child ne) pc last
  | parentDone parent pc =>
    subst parent
    exact h.parent (by rw [pc]; rfl)
  | history parent pc =>
    subst parent
    exact h.parent (by rw [pc]; rfl)
  | printHistory parent pc =>
    subst parent
    exact h.parent (by rw [pc]; rfl)
  | blocked =>
    apply h.same
    · intro parent
      rw [parent]
    · exact fun child => h p child

end Transfers

theorem kept_initial (cfg : BankConfig) : Kept.All cfg (initialState cfg bank).view .none := by
  intro c child
  have fresh : ((initialState cfg bank).view.loc c).pc = .childSyncStarted :=
    if_neg child.ne_parent
  rw [due_of_not_settled (not_settled_none c)]
  exact ⟨fun _ => booked_initial cfg c, fun exited => nomatch fresh.symm.trans exited⟩

end Books

/-! ## The parent's collection -/

/-- The entry of child `c` is what the child has in the end. -/
structure Filed (v : BankView Locals) (allHistory : AllHistory) (c : Nat) : Prop where
  eq : allHistory.history (c - 1) = (v.loc c).data.history
  exited : (v.loc c).pc = .exited

structure Collected (cfg : BankConfig) (v : BankView Locals) : Prop where
  sent : ∀ a, IsChild cfg.numChildren a → ∀ m ∈ v.chan a parentId, ∀ history,
    m.body = .balanceHistory history →
      history = (v.loc a).data.history ∧ (v.loc a).pc = .exited
  got : ∀ fr, (v.loc parentId).pc = .receiveHistories fr → fr ≤ cfg.numChildren ∧
    ∀ c, IsChild cfg.numChildren c → c ≤ fr → Filed v (v.loc parentId).allHistory c
  printed : ∀ allHistory, (v.loc parentId).printed = some allHistory →
    allHistory.historyLen = cfg.numChildren ∧
      ∀ c, IsChild cfg.numChildren c → Filed v allHistory c
  unprinted : (v.loc parentId).pc ≠ .exited → (v.loc parentId).printed = none

section Collected

theorem Shaped.next_of_exited {st : Process Locals}
    (step : Shaped cfg bank p st flight input next flight') (exited : st.pc = .exited) :
    next = (st, []) := by
  cases step with
  | blocked => rfl
  | _ => simp_all

/-- Only the history of a child that exits is sent. -/
theorem Shaped.sends_history {st : Process Locals}
    (step : Shaped cfg bank p st flight input next flight') {x : Nat × BankMessage}
    (mem : x ∈ next.2) {history : BalanceHistory} (body : x.2.body = .balanceHistory history) :
    history = next.1.data.history ∧ next.1.pc = .exited := by
  have silent (m : BankMessage) (mem : x ∈ (childLoop p st.data m).2.2) : False :=
    bank_lawful.childLoop p st.data m x mem (congrArg Body.type body)
  cases step with
  | childSyncStarted | childSyncDone | sendStop =>
    obtain ⟨_, _, rfl⟩ := List.mem_map.mp mem
    cases body
  | forward => exact (silent _ mem).elim
  | deliver => exact (silent _ mem).elim
  | @stop t => exact (silent ⟨.stop, t⟩ mem).elim
  | depart =>
    rw [List.mem_singleton.mp mem] at body
    cases body
  | childDone =>
    rw [List.mem_singleton.mp mem] at body
    exact ⟨(Body.balanceHistory.inj body).symm, rfl⟩
  | _ => cases mem

section Step

variable (step : Shaped cfg bank p (v.loc p) flight input next flight')
include step

theorem loc_of_exited (exited : (v.loc c).pc = .exited) :
    ((v.consume p input).become p next).loc c = v.loc c := by
  rw [View.consume_become_loc]
  split
  next eq =>
    subst eq
    rw [Shaped.next_of_exited step exited]
  next => rfl

theorem Filed.after {allHistory : AllHistory} (h : Filed v allHistory c) :
    Filed ((v.consume p input).become p next) allHistory c := by
  have loc := loc_of_exited step h.exited
  exact ⟨loc ▸ h.eq, loc ▸ h.exited⟩

theorem Collected.step_sent (h : Collected cfg v) {a : Nat} (child : IsChild cfg.numChildren a)
    {m : BankMessage} (mem : m ∈ ((v.consume p input).become p next).chan a parentId)
    {history : BalanceHistory} (body : m.body = .balanceHistory history) :
    history = (((v.consume p input).become p next).loc a).data.history ∧
      (((v.consume p input).become p next).loc a).pc = .exited := by
  rw [View.consume_become_chan] at mem
  rcases List.mem_append.mp mem with mem | mem
  · obtain ⟨eq, exited⟩ := h.sent a child m (mem_consume mem) history body
    rw [loc_of_exited step exited]
    exact ⟨eq, exited⟩
  · split at mem
    next own =>
      rw [View.consume_become_loc, if_pos own]
      exact Shaped.sends_history step (mem_outTo.mp mem) body
    next => cases mem

/-- A step that leaves the parent alone. -/
theorem Collected.frame (h : Collected cfg v)
    (top : ((v.consume p input).become p next).loc parentId = v.loc parentId) :
    Collected cfg ((v.consume p input).become p next) := by
  constructor
  · intro a child m mem history body
    exact h.step_sent step child mem body
  · rw [top]
    intro fr pc
    obtain ⟨le, filed⟩ := h.got fr pc
    exact ⟨le, fun c child le => (filed c child le).after step⟩
  · rw [top]
    intro allHistory printed
    obtain ⟨len, filed⟩ := h.printed allHistory printed
    exact ⟨len, fun c child => (filed c child).after step⟩
  · rw [top]
    exact h.unprinted

end Step

/-- A step of the parent at which it collects nothing. -/
theorem Collected.parent_step (h : Collected cfg v)
    (step : Shaped cfg bank parentId (v.loc parentId) flight input next flight')
    (running : (v.loc parentId).pc ≠ .exited) (printed : next.1.printed = (v.loc parentId).printed)
    (got : ∀ fr, next.1.pc = .receiveHistories fr → fr ≤ cfg.numChildren ∧
      ∀ c, IsChild cfg.numChildren c → c ≤ fr →
        Filed ((v.consume parentId input).become parentId next) next.1.allHistory c) :
    Collected cfg ((v.consume parentId input).become parentId next) := by
  have top : ((v.consume parentId input).become parentId next).loc parentId = next.1 := by
    rw [View.consume_become_loc, if_pos rfl]
  constructor
  · intro a child m mem history body
    exact h.step_sent step child mem body
  · rw [top]
    exact got
  · rw [top, printed, h.unprinted running]
    nofun
  · rw [top, printed]
    exact fun _ => h.unprinted running

theorem Collected.step (h : Collected cfg v) (shape : Shape cfg v flight)
    (ready : Ready v p input)
    (step : Shaped cfg bank p (v.loc p) flight input next flight') :
    Collected cfg ((v.consume p input).become p next) := by
  by_cases parent : p = parentId
  · subst parent
    have step' := step
    cases step with
    | childSyncStarted ne | childStarted ne | looked ne | stop ne | childSyncDone ne
    | childDone ne => exact absurd rfl ne
    | forward src pc | deliver _ _ pc =>
      have role := shape.role parentId (parent_le _)
      rw [pc] at role
      exact absurd rfl role.1
    | started pc | parentStarted _ pc | depart _ pc | ack _ pc | sendStop _ pc | done pc =>
      exact h.parent_step step' (by rw [pc]; nofun) rfl nofun
    | parentDone _ pc =>
      apply h.parent_step step' (by rw [pc]; nofun) rfl
      intro fr eq
      obtain rfl := Pc.receiveHistories.inj eq
      exact ⟨parent_le _, fun c child le => absurd (Nat.le_zero.mp le) child.ne_parent⟩
    | @history fr q history t _ pc found =>
      apply h.parent_step step' (by rw [pc]; nofun) rfl
      intro fr' eq
      obtain rfl := Pc.receiveHistories.inj eq
      obtain ⟨lt, le, ne, -⟩ := ipcReceiveAllNext_eq_some found
      obtain ⟨rest, head⟩ := ready
      have mem : (⟨.balanceHistory history, t⟩ : BankMessage) ∈ v.chan q parentId := by
        rw [head]
        exact List.mem_cons_self
      refine ⟨le, fun c child upper => ?_⟩
      by_cases own : c = q
      · subst own
        obtain ⟨eq, exited⟩ := h.sent c child _ mem history rfl
        have loc := loc_of_exited step' exited
        refine ⟨?_, loc ▸ exited⟩
        rw [loc, ← eq]
        exact Function.update_self _ _ _
      · have past := ipcReceiveAllNext_parent found
        have filed := ((h.got fr pc).2 c child (by omega)).after step'
        refine ⟨?_, filed.exited⟩
        rw [← filed.eq]
        have : c - 1 ≠ q - 1 := by
          have := child.1
          omega
        exact Function.update_of_ne this _ _
    | @printHistory fr _ pc last =>
      have top : ((v.consume parentId none).become parentId
          ({ v.loc parentId with
              pc := .exited
              printed := some (v.loc parentId).allHistory }, [])).loc parentId =
            { v.loc parentId with
              pc := .exited
              printed := some (v.loc parentId).allHistory } := by
        rw [View.consume_become_loc, if_pos rfl]
      obtain ⟨le, filed⟩ := h.got fr pc
      have all := parent_last le last
      constructor
      · intro a child m mem history body
        exact h.step_sent step' child mem body
      · rw [top]
        nofun
      · rw [top]
        intro allHistory eq
        obtain rfl := Option.some.inj eq
        refine ⟨(shape.histories fr pc).trans all, fun c child => ?_⟩
        exact (filed c child (all ▸ child.2)).after step'
      · rw [top]
        exact fun running => absurd rfl running
    | blocked =>
      apply h.frame step'
      rw [View.consume_become_loc, if_pos rfl]
  · apply h.frame step
    rw [View.consume_become_loc, if_neg (Ne.symm parent)]

theorem collected_initial (cfg : BankConfig) : Collected cfg (initialState cfg bank).view := by
  constructor
  · intro a _ m mem
    cases mem
  · nofun
  · nofun
  · exact fun _ => rfl

end Collected

/-! ## Runs -/

/-- What holds of a run that has lost no `DONE`. -/
structure Banked (cfg : BankConfig) (v : BankView Locals) (flight : Flight) : Prop where
  shape : Shape cfg v flight
  timed : Timed cfg v flight
  kept : lastTick cfg ≤ maxT → Kept.All cfg v flight
  collected : Collected cfg v

def Invariant (cfg : BankConfig) (v : BankView Locals) : Prop :=
  (∃ flight, Banked cfg v flight) ∨ ∃ p q, Lost cfg v p q

theorem invariant_initial (cfg : BankConfig) : Invariant cfg (initialState cfg bank).view :=
  .inl ⟨.none, shape_initial, timed_initial cfg, fun _ => kept_initial cfg, collected_initial cfg⟩

theorem Banked.step (h : Banked cfg v flight) (le : p ≤ cfg.numChildren) (ready : Ready v p input)
    (step : LocalStep cfg bank p (v.loc p) input next) :
    Invariant cfg ((v.consume p input).become p next) := by
  by_cases orderly : Orderly (v.loc p) input
  · obtain ⟨flight', step, shape⟩ := h.shape.step bank_lawful le ready orderly step
    exact .inl ⟨flight', shape, h.timed.step h.shape le ready step shape,
      fun small => (h.kept small).step small h.timed h.shape le ready step,
      h.collected.step h.shape ready step⟩
  · -- A main loop has taken a `DONE`.
    cases input with
    | none => exact absurd trivial orderly
    | some x =>
      obtain ⟨fr, m⟩ := x
      have at_loop : (v.loc p).pc = .receiveAny fr := by
        by_contra other
        exact orderly (fun pc => absurd pc other)
      have done : m.body = .done := by
        by_contra other
        exact orderly (fun _ => other)
      have role := h.shape.role p le
      rw [at_loop] at role
      refine .inr ⟨p, fr, h.shape.lost le role.1 at_loop h.collected.unprinted ready done ?_ ?_⟩
      · cases step with
        | goesOn => exact .inl rfl
        | breaks => exact .inr rfl
        | started pc | done pc | ack _ pc | history _ pc => cases at_loop.symm.trans pc
      · cases step with
        | goesOn _ _ loop | breaks _ _ loop =>
          intro x mem
          apply bank_lawful.childLoop p (v.loc p).data m
          rw [loop]
          exact mem
        | started pc | done pc | ack _ pc | history _ pc => cases at_loop.symm.trans pc

theorem invariant_move {v v' : BankView Locals} {e : Event Nat BankMessage}
    (h : Invariant cfg v) (move : Move (start cfg bank) v e v') : Invariant cfg v' := by
  obtain ⟨le, ready, next, rfl, step⟩ := bank_move move
  rcases h with ⟨flight, banked⟩ | ⟨p, q, lost⟩
  · rcases step with step | ⟨⟨q, m⟩, input, fails, -⟩
    · exact banked.step le ready step
    · rw [input] at ready
      exact absurd fails (banked.shape.not_fails le ready)
  · exact .inr ⟨p, q, lost.step bank_lawful ready step⟩

theorem invariant_of_run {ts : List (Transition Nat (Process Locals) BankMessage)}
    {s : BankState Locals} (run : Run (start cfg bank) (initialState cfg bank) ts s) :
    Invariant cfg s.view := by
  induction run with
  | nil => exact invariant_initial cfg
  | snoc _ step ih =>
    rcases step.view with ⟨same, -⟩ | move
    · rw [same]
      exact ih
    · exact invariant_move ih move

/-- All children in order, equally long histories with their entries at their times, and at every
time what the children had together at the start. -/
structure Conserves (cfg : BankConfig) (s : BankState Locals) (allHistory : AllHistory)
    (length : Nat) : Prop where
  entries : allHistory.historyLen = cfg.numChildren
  own : ∀ c, IsChild cfg.numChildren c → allHistory.history (c - 1) = (s.loc c).data.history
  id : ∀ c, IsChild cfg.numChildren c → (allHistory.history (c - 1)).id = c
  len : ∀ c, IsChild cfg.numChildren c → (allHistory.history (c - 1)).historyLen = length
  time : ∀ c, IsChild cfg.numChildren c → ∀ t < length,
    ((allHistory.history (c - 1)).history t).time = t
  sum : ∀ t < length,
    ∑ c ∈ Finset.Icc 1 cfg.numChildren,
        (((allHistory.history (c - 1)).history t).balance +
          ((allHistory.history (c - 1)).history t).balancePendingIn) =
      ∑ c ∈ Finset.Icc 1 cfg.numChildren, cfg.startBalances c

/-- A printed history is the whole history of its child. -/
theorem Banked.closed {s : BankState Locals} (h : Banked cfg s.view flight)
    (small : lastTick cfg ≤ maxT) {allHistory : AllHistory}
    (printed : (s.loc parentId).printed = some allHistory) (child : IsChild cfg.numChildren c) :
    Closed cfg c (allHistory.history (c - 1)) := by
  have filed := (h.collected.printed allHistory printed).2 c child
  rw [filed.eq]
  exact (h.kept small c child).closed filed.exited

theorem Banked.conserves {s : BankState Locals} (h : Banked cfg s.view flight)
    (small : lastTick cfg ≤ maxT) {allHistory : AllHistory}
    (printed : (s.loc parentId).printed = some allHistory) :
    Conserves cfg s allHistory (lastTick cfg) := by
  obtain ⟨len, filed⟩ := h.collected.printed allHistory printed
  have closed {c : Nat} (child : IsChild cfg.numChildren c) :
      Closed cfg c (allHistory.history (c - 1)) := h.closed small printed child
  constructor
  · exact len
  · exact fun c child => (filed c child).eq
  · exact fun c child => (closed child).entered.id
  · exact fun c child => (closed child).len
  · intro c child t lt
    rw [(closed child).entry lt]
    rfl
  · intro t lt
    rw [← sum_ledger cfg t]
    apply Finset.sum_congr rfl
    intro c mem
    rw [(closed (Finset.mem_Icc.mp mem)).entry lt]

/-- A run that prints has lost no `DONE`, and its clocks bound the ticks. -/
theorem banked_of_printed (r : BankRun cfg bank) {allHistory : AllHistory}
    (printed : (r.final.loc parentId).printed = some allHistory)
    (clocks : ∀ p ≤ cfg.numChildren, (r.final.loc p).data.lamportTime ≤ maxT) :
    lastTick cfg ≤ maxT ∧ ∃ flight, Banked cfg r.final.view flight := by
  rcases invariant_of_run r.run with ⟨flight, banked⟩ | ⟨p, q, lost⟩
  · refine ⟨?_, flight, banked⟩
    have first : IsChild cfg.numChildren 1 := ⟨le_rfl, cfg.pos⟩
    have clock := banked.timed.child 1 first
    rw [((banked.collected.printed allHistory printed).2 1 first).exited] at clock
    have clock : (r.final.loc 1).data.lamportTime = lastTick cfg + 1 := clock
    have := clocks 1 first.2
    omega
  · have unprinted : (r.final.loc parentId).printed = none := lost.unprinted
    rw [unprinted] at printed
    cases printed

/-- If the parent prints and no clock has passed `MAX_T`, it prints histories that conserve the
money. -/
theorem printed_histories_conserve (r : BankRun cfg bank) {allHistory : AllHistory}
    (printed : (r.final.loc parentId).printed = some allHistory)
    (clocks : ∀ p ≤ cfg.numChildren, (r.final.loc p).data.lamportTime ≤ maxT) :
    Conserves cfg r.final allHistory (lastTick cfg) := by
  obtain ⟨small, flight, banked⟩ := banked_of_printed r printed clocks
  exact banked.conserves small printed

theorem prints_of_schedule (cs : List (Choice Nat))
    (check : ((initialState oneTransfer bank).follow? (start oneTransfer bank) cs).any
      (fun s => (s.loc parentId).printed.isSome ∧
        ∀ p ≤ 2, (s.loc p).data.lamportTime ≤ maxT) = true) :
    ∃ (r : BankRun oneTransfer bank) (allHistory : AllHistory),
      (initialState oneTransfer bank).follow? (start oneTransfer bank) cs = some r.final ∧
        (r.final.loc parentId).printed = some allHistory ∧
          ∀ p ≤ 2, (r.final.loc p).data.lamportTime ≤ maxT := by
  obtain ⟨s, ts, follow, run, check⟩ := State.run_of_follow? check
  obtain ⟨printed, clocks⟩ := of_decide_eq_true check
  obtain ⟨allHistory, printed⟩ := Option.isSome_iff_exists.mp printed
  exact ⟨⟨_, s, run⟩, allHistory, follow, printed, clocks⟩

/-- Two children and one transfer. -/
theorem printed_histories_conserve_oneTransfer :
    ∃ (r : BankRun oneTransfer bank) (allHistory : AllHistory),
      (r.final.loc parentId).printed = some allHistory ∧
        Conserves oneTransfer r.final allHistory 14 := by
  obtain ⟨r, allHistory, -, printed, clocks⟩ :=
    prints_of_schedule oneTransferSchedule (by decide +kernel)
  exact ⟨r, allHistory, printed, printed_histories_conserve r printed clocks⟩

end Distra.Pa3
