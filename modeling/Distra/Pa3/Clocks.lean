import Distra.Pa23.ShapeSteps
import Distra.Pa3.Ledger

/-!
# The clocks

Between two transfers the parent's clock is ahead of those of all children, so every message of a
transfer decides the clock of its receiver. A clock is only not known for sure where a child has
not heard of the parent yet, or has taken part in nothing for a while.
-/

namespace Distra.Pa3

open Network Pa23

variable {cfg : BankConfig} {v : BankView Locals} {flight flight' : Flight} {p c : Nat}
  {input : Option (Nat × BankMessage)} {next : ProcessNext Locals}

/-- The transfers that the parent has not finished. -/
def remaining (cfg : BankConfig) : Pc → List TransferOrder
  | .awaitAllStarted _ => cfg.orders
  | .bankRobbery orders => orders
  | .awaitAck order orders => order :: orders
  | _ => []

/-- Child `c` has done its part of the transfer under way. -/
def Settled (c : Nat) : Flight → Prop
  | .toDst order => order.src = c
  | .ack order => order.src = c ∨ order.dst = c
  | _ => False

instance (c : Nat) : ∀ flight, Decidable (Settled c flight)
  | .none => inferInstanceAs (Decidable False)
  | .toSrc _ => inferInstanceAs (Decidable False)
  | .toDst order => inferInstanceAs (Decidable (order.src = c))
  | .ack order => inferInstanceAs (Decidable (order.src = c ∨ order.dst = c))

theorem not_settled_none (c : Nat) : ¬Settled c .none := id

theorem not_settled_toSrc (c : Nat) (order : TransferOrder) : ¬Settled c (.toSrc order) := id

/-- The transfers that are left for child `c`. -/
def due (cfg : BankConfig) (c : Nat) (flight : Flight) (pc : Pc) : List TransferOrder :=
  if Settled c flight then (remaining cfg pc).tail else remaining cfg pc

section Due

variable {orders : List TransferOrder} {order : TransferOrder} {pc : Pc}

theorem due_of_settled (settled : Settled c flight) (left : remaining cfg pc = order :: orders) :
    due cfg c flight pc = orders := by
  rw [due, if_pos settled, left, List.tail_cons]

theorem due_of_not_settled (unsettled : ¬Settled c flight) :
    due cfg c flight pc = remaining cfg pc :=
  if_neg unsettled

end Due

/-- How many children other than `c` come up to `fr`. -/
def heard (c fr : Nat) : Nat := fr - if c ≤ fr then 1 else 0

def ChildClock (cfg : BankConfig) (c : Nat) (orders : List TransferOrder) (l : Locals) : Pc → Prop
  | .childSyncStarted => l.lamportTime = 0
  | .awaitAllStarted fr => fr ≤ cfg.numChildren ∧ l.lamportTime ≤ fr + 1
  | .receiveAny _ => l.lamportTime ≤ departure cfg orders
  | .childSyncDone => l.lamportTime = departure cfg [] + 1
  | .awaitAllDone fr => fr ≤ cfg.numChildren ∧
      l.lamportTime = departure cfg [] + 2 + heard c fr ∧ l.bufTime = departure cfg [] + 2
  | .exited => l.lamportTime = lastTick cfg + 1
  | _ => True

def ParentClock (cfg : BankConfig) (l : Locals) : Pc → Prop
  | .awaitAllStarted fr =>
    fr ≤ cfg.numChildren ∧ l.lamportTime = if fr = 0 then 0 else fr + 1
  | .bankRobbery orders => l.lamportTime + 1 = departure cfg orders
  | .awaitAck order orders => l.lamportTime = departure cfg (order :: orders)
  | _ => True

/-- How long the transfer under way has taken. -/
def delay : Flight → Nat
  | .toDst _ => 2
  | .ack _ => 4
  | _ => 0

/-- The time of a message, where the parent stands at `pc`. -/
def Stamp (cfg : BankConfig) (pc : Pc) (flight : Flight) (m : BankMessage) : Prop :=
  match m.body with
  | .started => m.localTime = 1
  | .done => m.localTime = departure cfg [] + 2
  | .stop => m.localTime = departure cfg []
  | .transfer _ | .ack => m.localTime = departure cfg (remaining cfg pc) + delay flight
  | _ => True

structure Timed (cfg : BankConfig) (v : BankView Locals) (flight : Flight) : Prop where
  suffix : remaining cfg (v.loc parentId).pc <:+ cfg.orders
  parent : ParentClock cfg (v.loc parentId).data (v.loc parentId).pc
  child : ∀ c, IsChild cfg.numChildren c →
    ChildClock cfg c (due cfg c flight (v.loc parentId).pc) (v.loc c).data (v.loc c).pc
  stamps : ∀ a ≤ cfg.numChildren, ∀ b ≤ cfg.numChildren, a ≠ b → ∀ m ∈ v.chan a b,
    Stamp cfg (v.loc parentId).pc flight m

/-! ## Barriers -/

theorem heard_next {n fr q : Nat} (first : 1 ≤ c) (found : ipcReceiveAllNext n c fr = some q) :
    heard c q = heard c fr + 1 := by
  simp only [ipcReceiveAllNext] at found
  simp only [heard]
  split_ifs at found with skip <;> cases found <;> split_ifs <;> omega

theorem heard_last {n fr : Nat} (child : IsChild n c) (le : fr ≤ n)
    (last : ipcReceiveAllNext n c fr = none) : heard c fr + 1 = n := by
  obtain ⟨first, bound⟩ := child
  simp only [ipcReceiveAllNext] at last
  simp only [heard]
  split_ifs at last <;> split_ifs <;> omega

theorem parent_last {n fr : Nat} (le : fr ≤ n) (last : ipcReceiveAllNext n parentId fr = none) :
    fr = n := by
  by_contra early
  have lt : fr < n := lt_of_le_of_ne le early
  exact Nat.ne_of_gt (Nat.zero_lt_of_lt lt) (ipcReceiveAllNext_eq_none last n lt le_rfl)

/-! ## Steps that leave the transfer under way alone -/

theorem ChildClock.mono {orders orders' : List TransferOrder} {l : Locals} {pc : Pc}
    (h : ChildClock cfg c orders l pc) (le : departure cfg orders ≤ departure cfg orders') :
    ChildClock cfg c orders' l pc := by
  cases pc with
  | receiveAny fr => exact le_trans h le
  | _ => exact h

theorem Stamp.change {pc pc' : Pc} {m : BankMessage} (h : Stamp cfg pc flight m)
    (other : ¬(m.body.type = .transfer ∨ m.body.type = .ack)) : Stamp cfg pc' flight' m := by
  obtain ⟨body, t⟩ := m
  cases body with
  | transfer order => exact absurd (.inl rfl) other
  | ack => exact absurd (.inr rfl) other
  | _ => exact h

/-- The clocks and stamps after a step of `p`. -/
theorem Timed.after (h : Timed cfg v flight) (pc : Pc)
    (pc_eq : (if parentId = p then next.1.pc else (v.loc parentId).pc) = pc)
    (suffix : remaining cfg pc <:+ cfg.orders)
    (parent : parentId = p → ParentClock cfg next.1.data next.1.pc)
    (own : IsChild cfg.numChildren p →
      ChildClock cfg p (due cfg p flight' pc) next.1.data next.1.pc)
    (others : ∀ c, IsChild cfg.numChildren c → c ≠ p →
      departure cfg (due cfg c flight (v.loc parentId).pc) ≤ departure cfg (due cfg c flight' pc))
    (old : ∀ a ≤ cfg.numChildren, ∀ b ≤ cfg.numChildren, a ≠ b →
      ∀ m ∈ ((v.consume p input).become p next).chan a b, m ∈ v.chan a b →
        Stamp cfg (v.loc parentId).pc flight m → Stamp cfg pc flight' m)
    (new : ∀ x ∈ next.2, Stamp cfg pc flight' x.2) :
    Timed cfg ((v.consume p input).become p next) flight' := by
  have loc (a : Nat) : ((v.consume p input).become p next).loc a =
      if a = p then next.1 else v.loc a := View.consume_become_loc ..
  have top : (((v.consume p input).become p next).loc parentId).pc = pc := by
    rw [loc, ← pc_eq, apply_ite Process.pc]
  refine ⟨top ▸ suffix, ?_, fun c child => ?_, fun a ha b hb ne m mem => ?_⟩
  · rw [loc]
    split
    next eq => exact parent eq
    next => exact h.parent
  · rw [top, loc]
    split
    next eq =>
      subst eq
      exact own child
    next ne => exact (h.child c child).mono (others c child ne)
  · rw [top]
    have found := mem
    rw [View.consume_become_chan] at mem
    rcases List.mem_append.mp mem with mem | mem
    · have before := mem_consume mem
      exact old a ha b hb ne m found before (h.stamps a ha b hb ne m before)
    · split at mem
      next => exact new (b, m) (mem_outTo.mp mem)
      next => cases mem

section Same

variable (same : parentId = p → remaining cfg next.1.pc = remaining cfg (v.loc parentId).pc)
include same

/-- What is left after a step of `p` that finishes no transfer. -/
theorem remaining_after :
    remaining cfg (if parentId = p then next.1.pc else (v.loc parentId).pc) =
      remaining cfg (v.loc parentId).pc := by
  split
  next eq => exact same eq
  next => rfl

theorem due_after (c : Nat) :
    due cfg c flight (if parentId = p then next.1.pc else (v.loc parentId).pc) =
      due cfg c flight (v.loc parentId).pc := by
  rw [due, due, remaining_after same]

end Same

theorem Timed.same (h : Timed cfg v flight)
    (same : parentId = p → remaining cfg next.1.pc = remaining cfg (v.loc parentId).pc)
    (parent : parentId = p → ParentClock cfg next.1.data next.1.pc)
    (own : IsChild cfg.numChildren p →
      ChildClock cfg p (due cfg p flight (v.loc parentId).pc) next.1.data next.1.pc)
    (new : ∀ x ∈ next.2, Stamp cfg (v.loc parentId).pc flight x.2) :
    Timed cfg ((v.consume p input).become p next) flight := by
  have stamp_eq (m : BankMessage) :
      Stamp cfg (if parentId = p then next.1.pc else (v.loc parentId).pc) flight m ↔
        Stamp cfg (v.loc parentId).pc flight m := by
    rw [Stamp, Stamp, remaining_after same]
  apply h.after _ rfl
  · rw [remaining_after same]
    exact h.suffix
  · exact parent
  · rw [due_after same]
    exact own
  · intro c _ _
    rw [due_after same]
  · intro a _ b _ _ m _ _ stamped
    exact (stamp_eq m).mpr stamped
  · intro x mem
    exact (stamp_eq x.2).mpr (new x mem)

/-! ## Transfers -/

section Transfers

variable {order : TransferOrder} {orders : List TransferOrder} {t : Nat}

theorem remaining_awaitAck (cfg : BankConfig) {pc : Pc} (waits : pc = .awaitAck order orders) :
    remaining cfg pc = order :: orders := by
  rw [waits, remaining]

theorem Timed.clock_of_receiveAny (h : Timed cfg v flight) (child : IsChild cfg.numChildren c)
    {fr : Nat} (pc : (v.loc c).pc = .receiveAny fr) :
    (v.loc c).data.lamportTime ≤ departure cfg (due cfg c flight (v.loc parentId).pc) := by
  have clock := h.child c child
  rw [pc] at clock
  exact clock

theorem Timed.stamp_of_head (h : Timed cfg v flight) {q : Nat} {m : BankMessage}
    (le : p ≤ cfg.numChildren) (hq : q ≤ cfg.numChildren) (ne : q ≠ p)
    (head : ∃ rest, v.chan q p = m :: rest) : Stamp cfg (v.loc parentId).pc flight m := by
  obtain ⟨rest, head⟩ := head
  apply h.stamps q hq p le ne
  rw [head]
  exact List.mem_cons_self

/-- The message of the last step of a transfer is gone. -/
theorem old_of_disjoint (shape : Shape cfg v flight)
    (shape' : Shape cfg ((v.consume p input).become p next) flight')
    (disjoint : ∀ a b type, type ∈ flight.types a b → type ∉ flight'.types a b) {pc : Pc} :
    ∀ a ≤ cfg.numChildren, ∀ b ≤ cfg.numChildren, a ≠ b →
      ∀ m ∈ ((v.consume p input).become p next).chan a b, m ∈ v.chan a b →
        Stamp cfg (v.loc parentId).pc flight m → Stamp cfg pc flight' m := by
  intro a ha b hb ne m after before stamped
  apply stamped.change
  intro type
  exact disjoint a b _ (shape.mem_flight ha hb ne before type)
    (shape'.mem_flight ha hb ne after type)

theorem Timed.step_depart (h : Timed cfg v .none) (shape : Shape cfg v .none)
    (pc : (v.loc parentId).pc = .bankRobbery (order :: orders))
    (shape' : Shape cfg ((v.consume parentId none).become parentId
      ((v.loc parentId).goTo (.awaitAck order orders) (transfer (v.loc parentId).data order)))
      (.toSrc order)) :
    Timed cfg ((v.consume parentId none).become parentId
      ((v.loc parentId).goTo (.awaitAck order orders) (transfer (v.loc parentId).data order)))
      (.toSrc order) := by
  have clock := h.parent
  have suffix := h.suffix
  rw [pc] at clock suffix
  apply h.after (.awaitAck order orders) (if_pos rfl)
  · exact suffix
  · intro _
    exact clock
  · intro child
    exact absurd rfl child.ne_parent
  · intro c _ _
    rw [due_of_not_settled (not_settled_none c), due_of_not_settled (not_settled_toSrc c order), pc]
    rfl
  · exact old_of_disjoint shape shape' (fun a b type mem => absurd mem List.not_mem_nil)
  · intro x mem
    rw [List.mem_singleton.mp mem]
    exact clock

/-- The source hears of the transfer when it departs. -/
theorem Timed.forward_time (h : Timed cfg v (.toSrc order)) (shape : Shape cfg v (.toSrc order))
    (pc : (v.loc order.src).pc = .receiveAny parentId)
    (head : ∃ rest, v.chan parentId order.src = ⟨.transfer order, t⟩ :: rest) :
    ∃ orders, remaining cfg (v.loc parentId).pc = order :: orders ∧
      order :: orders <:+ cfg.orders ∧ t = departure cfg (order :: orders) ∧
      (v.loc order.src).data.lamportTime ≤ departure cfg (order :: orders) := by
  obtain ⟨orders, waits⟩ := shape.awaits (.inl rfl)
  obtain ⟨⟨src, -⟩, -⟩ := shape.valid_flight (.inl rfl)
  have left := remaining_awaitAck cfg waits
  refine ⟨orders, left, left ▸ h.suffix, ?_, ?_⟩
  · have stamp := h.stamp_of_head src.2 (parent_le _) src.ne_parent.symm head
    rw [Stamp, left] at stamp
    exact stamp
  · have clock := h.clock_of_receiveAny src pc
    rw [due_of_not_settled (not_settled_toSrc _ order), left] at clock
    exact clock

/-- The destination hears of it two ticks later. -/
theorem Timed.deliver_time (h : Timed cfg v (.toDst order)) (shape : Shape cfg v (.toDst order))
    (pc : (v.loc order.dst).pc = .receiveAny order.src)
    (head : ∃ rest, v.chan order.src order.dst = ⟨.transfer order, t⟩ :: rest) :
    ∃ orders, remaining cfg (v.loc parentId).pc = order :: orders ∧
      order :: orders <:+ cfg.orders ∧ t = departure cfg (order :: orders) + 2 ∧
      (v.loc order.dst).data.lamportTime ≤ departure cfg (order :: orders) := by
  obtain ⟨orders, waits⟩ := shape.awaits (.inr (.inl rfl))
  obtain ⟨⟨src, dst⟩, distinct⟩ := shape.valid_flight (.inr (.inl rfl))
  have left := remaining_awaitAck cfg waits
  refine ⟨orders, left, left ▸ h.suffix, ?_, ?_⟩
  · have stamp := h.stamp_of_head dst.2 src.2 distinct head
    rw [Stamp, left] at stamp
    exact stamp
  · have unsettled : ¬Settled order.dst (.toDst order) := distinct
    have clock := h.clock_of_receiveAny dst pc
    rw [due_of_not_settled unsettled, left] at clock
    exact clock

theorem Timed.step_forward (h : Timed cfg v (.toSrc order)) (shape : Shape cfg v (.toSrc order))
    (src : p = order.src) (pc : (v.loc p).pc = .receiveAny parentId)
    (head : ∃ rest, v.chan parentId p = ⟨.transfer order, t⟩ :: rest)
    (next_eq : next = (v.loc p).goTo (.receiveAny 0)
      (childLoop p (v.loc p).data ⟨.transfer order, t⟩).2)
    (shape' : Shape cfg ((v.consume p (some (parentId, ⟨.transfer order, t⟩))).become p next)
      (.toDst order)) :
    Timed cfg ((v.consume p (some (parentId, ⟨.transfer order, t⟩))).become p next)
      (.toDst order) := by
  subst src
  obtain ⟨⟨src, -⟩, -⟩ := shape.valid_flight (.inl rfl)
  obtain ⟨orders, left, suffix, stamp, clock⟩ := h.forward_time shape pc head
  have after := departure_cons suffix
  subst next_eq stamp
  rw [childLoop_src (synchronizeTime_of_le clock) rfl] at shape' ⊢
  apply h.after (v.loc parentId).pc (if_neg src.ne_parent.symm)
  · exact h.suffix
  · intro parent
    exact absurd parent.symm src.ne_parent
  · intro _
    rw [due_of_settled (show Settled order.src (.toDst order) from rfl) left]
    show departure cfg (order :: orders) + 1 + 1 ≤ departure cfg orders
    omega
  · intro c _ ne
    have unsettled : ¬Settled c (.toDst order) := fun eq => ne eq.symm
    rw [due_of_not_settled (not_settled_toSrc c order), due_of_not_settled unsettled]
  · apply old_of_disjoint shape shape'
    intro a b type mem mem'
    exact src.ne_parent ((Flight.mem_toDst mem').2.1.symm.trans (Flight.mem_toSrc mem).2.1)
  · intro x mem
    rw [List.mem_singleton.mp mem, Stamp, left]
    rfl

theorem Timed.step_deliver (h : Timed cfg v (.toDst order)) (shape : Shape cfg v (.toDst order))
    (dst : p = order.dst) (pc : (v.loc p).pc = .receiveAny order.src)
    (head : ∃ rest, v.chan order.src p = ⟨.transfer order, t⟩ :: rest)
    (next_eq : next = (v.loc p).goTo (.receiveAny 0)
      (childLoop p (v.loc p).data ⟨.transfer order, t⟩).2)
    (shape' : Shape cfg ((v.consume p (some (order.src, ⟨.transfer order, t⟩))).become p next)
      (.ack order)) :
    Timed cfg ((v.consume p (some (order.src, ⟨.transfer order, t⟩))).become p next)
      (.ack order) := by
  subst dst
  obtain ⟨⟨src, dst⟩, distinct⟩ := shape.valid_flight (.inr (.inl rfl))
  obtain ⟨orders, left, suffix, stamp, clock⟩ := h.deliver_time shape pc head
  have after := departure_cons suffix
  subst next_eq stamp
  rw [childLoop_dst (synchronizeTime_of_le (Nat.le_add_right_of_le clock)) distinct rfl]
    at shape' ⊢
  apply h.after (v.loc parentId).pc (if_neg dst.ne_parent.symm)
  · exact h.suffix
  · intro parent
    exact absurd parent.symm dst.ne_parent
  · intro _
    rw [due_of_settled (show Settled order.dst (.ack order) from .inr rfl) left]
    show departure cfg (order :: orders) + 2 + 1 + 1 ≤ departure cfg orders
    omega
  · intro c _ ne
    by_cases source : order.src = c
    · have before : Settled c (.toDst order) := source
      have after : Settled c (.ack order) := .inl source
      rw [due_of_settled before left, due_of_settled after left]
    · have before : ¬Settled c (.toDst order) := source
      have after : ¬Settled c (.ack order) := fun eq => eq.elim source (fun eq => ne eq.symm)
      rw [due_of_not_settled before, due_of_not_settled after]
  · apply old_of_disjoint shape shape'
    intro a b type mem mem'
    exact distinct ((Flight.mem_toDst mem).2.1.symm.trans (Flight.mem_ack mem').2.1)
  · intro x mem
    rw [List.mem_singleton.mp mem, Stamp, left]
    rfl

theorem Timed.step_ack (h : Timed cfg v (.ack order)) (shape : Shape cfg v (.ack order))
    (pc : (v.loc parentId).pc = .awaitAck order orders)
    (head : ∃ rest, v.chan order.dst parentId = ⟨.ack, t⟩ :: rest)
    (next_eq : next = (v.loc parentId).goTo (.bankRobbery orders)
      (transferReceived (v.loc parentId).data ⟨.ack, t⟩, []))
    (shape' : Shape cfg
      ((v.consume parentId (some (order.dst, ⟨.ack, t⟩))).become parentId next) .none) :
    Timed cfg ((v.consume parentId (some (order.dst, ⟨.ack, t⟩))).become parentId next) .none := by
  obtain ⟨⟨src, dst⟩, distinct⟩ := shape.valid_flight (.inr (.inr rfl))
  have left := remaining_awaitAck cfg pc
  have suffix := h.suffix
  rw [left] at suffix
  have after := departure_cons suffix
  have stamp : t = departure cfg (order :: orders) + 4 := by
    have := h.stamp_of_head (parent_le _) dst.2 dst.ne_parent head
    rw [Stamp, left] at this
    exact this
  have clock := h.parent
  rw [pc] at clock
  have clock : (v.loc parentId).data.lamportTime = departure cfg (order :: orders) := clock
  subst next_eq stamp
  apply h.after (.bankRobbery orders) (if_pos rfl)
  · exact (List.suffix_cons order orders).trans suffix
  · intro _
    show synchronizeTime (departure cfg (order :: orders) + 4) (v.loc parentId).data.lamportTime + 1
      = departure cfg orders
    rw [clock, synchronizeTime_of_le (Nat.le_add_right _ 4), after]
  · intro child
    exact absurd rfl child.ne_parent
  · intro c _ _
    have left' : due cfg c .none (.bankRobbery orders) = orders :=
      due_of_not_settled (not_settled_none c)
    rw [left']
    by_cases settled : Settled c (.ack order)
    · rw [due_of_settled settled left]
    · rw [due_of_not_settled settled, left]
      omega
  · exact old_of_disjoint shape shape' (fun a b type _ => List.not_mem_nil)
  · intro x mem
    cases mem

end Transfers

/-! ## Children -/

section Child

variable (h : Timed cfg v flight) (child : IsChild cfg.numChildren p)
include h child

/-- A step of a child that leaves the transfer under way alone. -/
theorem Timed.child_step
    (own : ChildClock cfg p (due cfg p flight (v.loc parentId).pc) next.1.data next.1.pc)
    (new : ∀ x ∈ next.2, Stamp cfg (v.loc parentId).pc flight x.2) :
    Timed cfg ((v.consume p input).become p next) flight := by
  apply h.same
  · intro parent
    exact absurd parent.symm child.ne_parent
  · intro parent
    exact absurd parent.symm child.ne_parent
  · intro _
    exact own
  · exact new

theorem Timed.step_childSyncStarted (pc : (v.loc p).pc = .childSyncStarted) :
    Timed cfg ((v.consume p none).become p
      ((v.loc p).goTo (.awaitAllStarted parentId)
        (childSyncStarted cfg.numChildren p (v.loc p).data))) flight := by
  have clock := h.child p child
  rw [pc] at clock
  have clock : (v.loc p).data.lamportTime = 0 := clock
  apply h.child_step child
  · exact ⟨parent_le _, (congrArg (· + 1) clock).le⟩
  · intro x mem
    obtain ⟨_, _, rfl⟩ := List.mem_map.mp mem
    exact congrArg (· + 1) clock

theorem Timed.step_started {fr q t : Nat} (pc : (v.loc p).pc = .awaitAllStarted fr)
    (found : ipcReceiveAllNext cfg.numChildren p fr = some q)
    (head : ∃ rest, v.chan q p = ⟨.started, t⟩ :: rest) :
    Timed cfg ((v.consume p (some (q, ⟨.started, t⟩))).become p
      ((v.loc p).goTo (.awaitAllStarted q) (ipcExtReceive (v.loc p).data ⟨.started, t⟩, [])))
      flight := by
  obtain ⟨lt, le, ne, -⟩ := ipcReceiveAllNext_eq_some found
  have stamp : t = 1 := h.stamp_of_head child.2 le ne head
  have clock := h.child p child
  rw [pc] at clock
  have clock : (v.loc p).data.lamportTime ≤ fr + 1 := clock.2
  apply h.child_step child
  · refine ⟨le, ?_⟩
    show synchronizeTime t (v.loc p).data.lamportTime ≤ q + 1
    rw [stamp, synchronizeTime_eq_max]
    omega
  · nofun

theorem Timed.step_childStarted {fr : Nat} (pc : (v.loc p).pc = .awaitAllStarted fr) :
    Timed cfg ((v.consume p none).become p ((v.loc p).goTo (.receiveAny 0) ((v.loc p).data, [])))
      flight := by
  have clock := h.child p child
  rw [pc] at clock
  obtain ⟨le, clock⟩ := clock
  apply h.child_step child
  · show (v.loc p).data.lamportTime ≤ departure cfg _
    rw [departure]
    omega
  · simp

theorem Timed.step_stop {t : Nat} (pc : (v.loc p).pc = .receiveAny parentId)
    (head : ∃ rest, v.chan parentId p = ⟨.stop, t⟩ :: rest) :
    Timed cfg ((v.consume p (some (parentId, ⟨.stop, t⟩))).become p
      ((v.loc p).goTo .childSyncDone (childLoop p (v.loc p).data ⟨.stop, t⟩).2)) flight := by
  have stamp : t = departure cfg [] :=
    h.stamp_of_head child.2 (parent_le _) child.ne_parent.symm head
  have clock := (h.clock_of_receiveAny child pc).trans (departure_le cfg _)
  rw [stamp, childLoop_stop (synchronizeTime_of_le clock)]
  apply h.child_step child
  · rfl
  · nofun

theorem Timed.step_childSyncDone (pc : (v.loc p).pc = .childSyncDone) :
    Timed cfg ((v.consume p none).become p
      ((v.loc p).goTo (.awaitAllDone parentId)
        (childSyncDone cfg.numChildren p (v.loc p).data))) flight := by
  have clock := h.child p child
  rw [pc] at clock
  have clock : (v.loc p).data.lamportTime + 1 = departure cfg [] + 2 := congrArg (· + 1) clock
  have none_heard : heard p parentId = 0 := Nat.zero_sub _
  apply h.child_step child
  · refine ⟨parent_le _, ?_, clock⟩
    rw [none_heard]
    exact clock
  · intro x mem
    obtain ⟨_, _, rfl⟩ := List.mem_map.mp mem
    exact clock

theorem Timed.step_done {fr q t : Nat} (pc : (v.loc p).pc = .awaitAllDone fr)
    (found : ipcReceiveAllNext cfg.numChildren p fr = some q)
    (head : ∃ rest, v.chan q p = ⟨.done, t⟩ :: rest) :
    Timed cfg ((v.consume p (some (q, ⟨.done, t⟩))).become p
      ((v.loc p).goTo (.awaitAllDone q) (ipcExtReceive (v.loc p).data ⟨.done, t⟩, []))) flight := by
  obtain ⟨lt, le, ne, -⟩ := ipcReceiveAllNext_eq_some found
  have stamp : t = departure cfg [] + 2 := h.stamp_of_head child.2 le ne head
  have clock := h.child p child
  rw [pc] at clock
  obtain ⟨-, clock, -⟩ := clock
  apply h.child_step child
  · refine ⟨le, ?_, stamp⟩
    show synchronizeTime t (v.loc p).data.lamportTime = departure cfg [] + 2 + heard p q
    rw [stamp, clock, synchronizeTime_of_ge (Nat.le_add_right _ _), heard_next child.1 found]
    rfl
  · nofun

/-- The last synchronisation of a child. -/
theorem Timed.final_sync {fr : Nat} (pc : (v.loc p).pc = .awaitAllDone fr)
    (last : ipcReceiveAllNext cfg.numChildren p fr = none) :
    synchronizeTime (v.loc p).data.bufTime (v.loc p).data.lamportTime = lastTick cfg := by
  have clock := h.child p child
  rw [pc] at clock
  obtain ⟨le, clock, buf⟩ := clock
  have all := heard_last child le last
  rw [buf, clock, synchronizeTime_of_ge (Nat.le_add_right _ _), lastTick]
  omega

theorem Timed.step_childDone {fr : Nat} (pc : (v.loc p).pc = .awaitAllDone fr)
    (last : ipcReceiveAllNext cfg.numChildren p fr = none) :
    Timed cfg ((v.consume p none).become p ((v.loc p).goTo .exited (sendHistory (v.loc p).data)))
      flight := by
  apply h.child_step child
  · exact congrArg (· + 1) (h.final_sync child pc last)
  · intro x mem
    rw [List.mem_singleton.mp mem]
    trivial

end Child

/-! ## The parent -/

section Parent

variable (h : Timed cfg v flight)
include h

/-- A step of the parent that leaves the transfer under way alone. -/
theorem Timed.parent_step
    (same : remaining cfg next.1.pc = remaining cfg (v.loc parentId).pc)
    (clock : ParentClock cfg next.1.data next.1.pc)
    (new : ∀ x ∈ next.2, Stamp cfg (v.loc parentId).pc flight x.2) :
    Timed cfg ((v.consume parentId input).become parentId next) flight := by
  apply h.same
  · intro _
    exact same
  · intro _
    exact clock
  · intro child
    exact absurd rfl child.ne_parent
  · exact new

theorem Timed.step_parent_started {fr q t : Nat} (pc : (v.loc parentId).pc = .awaitAllStarted fr)
    (found : ipcReceiveAllNext cfg.numChildren parentId fr = some q)
    (head : ∃ rest, v.chan q parentId = ⟨.started, t⟩ :: rest) :
    Timed cfg ((v.consume parentId (some (q, ⟨.started, t⟩))).become parentId
      ((v.loc parentId).goTo (.awaitAllStarted q)
        (ipcExtReceive (v.loc parentId).data ⟨.started, t⟩, []))) flight := by
  obtain ⟨lt, le, ne, -⟩ := ipcReceiveAllNext_eq_some found
  have stamp : t = 1 := h.stamp_of_head (parent_le _) le ne head
  have clock := h.parent
  rw [pc] at clock
  obtain ⟨-, clock⟩ := clock
  apply h.parent_step
  · rw [pc]
    rfl
  · refine ⟨le, ?_⟩
    show synchronizeTime t (v.loc parentId).data.lamportTime = if q = 0 then 0 else q + 1
    rw [stamp, clock, synchronizeTime_eq_max, ipcReceiveAllNext_parent found,
      if_neg (Nat.succ_ne_zero fr)]
    split <;> omega
  · nofun

theorem Timed.step_parentStarted {fr : Nat} (pc : (v.loc parentId).pc = .awaitAllStarted fr)
    (last : ipcReceiveAllNext cfg.numChildren parentId fr = none) :
    Timed cfg ((v.consume parentId none).become parentId
      ((v.loc parentId).goTo (.bankRobbery cfg.orders) ((v.loc parentId).data, []))) flight := by
  have clock := h.parent
  rw [pc] at clock
  obtain ⟨le, clock⟩ := clock
  have all := parent_last le last
  have pos := cfg.pos
  apply h.parent_step
  · rw [pc]
    rfl
  · show (v.loc parentId).data.lamportTime + 1 = departure cfg cfg.orders
    rw [clock, if_neg (by omega), departure_orders, all]
  · nofun

theorem Timed.step_sendStop (pc : (v.loc parentId).pc = .bankRobbery []) :
    Timed cfg ((v.consume parentId none).become parentId
      ((v.loc parentId).goTo (.awaitAllDone parentId)
        (sendStop cfg.numChildren (v.loc parentId).data))) flight := by
  have clock := h.parent
  rw [pc] at clock
  apply h.parent_step
  · rw [pc]
    rfl
  · trivial
  · intro x mem
    obtain ⟨_, _, rfl⟩ := List.mem_map.mp mem
    exact clock

end Parent

theorem Timed.step (h : Timed cfg v flight) (shape : Shape cfg v flight)
    (le : p ≤ cfg.numChildren) (ready : Ready v p input)
    (step : Shaped cfg bank p (v.loc p) flight input next flight')
    (shape' : Shape cfg ((v.consume p input).become p next) flight') :
    Timed cfg ((v.consume p input).become p next) flight' := by
  have child (ne : p ≠ parentId) : IsChild cfg.numChildren p := ⟨Nat.pos_of_ne_zero ne, le⟩
  cases step with
  | childSyncStarted ne pc => exact h.step_childSyncStarted (child ne) pc
  | started pc found =>
    by_cases parent : p = parentId
    · subst parent
      exact h.step_parent_started pc found ready
    · exact h.step_started (child parent) pc found ready
  | childStarted ne pc => exact h.step_childStarted (child ne) pc
  | parentStarted parent pc last =>
    subst parent
    exact h.step_parentStarted pc last
  | depart parent pc =>
    subst parent
    exact h.step_depart shape pc shape'
  | forward src pc => exact h.step_forward shape src pc ready rfl shape'
  | deliver dst _ pc => exact h.step_deliver shape dst pc ready rfl shape'
  | ack parent pc =>
    subst parent
    exact h.step_ack shape pc ready rfl shape'
  | sendStop parent pc =>
    subst parent
    exact h.step_sendStop pc
  | looked ne pc => exact h.child_step (child ne) (h.clock_of_receiveAny (child ne) pc) nofun
  | stop ne pc => exact h.step_stop (child ne) pc ready
  | childSyncDone ne pc => exact h.step_childSyncDone (child ne) pc
  | done pc found =>
    by_cases parent : p = parentId
    · subst parent
      exact h.parent_step (by rw [pc]; rfl) trivial nofun
    · exact h.step_done (child parent) pc found ready
  | childDone ne pc last => exact h.step_childDone (child ne) pc last
  | parentDone parent pc =>
    subst parent
    exact h.parent_step (by rw [pc]; rfl) trivial nofun
  | history parent pc =>
    subst parent
    exact h.parent_step (by rw [pc]; rfl) trivial nofun
  | printHistory parent pc =>
    subst parent
    exact h.parent_step (by rw [pc]; rfl) trivial nofun
  | blocked =>
    apply h.same
    · intro parent
      rw [parent]
    · intro parent
      exact parent ▸ h.parent
    · exact fun child => h.child p child
    · nofun

theorem timed_initial (cfg : BankConfig) : Timed cfg (initialState cfg bank).view .none := by
  constructor
  · exact List.suffix_rfl
  · exact ⟨parent_le _, rfl⟩
  · intro c child
    have fresh : ((initialState cfg bank).view.loc c).pc = .childSyncStarted :=
      if_neg child.ne_parent
    rw [fresh]
    rfl
  · intro a _ b _ _ m mem
    cases mem

end Distra.Pa3
