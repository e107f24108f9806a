import Distra.Pa23.Heads

/-!
# Every step keeps the shape

Unless a child takes a `DONE` in its main loop, nothing fails, and a step is one of those of
`Shaped`.
-/

namespace Distra.Pa23

open Network

variable {δ : Type} {cfg : BankConfig} {B : BankCode δ} {v : BankView δ} {flight : Flight} {p : Nat}

/-! ## The barriers -/

/-- What has been taken of process `a` at the start of a barrier. -/
theorem taken_first (a x y : Nat) :
    (if parentId < a then x else if a = parentId then y else x + 1) =
      if a = parentId then y else x := by
  by_cases first : parentId < a
  · rw [if_pos first, if_neg (Nat.ne_of_gt first)]
  · have parent : a = parentId := Nat.eq_zero_of_not_pos first
    rw [if_neg first, if_pos parent, if_pos parent]

theorem taken_next {n fr q a : Nat} (next : ipcReceiveAllNext n p fr = some q) (ne : a ≠ p)
    (x y : Nat) :
    (if q < a then x else if a = parentId then y else x + 1) =
      (if fr < a then x else if a = parentId then y else x + 1) + if a = q then 1 else 0 := by
  have child : q ≠ parentId := by
    have := ipcReceiveAllNext_eq_some next
    unfold parentId
    omega
  have ahead := ipcReceiveAllNext_ahead next ne
  by_cases same : a = q
  · subst same
    rw [if_neg (lt_irrefl a), if_neg child, if_pos (ahead.mpr le_rfl), if_pos rfl]
  · rw [if_neg same]
    exact if_congr (by omega) rfl rfl

section Barriers

variable (h : Shape cfg v flight) (le : p ≤ cfg.numChildren)
include h le

theorem Shape.step_childSyncStarted (lawful : B.Lawful) (child : p ≠ parentId)
    (pc : (v.loc p).pc = .childSyncStarted) :
    Shape cfg ((v.consume p none).become p
      ((v.loc p).goTo (.awaitAllStarted parentId)
        (B.childSyncStarted cfg.numChildren p (v.loc p).data))) flight := by
  obtain ⟨t, sends⟩ := lawful.childSyncStarted cfg.numChildren p (v.loc p).data
  apply h.multicast le sends
  · intro b
    rw [pc, script, if_neg child]
    split <;> rfl
  · simp [Body.type]
  · trivial
  · exact ⟨fun sender => h.sender p sender pc, fun parent => absurd parent child⟩
  · rw [pc]
    exact if_neg child
  · intro a _ _
    rw [pc]
    exact (taken_first a 0 0).trans (ite_self 0)
  · intro parent
    exact absurd parent.symm child
  · simp
  · simp

theorem Shape.step_started {fr q : Nat} {m : BankMessage} {next : ProcessNext δ}
    (pc : (v.loc p).pc = .awaitAllStarted fr)
    (found : ipcReceiveAllNext cfg.numChildren p fr = some q)
    (head : ∃ rest, v.chan q p = m :: rest) (pc' : next.1.pc = .awaitAllStarted q)
    (silent : next.2 = []) :
    Shape cfg ((v.consume p (some (q, m))).become p next) flight := by
  obtain ⟨lt, hq, ne, -⟩ := ipcReceiveAllNext_eq_some found
  have child : q ≠ parentId := Nat.ne_of_gt (Nat.zero_lt_of_lt lt)
  obtain ⟨waits, body⟩ := h.started_head le pc found head
  apply h.absorb le hq ne head silent waits
  · rw [pc, Pc.taken, if_pos lt, script, if_neg child, body]
    split <;> rfl
  · rw [pc']
    trivial
  · rw [pc, pc']
    rfl
  · intro a _ ne
    rw [pc, pc']
    exact taken_next found ne 0 0
  · intro parent
    have under := h.under
    rw [parent, pc] at under
    rw [pc']
    exact under
  · simp [pc']
  · simp [pc']

theorem Shape.step_childStarted {fr : Nat} (child : p ≠ parentId)
    (pc : (v.loc p).pc = .awaitAllStarted fr)
    (last : ipcReceiveAllNext cfg.numChildren p fr = none) :
    Shape cfg ((v.consume p none).become p ((v.loc p).goTo (.receiveAny 0) ((v.loc p).data, [])))
      flight := by
  apply h.neutral le rfl
  · exact ⟨child, Nat.zero_le _, child.symm⟩
  · rw [pc]
    exact (if_neg child).symm
  · intro a ha ne
    rw [pc]
    exact (if_neg (ipcReceiveAllNext_last last ha ne)).symm
  · intro parent
    exact absurd parent.symm child
  · simp
  · simp

omit le in
theorem Shape.step_parentStarted {fr : Nat} (pc : (v.loc parentId).pc = .awaitAllStarted fr)
    (last : ipcReceiveAllNext cfg.numChildren parentId fr = none) :
    Shape cfg ((v.consume parentId none).become parentId
      ((v.loc parentId).goTo (.bankRobbery cfg.orders) ((v.loc parentId).data, []))) flight := by
  apply h.neutral (parent_le _) rfl
  · exact ⟨rfl, cfg.valid⟩
  · rw [pc]
    rfl
  · intro a ha ne
    rw [pc]
    exact ((if_neg (ipcReceiveAllNext_last last ha ne)).trans (if_neg ne)).symm
  · intro _
    have under := h.under
    rw [pc] at under
    exact under
  · simp
  · simp

omit le in
theorem Shape.step_sendStop (lawful : B.Lawful) (pc : (v.loc parentId).pc = .bankRobbery []) :
    Shape cfg ((v.consume parentId none).become parentId
      ((v.loc parentId).goTo (.awaitAllDone parentId)
        (B.sendStop cfg.numChildren (v.loc parentId).data))) flight := by
  obtain ⟨t, sends⟩ := lawful.sendStop cfg.numChildren (v.loc parentId).data
  have under : flight = .none := by
    have under := h.under
    rw [pc] at under
    exact under
  apply h.multicast (parent_le _) sends
  · intro b
    rw [pc]
    rfl
  · nofun
  · trivial
  · rw [under]
    exact ⟨nofun, fun _ => rfl⟩
  · rw [pc]
    rfl
  · intro a _ ne
    rw [pc]
    exact (taken_first a 1 1).trans (ite_self 1)
  · intro _
    exact under
  · nofun
  · nofun

theorem Shape.step_childSyncDone (lawful : B.Lawful) (child : p ≠ parentId)
    (pc : (v.loc p).pc = .childSyncDone) :
    Shape cfg ((v.consume p none).become p
      ((v.loc p).goTo (.awaitAllDone parentId)
        (B.childSyncDone cfg.numChildren p (v.loc p).data))) flight := by
  obtain ⟨t, sends⟩ := lawful.childSyncDone cfg.numChildren p (v.loc p).data
  have stopped : flight = .none := by
    apply h.none_of_stopped le child
    rw [pc]
    rfl
  apply h.multicast le sends
  · intro b
    rw [pc, script, if_neg child]
    split <;> rfl
  · simp [Body.type]
  · trivial
  · rw [stopped]
    exact ⟨by simp [Flight.sender], fun _ => rfl⟩
  · rw [pc]
    exact if_neg child
  · intro a _ _
    rw [pc]
    exact (taken_first a 1 1).trans (ite_self 1)
  · intro parent
    exact absurd parent.symm child
  · simp
  · simp

theorem Shape.step_done {fr q : Nat} {m : BankMessage} {next : ProcessNext δ}
    (pc : (v.loc p).pc = .awaitAllDone fr)
    (found : ipcReceiveAllNext cfg.numChildren p fr = some q)
    (head : ∃ rest, v.chan q p = m :: rest) (pc' : next.1.pc = .awaitAllDone q)
    (silent : next.2 = []) :
    Shape cfg ((v.consume p (some (q, m))).become p next) flight := by
  obtain ⟨lt, hq, ne, -⟩ := ipcReceiveAllNext_eq_some found
  have child : q ≠ parentId := Nat.ne_of_gt (Nat.zero_lt_of_lt lt)
  obtain ⟨waits, body⟩ := h.done_head le pc found head
  apply h.absorb le hq ne head silent waits
  · rw [pc, Pc.taken, if_pos lt, script, if_neg child, body]
    split <;> rfl
  · rw [pc']
    trivial
  · rw [pc, pc']
    rfl
  · intro a _ ne
    rw [pc, pc']
    exact taken_next found ne 1 1
  · intro parent
    have under := h.under
    rw [parent, pc] at under
    rw [pc']
    exact under
  · simp [pc']
  · simp [pc']

theorem Shape.step_childDone {fr : Nat} (lawful : B.Lawful) (child : p ≠ parentId)
    (pc : (v.loc p).pc = .awaitAllDone fr)
    (last : ipcReceiveAllNext cfg.numChildren p fr = none) :
    Shape cfg ((v.consume p none).become p
      ((v.loc p).goTo .exited (B.sendHistory (v.loc p).data))) flight := by
  obtain ⟨history, t, sends⟩ := lawful.sendHistory (v.loc p).data
  apply h.emit le
  · trivial
  · intro b hb ne
    rw [Process.goTo_sends, sends, sentTypes, outTo_cons, outTo_nil, List.append_nil, pc,
      Pc.sent, if_neg child, script, if_neg child]
    by_cases parent : b = parentId
    · rw [if_pos parent, if_pos parent.symm]
      rfl
    · rw [if_neg parent, if_neg (Ne.symm parent)]
      rfl
  · rw [h.none_of_awaitAllDone le pc]
    exact ⟨by simp [Flight.sender], fun _ => rfl⟩
  · rw [pc, Process.goTo_pc, Pc.sent, Pc.sent, if_neg child, if_neg child]
  · intro a ha ne
    rw [pc, Process.goTo_pc, Pc.taken, Pc.taken, if_neg child,
      if_neg (ipcReceiveAllNext_last last ha ne)]
  · intro parent
    exact absurd parent.symm child
  · simp
  · intro x mem order
    rw [Process.goTo_sends, sends, List.mem_singleton] at mem
    rw [mem]
    simp
  · simp

omit le in
theorem Shape.step_parentDone {fr : Nat} {allHistory : AllHistory}
    (pc : (v.loc parentId).pc = .awaitAllDone fr)
    (last : ipcReceiveAllNext cfg.numChildren parentId fr = none)
    (fresh : allHistory.historyLen = 0) :
    Shape cfg ((v.consume parentId none).become parentId
      ({ v.loc parentId with pc := .receiveHistories parentId, allHistory := allHistory }, []))
      flight := by
  apply h.neutral (parent_le _) rfl
  · rfl
  · rw [pc]
    rfl
  · intro a ha ne
    rw [pc]
    have child : parentId < a := Nat.pos_of_ne_zero ne
    exact (if_pos child).trans ((if_neg (ipcReceiveAllNext_last last ha ne)).trans (if_neg ne)).symm
  · intro _
    exact h.none_of_awaitAllDone (parent_le _) pc
  · simp
  · intro _ fr pc
    rw [← Pc.receiveHistories.inj pc]
    exact fresh

omit le in
theorem Shape.step_history {fr q : Nat} {m : BankMessage} {next : ProcessNext δ}
    (pc : (v.loc parentId).pc = .receiveHistories fr)
    (found : ipcReceiveAllNext cfg.numChildren parentId fr = some q)
    (head : ∃ rest, v.chan q parentId = m :: rest) (pc' : next.1.pc = .receiveHistories q)
    (silent : next.2 = []) (len : next.1.allHistory.historyLen = q) :
    Shape cfg ((v.consume parentId (some (q, m))).become parentId next) flight := by
  obtain ⟨lt, hq, ne, -⟩ := ipcReceiveAllNext_eq_some found
  obtain ⟨waits, history, body⟩ := h.history_head pc found head
  apply h.absorb (parent_le _) hq ne head silent waits
  · rw [pc, Pc.taken, if_pos lt, script, if_neg ne, if_pos rfl, body]
    rfl
  · rw [pc']
    rfl
  · rw [pc, pc']
    rfl
  · intro a _ ne
    have taken := taken_next found ne 2 3
    rw [if_neg ne] at taken
    rw [pc, pc']
    exact taken
  · intro _
    have under := h.under
    rw [pc] at under
    rw [pc']
    exact under
  · simp [pc']
  · intro _ fr pc
    rw [pc'] at pc
    rw [len, Pc.receiveHistories.inj pc]

omit le in
theorem Shape.step_printHistory {fr : Nat} {printed : Option AllHistory}
    (pc : (v.loc parentId).pc = .receiveHistories fr)
    (last : ipcReceiveAllNext cfg.numChildren parentId fr = none) :
    Shape cfg ((v.consume parentId none).become parentId
      ({ v.loc parentId with pc := .exited, printed := printed }, [])) flight := by
  apply h.neutral (parent_le _) rfl
  · trivial
  · rw [pc]
    rfl
  · intro a ha ne
    rw [pc]
    exact ((if_neg ne).trans (if_pos rfl)).trans (if_neg (ipcReceiveAllNext_last last ha ne)).symm
  · intro _
    have under := h.under
    rw [pc] at under
    exact under
  · simp
  · simp

/-! ## The main loop -/

theorem Shape.step_looked {fr : Nat} (child : p ≠ parentId)
    (pc : (v.loc p).pc = .receiveAny fr) :
    Shape cfg ((v.consume p none).become p
      ((v.loc p).goTo (.receiveAny (receiveAnyNext cfg.numChildren p fr)) ((v.loc p).data, [])))
      flight := by
  apply h.neutral le rfl
  · refine ⟨child, ?_⟩
    rw [receiveAnyNext]
    cases found : ipcReceiveAllNext cfg.numChildren p fr with
    | none => exact ⟨Nat.zero_le _, child.symm⟩
    | some q =>
      obtain ⟨-, le, ne, -⟩ := ipcReceiveAllNext_eq_some found
      exact ⟨le, ne⟩
  · rw [pc]
    rfl
  · intro a _ _
    rw [pc]
    rfl
  · intro parent
    exact absurd parent.symm child
  · simp
  · simp

theorem Shape.step_blocked : Shape cfg ((v.consume p none).become p (v.loc p, [])) flight := by
  apply h.neutral le rfl (h.role p le) rfl (fun _ _ _ => rfl)
  · intro parent
    exact parent ▸ h.under
  · exact id
  · intro parent
    exact parent ▸ h.histories

theorem Shape.step_stop {m : BankMessage} {next : ProcessNext δ} (child : p ≠ parentId)
    (pc : (v.loc p).pc = .receiveAny parentId) (head : ∃ rest, v.chan parentId p = m :: rest)
    (body : m.body = .stop)
    (waits : (v.loc p).pc.taken p parentId < (v.loc parentId).pc.sent parentId)
    (pc' : next.1.pc = .childSyncDone) (silent : next.2 = []) :
    Shape cfg ((v.consume p (some (parentId, m))).become p next) flight := by
  apply h.absorb le (parent_le _) child.symm head silent waits
  · rw [pc, body]
    rfl
  · rw [pc']
    exact child
  · rw [pc, pc']
    rfl
  · intro a _ _
    rw [pc, pc', Pc.taken, Pc.taken]
    split <;> rfl
  · intro parent
    exact absurd parent.symm child
  · simp [pc']
  · simp [pc']

end Barriers

/-! ## Transfers -/

section Transfers

variable {order : TransferOrder} {orders : List TransferOrder} {m : BankMessage}
  {next : ProcessNext δ}

theorem sentTypes_single (a b : Nat) (m : BankMessage) :
    sentTypes [(a, m)] b = if b = a then [m.body.type] else [] := by
  rw [sentTypes, outTo_cons, outTo_nil, List.append_nil]
  by_cases same : b = a
  · rw [if_pos same.symm, if_pos same]
    rfl
  · rw [if_neg (Ne.symm same), if_neg same]
    rfl

/-- While nothing is under way there is no `TRANSFER`. -/
theorem Shape.no_transfer (h : Shape cfg v .none) {a b : Nat} (ha : a ≤ cfg.numChildren)
    (hb : b ≤ cfg.numChildren) (ne : a ≠ b) (mem : m ∈ v.chan a b) (o : TransferOrder) :
    m.body ≠ .transfer o := by
  intro body
  exact List.not_mem_nil (h.mem_flight ha hb ne mem (.inl (congrArg Body.type body)))

theorem Shape.step_depart (lawful : B.Lawful) (h : Shape cfg v .none)
    (pc : (v.loc parentId).pc = .bankRobbery (order :: orders)) :
    Shape cfg ((v.consume parentId none).become parentId
      ((v.loc parentId).goTo (.awaitAck order orders) (B.transfer (v.loc parentId).data order)))
      (.toSrc order) := by
  obtain ⟨t, sends⟩ := lawful.transfer (v.loc parentId).data order
  have role := h.role parentId (parent_le _)
  rw [pc] at role
  have valid : order.Valid cfg.numChildren := role.2 order List.mem_cons_self
  apply h.launch (parent_le _)
  · exact ⟨rfl, valid, fun o mem => role.2 o (List.mem_cons_of_mem _ mem)⟩
  · rw [pc]
    rfl
  · intro b
    rfl
  · intro b _ ne
    rw [Process.goTo_sends, sends, sentTypes_single, Flight.types]
    by_cases src : b = order.src
    · rw [if_pos src, if_pos ⟨rfl, src⟩]
      rfl
    · rw [if_neg src, if_neg (fun eq => src eq.2)]
  · intro a ha ne
    apply (h.fits a ha parentId (parent_le _) ne).move rfl
    · rw [pc]
      rfl
    · exact if_neg (fun eq => ne eq.1)
  · intro a b ne _
    exact if_neg (fun eq => ne eq.1)
  · exact .inl rfl
  · simp [Flight.sender]
  · simp
  · intro a ha b hb ne m mem o _ body
    exact absurd body (h.no_transfer ha hb ne mem o)
  · intro x mem o o' body other
    rw [Process.goTo_sends, sends, List.mem_singleton] at mem
    rw [mem] at body
    exact (Body.transfer.inj body).symm.trans (Option.some.inj other)
  · simp

theorem Shape.step_ack {flight : Flight} (h : Shape cfg v flight)
    (pc : (v.loc parentId).pc = .awaitAck order orders)
    (head : ∃ rest, v.chan order.dst parentId = m :: rest)
    (pc' : next.1.pc = .bankRobbery orders) (silent : next.2 = []) :
    Shape cfg ((v.consume parentId (some (order.dst, m))).become parentId next) .none := by
  have role := h.role parentId (parent_le _)
  rw [pc] at role
  obtain ⟨rfl, body, waits⟩ := h.ack_head pc head
  have dst : IsChild cfg.numChildren order.dst := role.2.1.1.2
  apply h.launch (parent_le _)
  · rw [pc']
    exact ⟨rfl, role.2.2⟩
  · rw [pc, pc']
    rfl
  · intro b
    exact if_neg (fun eq => dst.ne_parent eq.1.symm)
  · intro b _ _
    rw [silent]
    rfl
  · apply h.land (parent_le _) dst.2 dst.ne_parent head waits
    · rw [body]
      exact if_pos ⟨rfl, rfl⟩
    · intro a ne
      exact if_neg (fun eq => ne eq.1)
    · intro a _
      rfl
    · intro a _ _
      rw [pc, pc']
      rfl
  · intro a b _ ne
    exact (if_neg (fun eq => ne eq.2)).symm
  · rw [if_pos rfl, pc']
    rfl
  · nofun
  · simp [pc']
  · intro a ha b hb ne m mem o o' _ other
    cases other
  · intro x mem
    rw [silent] at mem
    cases mem
  · simp [pc']

theorem Flight.Of.forward {pc : Pc} {order : TransferOrder} (h : (Flight.toSrc order).Of pc) :
    (Flight.toDst order).Of pc := by
  cases pc with
  | awaitAck order' orders =>
    rcases h with eq | eq | eq <;> cases eq
    exact .inr (.inl rfl)
  | _ => cases h

theorem Flight.Of.deliver {pc : Pc} {order : TransferOrder} (h : (Flight.toDst order).Of pc) :
    (Flight.ack order).Of pc := by
  cases pc with
  | awaitAck order' orders =>
    rcases h with eq | eq | eq <;> cases eq
    exact .inr (.inr rfl)
  | _ => cases h

/-- The parent waits for the end of the transfer under way. -/
theorem Shape.awaits {flight : Flight} (h : Shape cfg v flight)
    (flies : flight = .toSrc order ∨ flight = .toDst order ∨ flight = .ack order) :
    ∃ orders, (v.loc parentId).pc = .awaitAck order orders := by
  have under := h.under
  cases pc : (v.loc parentId).pc with
  | awaitAck order' orders =>
    rw [pc] at under
    refine ⟨orders, ?_⟩
    rcases flies with rfl | rfl | rfl <;> rcases under with eq | eq | eq <;> cases eq <;> rfl
  | _ =>
    rw [pc] at under
    rcases flies with rfl | rfl | rfl <;> cases under

/-- The order under way is one between two children. -/
theorem Shape.valid_flight {flight : Flight} (h : Shape cfg v flight)
    (flies : flight = .toSrc order ∨ flight = .toDst order ∨ flight = .ack order) :
    order.Valid cfg.numChildren := by
  obtain ⟨orders, pc⟩ := h.awaits flies
  have role := h.role parentId (parent_le _)
  rw [pc] at role
  exact role.2.1

theorem Shape.step_forward (h : Shape cfg v (.toSrc order)) (src : p = order.src)
    (pc : (v.loc p).pc = .receiveAny parentId) (head : ∃ rest, v.chan parentId p = m :: rest)
    (waits : (v.loc parentId).pc.sent parentId ≤ (v.loc p).pc.taken p parentId)
    (body : m.body = .transfer order) (pc' : next.1.pc = .receiveAny 0) {t : Nat}
    (sends : next.2 = [(order.dst, ⟨.transfer order, t⟩)]) :
    Shape cfg ((v.consume p (some (parentId, m))).become p next) (.toDst order) := by
  subst src
  obtain ⟨⟨src, dst⟩, distinct⟩ := h.valid_flight (.inl rfl)
  have child := src.ne_parent
  apply h.launch src.2
  · rw [pc']
    exact ⟨child, Nat.zero_le _, child.symm⟩
  · rw [pc, pc']
    rfl
  · intro b
    exact if_neg (fun eq => child eq.1)
  · intro b _ _
    rw [sends, sentTypes_single, Flight.types]
    by_cases to_ : b = order.dst
    · rw [if_pos to_, if_pos ⟨rfl, to_⟩]
      rfl
    · rw [if_neg to_, if_neg (fun eq => to_ eq.2)]
  · apply h.land src.2 (parent_le _) child.symm head waits
    · rw [body]
      exact if_pos ⟨rfl, rfl⟩
    · intro a ne
      exact if_neg (fun eq => ne eq.1)
    · intro a ne
      exact if_neg (fun eq => ne eq.1)
    · intro a _ _
      rw [pc, pc']
      rfl
  · intro a b ne ne'
    exact (if_neg (fun eq => ne eq.1)).trans (if_neg (fun eq => ne' eq.2)).symm
  · rw [if_neg child.symm]
    exact h.under.forward
  · intro a eq
    exact (Option.some.inj eq).symm
  · simp [pc']
  · exact h.orders
  · intro x mem o o' transfer other
    rw [sends, List.mem_singleton] at mem
    rw [mem] at transfer
    exact (Body.transfer.inj transfer).symm.trans (Option.some.inj other)
  · simp [pc']

theorem Shape.step_deliver (h : Shape cfg v (.toDst order)) (dst : p = order.dst)
    (pc : (v.loc p).pc = .receiveAny order.src) (head : ∃ rest, v.chan order.src p = m :: rest)
    (waits : (v.loc order.src).pc.sent order.src ≤ (v.loc p).pc.taken p order.src)
    (body : m.body = .transfer order) (pc' : next.1.pc = .receiveAny 0) {t : Nat}
    (sends : next.2 = [(parentId, ⟨.ack, t⟩)]) :
    Shape cfg ((v.consume p (some (order.src, m))).become p next) (.ack order) := by
  subst dst
  obtain ⟨⟨src, dst⟩, distinct⟩ := h.valid_flight (.inr (.inl rfl))
  have child := dst.ne_parent
  apply h.launch dst.2
  · rw [pc']
    exact ⟨child, Nat.zero_le _, child.symm⟩
  · rw [pc, pc']
    rfl
  · intro b
    exact if_neg (fun eq => distinct eq.1.symm)
  · intro b _ _
    rw [sends, sentTypes_single, Flight.types]
    by_cases to_ : b = parentId
    · rw [if_pos to_, if_pos ⟨rfl, to_⟩]
      rfl
    · rw [if_neg to_, if_neg (fun eq => to_ eq.2)]
  · apply h.land dst.2 src.2 distinct head waits
    · rw [body]
      exact if_pos ⟨rfl, rfl⟩
    · intro a ne
      exact if_neg (fun eq => ne eq.1)
    · intro a ne
      exact if_neg (fun eq => ne eq.1)
    · intro a _ _
      rw [pc, pc']
      rfl
  · intro a b ne ne'
    exact (if_neg (fun eq => ne eq.1)).trans (if_neg (fun eq => ne' eq.2)).symm
  · rw [if_neg child.symm]
    exact h.under.deliver
  · intro a eq
    exact (Option.some.inj eq).symm
  · simp [pc']
  · intro a ha b hb ne m mem o o' _ other
    cases other
  · intro x mem o o' transfer other
    cases other
  · simp [pc']

end Transfers

/-! ## All steps -/

/-- The receives of the main loop find no `DONE`. -/
def Orderly (st : Process δ) : Option (Nat × BankMessage) → Prop
  | some (fr, m) => st.pc = .receiveAny fr → m.body ≠ .done
  | none => True

theorem Shape.step (lawful : B.Lawful) (h : Shape cfg v flight) (le : p ≤ cfg.numChildren)
    {input : Option (Nat × BankMessage)} {next : ProcessNext δ} (ready : Ready v p input)
    (orderly : Orderly (v.loc p) input) (step : LocalStep cfg B p (v.loc p) input next) :
    ∃ flight', Shaped cfg B p (v.loc p) flight input next flight' ∧
      Shape cfg ((v.consume p input).become p next) flight' := by
  cases step with
  | childSyncStarted child pc =>
    exact ⟨flight, .childSyncStarted child pc, h.step_childSyncStarted le lawful child pc⟩
  | @started fr q m pc found expected =>
    obtain ⟨body, t⟩ := m
    obtain rfl := Body.eq_started expected
    exact ⟨flight, .started pc found, h.step_started le pc found ready rfl rfl⟩
  | childStarted child pc last =>
    exact ⟨flight, .childStarted child pc last, h.step_childStarted le child pc last⟩
  | parentStarted parent pc last =>
    subst parent
    have under := h.under
    rw [pc] at under
    obtain rfl := under
    exact ⟨.none, .parentStarted rfl pc last, h.step_parentStarted pc last⟩
  | @goesOn fr m run child pc loop =>
    obtain ⟨body, t⟩ := m
    have head := h.loop_head le child pc ready
    cases head with
    | stop waits =>
      obtain ⟨d, stop⟩ := lawful.stop p (v.loc p).data t
      rw [stop] at loop
      cases loop
    | @toSrc order src waits =>
      obtain ⟨d, t', out⟩ := lawful.transferOut p (v.loc p).data order t src.symm
      have run_ : run = (B.childLoop p (v.loc p).data ⟨.transfer order, t⟩).2 := by rw [loop]
      rw [out] at loop
      cases loop
      refine ⟨.toDst order, ?_, h.step_forward src pc ready waits rfl rfl rfl⟩
      rw [run_]
      exact .forward src pc
    | @toDst order dst waits =>
      have distinct : order.src ≠ p := dst ▸ (h.valid_flight (.inr (.inl rfl))).2
      obtain ⟨d, t', out⟩ := lawful.transferIn p (v.loc p).data order t distinct dst.symm
      have run_ : run = (B.childLoop p (v.loc p).data ⟨.transfer order, t⟩).2 := by rw [loop]
      rw [out] at loop
      cases loop
      refine ⟨.ack order, ?_, h.step_deliver dst pc ready waits rfl rfl rfl⟩
      rw [run_]
      exact .deliver dst distinct pc
    | done => exact absurd rfl (orderly pc)
  | @breaks fr m run child pc loop =>
    obtain ⟨body, t⟩ := m
    have head := h.loop_head le child pc ready
    cases head with
    | stop waits =>
      have run_ : run = (B.childLoop p (v.loc p).data ⟨.stop, t⟩).2 := by rw [loop]
      obtain ⟨d, stop⟩ := lawful.stop p (v.loc p).data t
      rw [stop] at loop
      cases loop
      refine ⟨.none, ?_, h.step_stop le child pc ready rfl waits rfl rfl⟩
      rw [run_]
      exact .stop child pc
    | @toSrc order src waits =>
      obtain ⟨d, t', out⟩ := lawful.transferOut p (v.loc p).data order t src.symm
      rw [out] at loop
      cases loop
    | @toDst order dst waits =>
      have distinct : order.src ≠ p := dst ▸ (h.valid_flight (.inr (.inl rfl))).2
      obtain ⟨d, t', out⟩ := lawful.transferIn p (v.loc p).data order t distinct dst.symm
      rw [out] at loop
      cases loop
    | done => exact absurd rfl (orderly pc)
  | looked child pc => exact ⟨flight, .looked child pc, h.step_looked le child pc⟩
  | childSyncDone child pc =>
    exact ⟨flight, .childSyncDone child pc, h.step_childSyncDone le lawful child pc⟩
  | @done fr q m pc found expected =>
    obtain ⟨body, t⟩ := m
    obtain rfl := Body.eq_done expected
    exact ⟨flight, .done pc found, h.step_done le pc found ready rfl rfl⟩
  | childDone child pc last =>
    exact ⟨flight, .childDone child pc last, h.step_childDone le lawful child pc last⟩
  | parentDone parent pc last =>
    subst parent
    obtain rfl := h.none_of_awaitAllDone le pc
    exact ⟨.none, .parentDone rfl pc last, h.step_parentDone pc last rfl⟩
  | transfer parent pc =>
    subst parent
    have under := h.under
    rw [pc] at under
    obtain rfl := under
    exact ⟨_, .depart rfl pc, h.step_depart lawful pc⟩
  | @ack order orders m parent pc expected =>
    subst parent
    obtain ⟨rfl, -, -⟩ := h.ack_head pc ready
    obtain ⟨body, t⟩ := m
    obtain rfl := Body.eq_ack expected
    exact ⟨.none, .ack rfl pc, h.step_ack pc ready rfl rfl⟩
  | sendStop parent pc =>
    subst parent
    have under := h.under
    rw [pc] at under
    obtain rfl := under
    exact ⟨.none, .sendStop rfl pc, h.step_sendStop lawful pc⟩
  | @history fr q m history parent pc found expected len =>
    subst parent
    have under := h.under
    rw [pc] at under
    obtain rfl := under
    obtain ⟨body, t⟩ := m
    obtain rfl := expected
    have bound : q < 2 ^ 8 := by
      have := cfg.le_max
      have := (ipcReceiveAllNext_eq_some found).2.1
      rw [maxChildren] at *
      omega
    have first : 0 < q := Nat.zero_lt_of_lt (ipcReceiveAllNext_eq_some found).1
    have succ : succUInt8 (v.loc parentId).allHistory.historyLen = q := by
      rw [len, succUInt8, Nat.sub_add_cancel first, Nat.mod_eq_of_lt bound]
    rw [succ]
    exact ⟨.none, .history rfl pc found, h.step_history pc found ready rfl rfl rfl⟩
  | printHistory parent pc last =>
    subst parent
    have under := h.under
    rw [pc] at under
    obtain rfl := under
    exact ⟨.none, .printHistory rfl pc last, h.step_printHistory pc last⟩
  | blocked => exact ⟨flight, .blocked, h.step_blocked le⟩

/-- No receive fails. -/
theorem Shape.not_fails (h : Shape cfg v flight) (le : p ≤ cfg.numChildren) {q : Nat}
    {m : BankMessage} (ready : Ready v p (some (q, m))) : ¬Fails cfg p (v.loc p) (q, m) := by
  intro fails
  cases fails with
  | started pc found unexpected =>
    rw [(h.started_head le pc found ready).2] at unexpected
    exact unexpected rfl
  | done pc found unexpected =>
    rw [(h.done_head le pc found ready).2] at unexpected
    exact unexpected rfl
  | ack parent pc unexpected =>
    subst parent
    rw [(h.ack_head pc ready).2.1] at unexpected
    exact unexpected rfl
  | @history fr _ _ parent pc found unexpected =>
    subst parent
    obtain ⟨-, history, body⟩ := h.history_head pc found ready
    rw [body, h.histories fr pc] at unexpected
    rcases unexpected with type | len
    · exact type rfl
    · exact len (Nat.eq_sub_of_add_eq (ipcReceiveAllNext_parent found).symm)

theorem shape_initial : Shape cfg (initialState cfg B).view .none := by
  have pc (p : Nat) : ((initialState cfg B).view.loc p).pc =
      if p = parentId then .awaitAllStarted parentId else .childSyncStarted := rfl
  constructor
  · intro p _
    rw [pc]
    by_cases parent : p = parentId
    · rw [if_pos parent]
      trivial
    · rw [if_neg parent]
      exact parent
  · intro a _ b _ _
    have sent : ((initialState cfg B).view.loc a).pc.sent a = 0 := by
      rw [pc]
      by_cases parent : a = parentId
      · rw [if_pos parent]
        exact if_pos parent
      · rw [if_neg parent]
        rfl
    have taken : ((initialState cfg B).view.loc b).pc.taken b a = 0 := by
      rw [pc]
      by_cases parent : b = parentId
      · rw [if_pos parent]
        exact (taken_first a 0 0).trans (ite_self 0)
      · rw [if_neg parent]
        rfl
    constructor
    · rw [sent, taken]
    · rw [sent, taken]
      rfl
  · rw [pc]
    rfl
  · nofun
  · intro a _ b _ _ m mem
    cases mem
  · intro fr at_
    rw [pc] at at_
    cases at_

end Distra.Pa23
