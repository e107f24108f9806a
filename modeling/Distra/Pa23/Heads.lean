import Distra.Pa23.Shape

/-!
# What a receive finds

What stands at the head of a channel is what its receiver waits for, unless a child finds a `DONE`
in its main loop.
-/

namespace Distra.Pa23

open Network

variable {δ : Type} {cfg : BankConfig} {B : BankCode δ} {v : BankView δ} {flight : Flight} {p : Nat}

theorem Body.eq_started {b : Body} (h : b.type = .started) : b = .started := by
  cases b <;> first | rfl | cases h

theorem Body.eq_done {b : Body} (h : b.type = .done) : b = .done := by
  cases b <;> first | rfl | cases h

theorem Body.eq_ack {b : Body} (h : b.type = .ack) : b = .ack := by
  cases b <;> first | rfl | cases h

theorem Body.eq_stop {b : Body} (h : b.type = .stop) : b = .stop := by
  cases b <;> first | rfl | cases h

theorem Body.eq_transfer {b : Body} (h : b.type = .transfer) : ∃ order, b = .transfer order := by
  cases b <;> first | exact ⟨_, rfl⟩ | cases h

theorem Body.eq_balanceHistory {b : Body} (h : b.type = .balanceHistory) :
    ∃ history, b = .balanceHistory history := by
  cases b <;> first | exact ⟨_, rfl⟩ | cases h

theorem Pc.sent_pos {n : Nat} {pc : Pc} (role : pc.Role n p) (child : p ≠ parentId)
    (later : pc ≠ .childSyncStarted) : 1 ≤ pc.sent p := by
  cases pc <;> simp_all [Pc.sent, Pc.Role]

/-- A child sends its `DONE` after the `STOP`. -/
theorem Pc.taken_of_sent {pc : Pc} (child : p ≠ parentId) (sent : 2 ≤ pc.sent p) :
    pc.taken p parentId = 1 := by
  cases pc <;> simp_all [Pc.sent, Pc.taken]

/-- It sends its history at the end. -/
theorem Pc.exited_of_sent {pc : Pc} (child : p ≠ parentId) (sent : 3 ≤ pc.sent p) :
    pc = .exited := by
  cases pc <;> simp_all [Pc.sent]

theorem Flight.Of.none {pc : Pc} (h : flight.Of pc) (stopped : 1 ≤ pc.sent parentId) :
    flight = .none := by
  cases pc with
  | awaitAck order orders => cases stopped
  | _ => exact h

section Heads

variable (h : Shape cfg v flight) (le : p ≤ cfg.numChildren)
include h le

/-- Nothing is under way when a child has taken its `STOP`. -/
theorem Shape.none_of_stopped (child : p ≠ parentId)
    (stopped : (v.loc p).pc.taken p parentId = 1) : flight = .none := by
  apply h.under.none
  have := (h.fits parentId (Nat.zero_le _) p le child.symm).le
  rwa [stopped] at this

theorem Shape.none_of_awaitAllDone {fr : Nat} (pc : (v.loc p).pc = .awaitAllDone fr) :
    flight = .none := by
  by_cases parent : p = parentId
  · subst parent
    have under := h.under
    rw [pc] at under
    exact under
  · apply h.none_of_stopped le parent
    rw [pc]
    simp [Pc.taken, parentId]

/-- Where nothing is under way, only what the sender has sent is in a channel. -/
theorem Shape.waits_of_none {q : Nat} {m : BankMessage} (hq : q ≤ cfg.numChildren) (ne : q ≠ p)
    (head : ∃ rest, v.chan q p = m :: rest) (none_ : flight = .none) :
    (v.loc p).pc.taken p q < (v.loc q).pc.sent q := by
  by_contra waits
  obtain ⟨rest, head⟩ := head
  have fits := h.fits q hq p le ne
  rw [typesIn, head] at fits
  have := fits.head_flight (not_lt.mp waits)
  rw [none_] at this
  cases this

theorem Shape.type_of_waits {q : Nat} {m : BankMessage} (hq : q ≤ cfg.numChildren) (ne : q ≠ p)
    (head : ∃ rest, v.chan q p = m :: rest)
    (waits : (v.loc p).pc.taken p q < (v.loc q).pc.sent q)
    (short : (v.loc p).pc.taken p q < (script q p).length) :
    (script q p)[(v.loc p).pc.taken p q]? = some m.body.type := by
  obtain ⟨rest, head⟩ := head
  have fits := h.fits q hq p le ne
  rw [typesIn, head] at fits
  exact fits.head waits short

theorem Shape.type_of_flight {q : Nat} {m : BankMessage} (hq : q ≤ cfg.numChildren) (ne : q ≠ p)
    (head : ∃ rest, v.chan q p = m :: rest)
    (waits : (v.loc q).pc.sent q ≤ (v.loc p).pc.taken p q) :
    ∃ rest, flight.types q p = m.body.type :: rest := by
  obtain ⟨rest, head⟩ := head
  have fits := h.fits q hq p le ne
  rw [typesIn, head] at fits
  exact ⟨_, fits.head_flight waits⟩

/-- The barrier at the start finds a `STARTED`. -/
theorem Shape.started_head {fr q : Nat} {m : BankMessage} (pc : (v.loc p).pc = .awaitAllStarted fr)
    (next : ipcReceiveAllNext cfg.numChildren p fr = some q)
    (head : ∃ rest, v.chan q p = m :: rest) :
    (v.loc p).pc.taken p q < (v.loc q).pc.sent q ∧ m.body = .started := by
  obtain ⟨lt, hq, ne, -⟩ := ipcReceiveAllNext_eq_some next
  have child : q ≠ parentId := Nat.ne_of_gt (Nat.zero_lt_of_lt lt)
  have taken : (v.loc p).pc.taken p q = 0 := by
    rw [pc]
    exact if_pos lt
  have sent : 1 ≤ (v.loc q).pc.sent q := by
    by_contra early
    obtain ⟨rest, types⟩ := h.type_of_flight le hq ne head (by omega)
    have fresh : (v.loc q).pc = .childSyncStarted := by
      by_contra later
      exact early (Pc.sent_pos (h.role q hq) child later)
    cases flight with
    | none => cases types
    | toSrc order =>
      rw [Flight.types, if_neg (fun eq => child eq.1)] at types
      cases types
    | toDst order =>
      rw [Flight.types] at types
      split at types
      next eq => exact h.sender q (congrArg some eq.1.symm) fresh
      next => cases types
    | ack order =>
      rw [Flight.types] at types
      split at types
      next eq => exact h.sender q (congrArg some eq.1.symm) fresh
      next => cases types
  have waits : (v.loc p).pc.taken p q < (v.loc q).pc.sent q := by omega
  have short : (v.loc p).pc.taken p q < (script q p).length := by
    rw [taken, script, if_neg child]
    split <;> exact Nat.zero_lt_succ _
  have type := h.type_of_waits le hq ne head waits short
  rw [taken, script, if_neg child] at type
  refine ⟨waits, Body.eq_started ?_⟩
  split at type <;> exact (Option.some.inj type).symm

/-- The barrier at the end finds a `DONE`. -/
theorem Shape.done_head {fr q : Nat} {m : BankMessage} (pc : (v.loc p).pc = .awaitAllDone fr)
    (next : ipcReceiveAllNext cfg.numChildren p fr = some q)
    (head : ∃ rest, v.chan q p = m :: rest) :
    (v.loc p).pc.taken p q < (v.loc q).pc.sent q ∧ m.body = .done := by
  obtain ⟨lt, hq, ne, -⟩ := ipcReceiveAllNext_eq_some next
  have child : q ≠ parentId := Nat.ne_of_gt (Nat.zero_lt_of_lt lt)
  have taken : (v.loc p).pc.taken p q = 1 := by
    rw [pc]
    exact if_pos lt
  have waits := h.waits_of_none le hq ne head (h.none_of_awaitAllDone le pc)
  have short : (v.loc p).pc.taken p q < (script q p).length := by
    rw [taken, script, if_neg child]
    split <;> exact Nat.one_lt_succ_succ _
  have type := h.type_of_waits le hq ne head waits short
  rw [taken, script, if_neg child] at type
  refine ⟨waits, Body.eq_done ?_⟩
  split at type <;> exact (Option.some.inj type).symm

omit le in
/-- The parent finds a history. -/
theorem Shape.history_head {fr q : Nat} {m : BankMessage}
    (pc : (v.loc parentId).pc = .receiveHistories fr)
    (next : ipcReceiveAllNext cfg.numChildren parentId fr = some q)
    (head : ∃ rest, v.chan q parentId = m :: rest) :
    (v.loc parentId).pc.taken parentId q < (v.loc q).pc.sent q ∧
      ∃ history, m.body = .balanceHistory history := by
  obtain ⟨lt, hq, ne, -⟩ := ipcReceiveAllNext_eq_some next
  have taken : (v.loc parentId).pc.taken parentId q = 2 := by
    rw [pc]
    exact if_pos lt
  have none_ : flight = .none := by
    have under := h.under
    rw [pc] at under
    exact under
  have waits := h.waits_of_none (parent_le _) hq ne head none_
  have short : (v.loc parentId).pc.taken parentId q < (script q parentId).length := by
    rw [taken, script, if_neg ne, if_pos rfl]
    decide
  have type := h.type_of_waits (parent_le _) hq ne head waits short
  rw [taken, script, if_neg ne, if_pos rfl] at type
  exact ⟨waits, Body.eq_balanceHistory (Option.some.inj type).symm⟩

omit le in
/-- `transfer` finds the `ACK` of its order. -/
theorem Shape.ack_head {order : TransferOrder} {orders : List TransferOrder} {m : BankMessage}
    (pc : (v.loc parentId).pc = .awaitAck order orders)
    (head : ∃ rest, v.chan order.dst parentId = m :: rest) :
    flight = .ack order ∧ m.body = .ack ∧
      (v.loc order.dst).pc.sent order.dst ≤ (v.loc parentId).pc.taken parentId order.dst := by
  have role := h.role parentId (parent_le _)
  have under := h.under
  rw [pc] at role under
  have dst : IsChild cfg.numChildren order.dst := role.2.1.1.2
  have waits : (v.loc order.dst).pc.sent order.dst ≤
      (v.loc parentId).pc.taken parentId order.dst := by
    rw [pc]
    by_contra early
    have stopped := Pc.taken_of_sent dst.ne_parent (not_le.mp early)
    have := (h.fits parentId (parent_le _) order.dst dst.2 dst.ne_parent.symm).le
    rw [stopped, pc] at this
    cases this
  obtain ⟨rest, types⟩ := h.type_of_flight (parent_le _) dst.2 dst.ne_parent head waits
  rcases under with rfl | rfl | rfl
  · rw [Flight.types, if_neg (fun eq => dst.ne_parent eq.1)] at types
    cases types
  · rw [Flight.types, if_neg (fun eq => dst.ne_parent eq.2.symm)] at types
    cases types
  · rw [Flight.types, if_pos ⟨rfl, rfl⟩] at types
    exact ⟨rfl, Body.eq_ack (List.cons.inj types).1.symm, waits⟩

end Heads

/-- What a child finds in its main loop. -/
inductive LoopHead (p : Nat) (taken sent : Nat) : Flight → Nat → Body → Prop
  | stop : taken < sent → LoopHead p taken sent .none parentId .stop
  | toSrc {order} : p = order.src → sent ≤ taken →
      LoopHead p taken sent (.toSrc order) parentId (.transfer order)
  | toDst {order} : p = order.dst → sent ≤ taken →
      LoopHead p taken sent (.toDst order) order.src (.transfer order)
  | done {flight fr} : fr ≠ parentId → taken < sent → LoopHead p taken sent flight fr .done

theorem LoopHead.waits_of_stop {taken sent fr : Nat} {body : Body}
    (h : LoopHead p taken sent flight fr body) (stop : body = .stop) : taken < sent := by
  cases h with
  | stop waits => exact waits
  | _ => cases stop

theorem Shape.loop_head (h : Shape cfg v flight) (le : p ≤ cfg.numChildren) {fr : Nat}
    {m : BankMessage} (child : p ≠ parentId) (pc : (v.loc p).pc = .receiveAny fr)
    (head : ∃ rest, v.chan fr p = m :: rest) :
    LoopHead p ((v.loc p).pc.taken p fr) ((v.loc fr).pc.sent fr) flight fr m.body := by
  have role := h.role p le
  rw [pc] at role
  obtain ⟨-, hq, ne⟩ := role
  by_cases waits : (v.loc p).pc.taken p fr < (v.loc fr).pc.sent fr
  · have short : (v.loc p).pc.taken p fr < (script fr p).length := by
      rw [pc, Pc.taken, script, if_neg child]
      split <;> decide
    have type := h.type_of_waits le hq ne head waits short
    rw [pc, Pc.taken, script, if_neg child] at type
    by_cases parent : fr = parentId
    · subst parent
      rw [if_pos rfl, if_pos rfl] at type
      have stopped : flight = .none := h.under.none (Nat.zero_lt_of_lt waits)
      rw [stopped, Body.eq_stop (Option.some.inj type).symm]
      exact .stop waits
    · rw [if_neg parent, if_neg parent] at type
      rw [Body.eq_done (Option.some.inj type).symm]
      exact .done parent waits
  · obtain ⟨rest, types⟩ := h.type_of_flight le hq ne head (not_lt.mp waits)
    obtain ⟨rest', head⟩ := head
    have mem : m ∈ v.chan fr p := by
      rw [head]
      exact List.mem_cons_self
    cases flight with
    | none => cases types
    | toSrc order =>
      rw [Flight.types] at types
      split at types
      next eq =>
        obtain ⟨other, body⟩ := Body.eq_transfer (List.cons.inj types).1.symm
        obtain rfl := h.orders fr hq p le ne m mem other order body rfl
        obtain ⟨rfl, to_⟩ := eq
        rw [body]
        exact .toSrc to_ (not_lt.mp waits)
      next => cases types
    | toDst order =>
      rw [Flight.types] at types
      split at types
      next eq =>
        obtain ⟨other, body⟩ := Body.eq_transfer (List.cons.inj types).1.symm
        obtain rfl := h.orders fr hq p le ne m mem other order body rfl
        obtain ⟨rfl, to_⟩ := eq
        rw [body]
        exact .toDst to_ (not_lt.mp waits)
      next => cases types
    | ack order =>
      rw [Flight.types, if_neg (fun eq => child eq.2)] at types
      cases types

end Distra.Pa23
