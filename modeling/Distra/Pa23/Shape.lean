import Distra.Pa23.Traffic

/-!
# The steps between two shapes

`Shape` is the invariant of the control flow. A step that does not take a `DONE` in the loop of
`child_entry` fails nowhere and leads to a shape again (`Shape.step`), and is one of those of
`Shaped`.
-/

namespace Distra.Pa23

open Network

variable {δ : Type} {cfg : BankConfig} {B : BankCode δ}

def typesIn (v : BankView δ) (a b : Nat) : List MessageType := (v.chan a b).map (·.body.type)

def sentTypes (out : BankSends) (b : Nat) : List MessageType := (outTo out b).map (·.body.type)

structure Shape (cfg : BankConfig) (v : BankView δ) (flight : Flight) : Prop where
  role : ∀ p ≤ cfg.numChildren, (v.loc p).pc.Role cfg.numChildren p
  fits : ∀ a ≤ cfg.numChildren, ∀ b ≤ cfg.numChildren, a ≠ b →
    Fits flight a b (v.loc a).pc (v.loc b).pc (typesIn v a b)
  under : flight.Of (v.loc parentId).pc
  sender : ∀ a, flight.sender = some a → (v.loc a).pc ≠ .childSyncStarted
  orders : ∀ a ≤ cfg.numChildren, ∀ b ≤ cfg.numChildren, a ≠ b → ∀ m ∈ v.chan a b, ∀ o o',
    m.body = .transfer o → flight.order = some o' → o = o'
  histories : ∀ fr, (v.loc parentId).pc = .receiveHistories fr →
    (v.loc parentId).allHistory.historyLen = fr

/-- The steps of process `p` that no message surprises, and what becomes of the message under
way. -/
inductive Shaped (cfg : BankConfig) (B : BankCode δ) (p : Nat) (st : Process δ) :
    Flight → Option (Nat × BankMessage) → ProcessNext δ → Flight → Prop
  | childSyncStarted {flight} : p ≠ parentId → st.pc = .childSyncStarted →
      Shaped cfg B p st flight none
        (st.goTo (.awaitAllStarted parentId) (B.childSyncStarted cfg.numChildren p st.data)) flight
  | started {flight fr q t} : st.pc = .awaitAllStarted fr →
      ipcReceiveAllNext cfg.numChildren p fr = some q →
      Shaped cfg B p st flight (some (q, ⟨.started, t⟩))
        (st.goTo (.awaitAllStarted q) (B.ipcExtReceive st.data ⟨.started, t⟩, [])) flight
  | childStarted {flight fr} : p ≠ parentId → st.pc = .awaitAllStarted fr →
      ipcReceiveAllNext cfg.numChildren p fr = none →
      Shaped cfg B p st flight none (st.goTo (.receiveAny 0) (st.data, [])) flight
  | parentStarted {fr} : p = parentId → st.pc = .awaitAllStarted fr →
      ipcReceiveAllNext cfg.numChildren p fr = none →
      Shaped cfg B p st .none none (st.goTo (.bankRobbery cfg.orders) (st.data, [])) .none
  | depart {order orders} : p = parentId → st.pc = .bankRobbery (order :: orders) →
      Shaped cfg B p st .none none (st.goTo (.awaitAck order orders) (B.transfer st.data order))
        (.toSrc order)
  | forward {order t} : p = order.src → st.pc = .receiveAny parentId →
      Shaped cfg B p st (.toSrc order) (some (parentId, ⟨.transfer order, t⟩))
        (st.goTo (.receiveAny 0) (B.childLoop p st.data ⟨.transfer order, t⟩).2) (.toDst order)
  | deliver {order t} : p = order.dst → order.src ≠ p → st.pc = .receiveAny order.src →
      Shaped cfg B p st (.toDst order) (some (order.src, ⟨.transfer order, t⟩))
        (st.goTo (.receiveAny 0) (B.childLoop p st.data ⟨.transfer order, t⟩).2) (.ack order)
  | ack {order orders t} : p = parentId → st.pc = .awaitAck order orders →
      Shaped cfg B p st (.ack order) (some (order.dst, ⟨.ack, t⟩))
        (st.goTo (.bankRobbery orders) (B.transferReceived st.data ⟨.ack, t⟩, [])) .none
  | sendStop : p = parentId → st.pc = .bankRobbery [] →
      Shaped cfg B p st .none none
        (st.goTo (.awaitAllDone parentId) (B.sendStop cfg.numChildren st.data)) .none
  | looked {flight fr} : p ≠ parentId → st.pc = .receiveAny fr →
      Shaped cfg B p st flight none
        (st.goTo (.receiveAny (receiveAnyNext cfg.numChildren p fr)) (st.data, [])) flight
  | stop {t} : p ≠ parentId → st.pc = .receiveAny parentId →
      Shaped cfg B p st .none (some (parentId, ⟨.stop, t⟩))
        (st.goTo .childSyncDone (B.childLoop p st.data ⟨.stop, t⟩).2) .none
  | childSyncDone {flight} : p ≠ parentId → st.pc = .childSyncDone →
      Shaped cfg B p st flight none
        (st.goTo (.awaitAllDone parentId) (B.childSyncDone cfg.numChildren p st.data)) flight
  | done {flight fr q t} : st.pc = .awaitAllDone fr →
      ipcReceiveAllNext cfg.numChildren p fr = some q →
      Shaped cfg B p st flight (some (q, ⟨.done, t⟩))
        (st.goTo (.awaitAllDone q) (B.ipcExtReceive st.data ⟨.done, t⟩, [])) flight
  | childDone {flight fr} : p ≠ parentId → st.pc = .awaitAllDone fr →
      ipcReceiveAllNext cfg.numChildren p fr = none →
      Shaped cfg B p st flight none (st.goTo .exited (B.sendHistory st.data)) flight
  | parentDone {fr} : p = parentId → st.pc = .awaitAllDone fr →
      ipcReceiveAllNext cfg.numChildren p fr = none →
      Shaped cfg B p st .none none
        ({ st with
            pc := .receiveHistories parentId
            allHistory := ⟨0, fun _ => ⟨0, 0, fun _ => ⟨0, 0, 0⟩⟩⟩ }, []) .none
  | history {fr q h t} : p = parentId → st.pc = .receiveHistories fr →
      ipcReceiveAllNext cfg.numChildren p fr = some q →
      Shaped cfg B p st .none (some (q, ⟨.balanceHistory h, t⟩))
        ({ st with
            pc := .receiveHistories q
            data := B.ipcExtReceive st.data ⟨.balanceHistory h, t⟩
            allHistory :=
              { historyLen := q
                history := Function.update st.allHistory.history (q - 1) h } }, []) .none
  | printHistory {fr} : p = parentId → st.pc = .receiveHistories fr →
      ipcReceiveAllNext cfg.numChildren p fr = none →
      Shaped cfg B p st .none none
        ({ st with pc := .exited, printed := some st.allHistory }, []) .none
  | blocked {flight} : Shaped cfg B p st flight none (st, []) flight

section Frame

variable {v : BankView δ} {flight flight' : Flight} {p : Nat} {input : Option (Nat × BankMessage)}
  {next : ProcessNext δ}

theorem typesIn_after (a b : Nat) :
    typesIn ((v.consume p input).become p next) a b =
      typesIn (v.consume p input) a b ++ if a = p then sentTypes next.2 b else [] := by
  rw [typesIn, View.consume_become_chan, List.map_append]
  split <;> rfl

theorem typesIn_consume_ne {a b : Nat} (ne : b ≠ p) :
    typesIn (v.consume p input) a b = typesIn v a b := by
  rw [typesIn, View.consume_chan_ne v input ne]
  rfl

theorem mem_consume {a b : Nat} {m : BankMessage} (mem : m ∈ (v.consume p input).chan a b) :
    m ∈ v.chan a b := by
  cases input with
  | none => exact mem
  | some x =>
    simp only [View.consume, View.pop, Channels.pop] at mem
    split at mem
    next => exact List.mem_of_mem_tail mem
    next => exact mem

/-- The message of a transfer is the one under way. -/
theorem Shape.mem_flight (h : Shape cfg v flight) {a b : Nat} (ha : a ≤ cfg.numChildren)
    (hb : b ≤ cfg.numChildren) (ne : a ≠ b) {m : BankMessage} (mem : m ∈ v.chan a b)
    (type : m.body.type = .transfer ∨ m.body.type = .ack) : m.body.type ∈ flight.types a b := by
  have listed : m.body.type ∈ typesIn v a b := List.mem_map_of_mem mem
  rw [(h.fits a ha b hb ne).eq] at listed
  apply (List.mem_append.mp listed).resolve_left
  intro scripted
  have := List.mem_of_mem_take (List.mem_of_mem_drop scripted)
  rw [script] at this
  split at this
  · rcases type with type | type <;> simp [type] at this
  · split at this <;> rcases type with type | type <;> simp [type] at this

/-- A shape after a step of `p`, pair by pair. -/
theorem Shape.after (h : Shape cfg v flight) (role : next.1.pc.Role cfg.numChildren p)
    (sends : ∀ b ≤ cfg.numChildren, b ≠ p →
      Fits flight' p b next.1.pc (v.loc b).pc (typesIn v p b ++ sentTypes next.2 b))
    (takes : ∀ a ≤ cfg.numChildren, a ≠ p →
      Fits flight' a p (v.loc a).pc next.1.pc (typesIn (v.consume p input) a p))
    (others : ∀ a b, a ≠ p → b ≠ p → flight'.types a b = flight.types a b)
    (under : flight'.Of (if parentId = p then next.1.pc else (v.loc parentId).pc))
    (sender : ∀ a, flight'.sender = some a →
      (if a = p then next.1.pc else (v.loc a).pc) ≠ .childSyncStarted)
    (old : ∀ a ≤ cfg.numChildren, ∀ b ≤ cfg.numChildren, a ≠ b → ∀ m ∈ v.chan a b, ∀ o o',
      m.body = .transfer o → flight'.order = some o' → o = o')
    (new : ∀ x ∈ next.2, ∀ o o', x.2.body = .transfer o → flight'.order = some o' → o = o')
    (histories : parentId = p → ∀ fr, next.1.pc = .receiveHistories fr →
      next.1.allHistory.historyLen = fr) :
    Shape cfg ((v.consume p input).become p next) flight' := by
  have loc (a : Nat) : (((v.consume p input).become p next).loc a).pc =
      if a = p then next.1.pc else (v.loc a).pc := by
    rw [View.consume_become_loc, apply_ite Process.pc]
  refine ⟨fun a ha => ?_, fun a ha b hb ne => ?_, ?_, fun a eq => ?_, ?_, fun fr pc => ?_⟩
  · rw [loc]
    split
    next eq => exact eq ▸ role
    next => exact h.role a ha
  · rw [loc, loc, typesIn_after]
    by_cases own : a = p
    · subst own
      rw [if_pos rfl, if_pos rfl, if_neg ne.symm, typesIn_consume_ne ne.symm]
      exact sends b hb ne.symm
    · rw [if_neg own, if_neg own, List.append_nil]
      by_cases other : b = p
      · subst other
        rw [if_pos rfl]
        exact takes a ha own
      · rw [if_neg other, typesIn_consume_ne other]
        exact (h.fits a ha b hb ne).move rfl rfl (others a b own other)
  · rw [loc]
    exact under
  · rw [loc]
    exact sender a eq
  · intro a ha b hb ne m mem o o' body order
    rw [View.consume_become_chan] at mem
    rcases List.mem_append.mp mem with mem | mem
    · exact old a ha b hb ne m (mem_consume mem) o o' body order
    · split at mem
      next => exact new (b, m) (mem_outTo.mp mem) o o' body order
      next => cases mem
  · rw [loc] at pc
    rw [View.consume_become_loc]
    by_cases parent : parentId = p
    · rw [if_pos parent] at pc ⊢
      exact histories parent fr pc
    · rw [if_neg parent] at pc ⊢
      exact h.histories fr pc

/-- A step that leaves the message under way alone. -/
theorem Shape.same (h : Shape cfg v flight) (role : next.1.pc.Role cfg.numChildren p)
    (sends : ∀ b ≤ cfg.numChildren, b ≠ p →
      Fits flight p b next.1.pc (v.loc b).pc (typesIn v p b ++ sentTypes next.2 b))
    (takes : ∀ a ≤ cfg.numChildren, a ≠ p →
      Fits flight a p (v.loc a).pc next.1.pc (typesIn (v.consume p input) a p))
    (under : parentId = p → flight.Of next.1.pc)
    (later : next.1.pc = .childSyncStarted → (v.loc p).pc = .childSyncStarted)
    (new : ∀ x ∈ next.2, ∀ o, x.2.body ≠ .transfer o)
    (histories : parentId = p → ∀ fr, next.1.pc = .receiveHistories fr →
      next.1.allHistory.historyLen = fr) :
    Shape cfg ((v.consume p input).become p next) flight := by
  refine h.after role sends takes (fun _ _ _ _ => rfl) ?_ ?_ h.orders ?_ histories
  · split
    next parent => exact under parent
    next => exact h.under
  · intro a eq
    split
    next own =>
      intro pc
      exact h.sender a eq (own ▸ later pc)
    next => exact h.sender a eq
  · intro x mem o _ body
    exact absurd body (new x mem o)

theorem typesIn_take {a : Nat} {m : BankMessage} (b : Nat) :
    typesIn (v.consume p (some (a, m))) b p =
      if b = a then (typesIn v a p).tail else typesIn v b p := by
  have chan : (v.consume p (some (a, m))).chan b p = v.chan.pop a p b p := rfl
  rw [typesIn, chan]
  by_cases same : b = a
  · subst same
    rw [if_pos rfl, typesIn, ← List.map_tail, Channels.pop_head]
  · rw [if_neg same, Channels.pop_ne _ (fun h => same h.1)]
    rfl

/-- A step without a message that sends nothing. -/
theorem Shape.neutral (h : Shape cfg v flight) (le : p ≤ cfg.numChildren) (silent : next.2 = [])
    (role : next.1.pc.Role cfg.numChildren p) (sent : next.1.pc.sent p = (v.loc p).pc.sent p)
    (taken : ∀ a ≤ cfg.numChildren, a ≠ p → next.1.pc.taken p a = (v.loc p).pc.taken p a)
    (under : parentId = p → flight.Of next.1.pc)
    (later : next.1.pc = .childSyncStarted → (v.loc p).pc = .childSyncStarted)
    (histories : parentId = p → ∀ fr, next.1.pc = .receiveHistories fr →
      next.1.allHistory.historyLen = fr) :
    Shape cfg ((v.consume p none).become p next) flight := by
  apply h.same role _ _ under later _ histories
  · intro b hb ne
    rw [silent, sentTypes, outTo_nil, List.map_nil, List.append_nil]
    exact (h.fits p le b hb ne.symm).move sent rfl rfl
  · intro a ha ne
    exact (h.fits a ha p le ne).move rfl (taken a ha ne) rfl
  · intro x mem
    rw [silent] at mem
    cases mem

/-- A step without a message that sends the next message to everyone. -/
theorem Shape.emit (h : Shape cfg v flight) (le : p ≤ cfg.numChildren)
    (role : next.1.pc.Role cfg.numChildren p)
    (sends : ∀ b ≤ cfg.numChildren, b ≠ p →
      sentTypes next.2 b = (script p b)[(v.loc p).pc.sent p]?.toList)
    (ready : flight.sender ≠ some p ∧ (p = parentId → flight = .none))
    (sent : next.1.pc.sent p = (v.loc p).pc.sent p + 1)
    (taken : ∀ a ≤ cfg.numChildren, a ≠ p → next.1.pc.taken p a = (v.loc p).pc.taken p a)
    (under : parentId = p → flight.Of next.1.pc)
    (later : next.1.pc = .childSyncStarted → (v.loc p).pc = .childSyncStarted)
    (new : ∀ x ∈ next.2, ∀ o, x.2.body ≠ .transfer o)
    (histories : parentId = p → ∀ fr, next.1.pc ≠ .receiveHistories fr) :
    Shape cfg ((v.consume p none).become p next) flight := by
  apply h.same role _ _ under later new
  · intro parent fr pc
    exact absurd pc (histories parent fr)
  · intro b hb ne
    rw [sends b hb ne]
    apply (h.fits p le b hb ne.symm).emit sent
    cases flight with
    | none => rfl
    | toSrc order =>
      exact if_neg (fun eq => nomatch ready.2 eq.1)
    | toDst order =>
      exact if_neg (fun eq => ready.1 (congrArg some eq.1.symm))
    | ack order =>
      exact if_neg (fun eq => ready.1 (congrArg some eq.1.symm))
  · intro a ha ne
    exact (h.fits a ha p le ne).move rfl (taken a ha ne) rfl

/-- A step that multicasts the next message. -/
theorem Shape.multicast (h : Shape cfg v flight) (le : p ≤ cfg.numChildren) {m : BankMessage}
    (sends : next.2 = sendMulticast cfg.numChildren p m)
    (scripted : ∀ b, (script p b)[(v.loc p).pc.sent p]? = some m.body.type)
    (quiet : m.body.type ≠ .transfer) (role : next.1.pc.Role cfg.numChildren p)
    (ready : flight.sender ≠ some p ∧ (p = parentId → flight = .none))
    (sent : next.1.pc.sent p = (v.loc p).pc.sent p + 1)
    (taken : ∀ a ≤ cfg.numChildren, a ≠ p → next.1.pc.taken p a = (v.loc p).pc.taken p a)
    (under : parentId = p → flight.Of next.1.pc)
    (later : next.1.pc = .childSyncStarted → (v.loc p).pc = .childSyncStarted)
    (histories : parentId = p → ∀ fr, next.1.pc ≠ .receiveHistories fr) :
    Shape cfg ((v.consume p none).become p next) flight := by
  apply h.emit le role _ ready sent taken under later _ histories
  · intro b hb ne
    rw [sends, sentTypes, outTo_sendMulticast hb ne, scripted]
    rfl
  · intro x mem order body
    rw [sends] at mem
    obtain ⟨_, _, rfl⟩ := List.mem_map.mp mem
    exact quiet (congrArg Body.type body)

/-- A step that takes the next message of `q`. -/
theorem Shape.absorb (h : Shape cfg v flight) (le : p ≤ cfg.numChildren) {q : Nat}
    {m : BankMessage} (hq : q ≤ cfg.numChildren) (ne : q ≠ p)
    (head : ∃ rest, v.chan q p = m :: rest) (silent : next.2 = [])
    (waits : (v.loc p).pc.taken p q < (v.loc q).pc.sent q)
    (expected : (script q p)[(v.loc p).pc.taken p q]? = some m.body.type)
    (role : next.1.pc.Role cfg.numChildren p) (sent : next.1.pc.sent p = (v.loc p).pc.sent p)
    (taken : ∀ a ≤ cfg.numChildren, a ≠ p →
      next.1.pc.taken p a = (v.loc p).pc.taken p a + if a = q then 1 else 0)
    (under : parentId = p → flight.Of next.1.pc)
    (later : next.1.pc = .childSyncStarted → (v.loc p).pc = .childSyncStarted)
    (histories : parentId = p → ∀ fr, next.1.pc = .receiveHistories fr →
      next.1.allHistory.historyLen = fr) :
    Shape cfg ((v.consume p (some (q, m))).become p next) flight := by
  apply h.same role _ _ under later _ histories
  · intro b hb ne
    rw [silent, sentTypes, outTo_nil, List.map_nil, List.append_nil]
    exact (h.fits p le b hb ne.symm).move sent rfl rfl
  · intro a ha ne'
    rw [typesIn_take]
    by_cases same : a = q
    · subst same
      obtain ⟨rest, head⟩ := head
      have fits := h.fits a ha p le ne
      rw [typesIn, head, List.map_cons] at fits
      rw [if_pos rfl, typesIn, head, List.map_cons, List.tail_cons]
      apply fits.absorb expected waits
      rw [taken a ha ne, if_pos rfl]
    · rw [if_neg same]
      apply (h.fits a ha p le ne').move rfl _ rfl
      rw [taken a ha ne', if_neg same, Nat.add_zero]
  · intro x mem
    rw [silent] at mem
    cases mem

/-- A step that sends the message of a transfer. -/
theorem Shape.launch (h : Shape cfg v flight) (le : p ≤ cfg.numChildren)
    (role : next.1.pc.Role cfg.numChildren p) (sent : next.1.pc.sent p = (v.loc p).pc.sent p)
    (before : ∀ b, flight.types p b = [])
    (sends : ∀ b ≤ cfg.numChildren, b ≠ p → sentTypes next.2 b = flight'.types p b)
    (takes : ∀ a ≤ cfg.numChildren, a ≠ p →
      Fits flight' a p (v.loc a).pc next.1.pc (typesIn (v.consume p input) a p))
    (others : ∀ a b, a ≠ p → b ≠ p → flight'.types a b = flight.types a b)
    (under : flight'.Of (if parentId = p then next.1.pc else (v.loc parentId).pc))
    (sender : ∀ a, flight'.sender = some a → a = p) (later : next.1.pc ≠ .childSyncStarted)
    (old : ∀ a ≤ cfg.numChildren, ∀ b ≤ cfg.numChildren, a ≠ b → ∀ m ∈ v.chan a b, ∀ o o',
      m.body = .transfer o → flight'.order = some o' → o = o')
    (new : ∀ x ∈ next.2, ∀ o o', x.2.body = .transfer o → flight'.order = some o' → o = o')
    (histories : parentId = p → ∀ fr, next.1.pc ≠ .receiveHistories fr) :
    Shape cfg ((v.consume p input).become p next) flight' := by
  apply h.after role _ takes others under _ old new
  · intro parent fr pc
    exact absurd pc (histories parent fr)
  · intro b hb ne
    rw [sends b hb ne]
    exact (h.fits p le b hb ne.symm).launch sent (before b)
  · intro a eq
    rw [if_pos (sender a eq)]
    exact later

/-- The channels to a process that has taken the message of a transfer. -/
theorem Shape.land (h : Shape cfg v flight) (le : p ≤ cfg.numChildren) {q : Nat}
    {m : BankMessage} {pc : Pc} (hq : q ≤ cfg.numChildren) (ne : q ≠ p)
    (head : ∃ rest, v.chan q p = m :: rest)
    (waits : (v.loc q).pc.sent q ≤ (v.loc p).pc.taken p q)
    (one : flight.types q p = [m.body.type])
    (only : ∀ a ≠ q, flight.types a p = []) (after : ∀ a ≠ p, flight'.types a p = [])
    (taken : ∀ a ≤ cfg.numChildren, a ≠ p → pc.taken p a = (v.loc p).pc.taken p a) :
    ∀ a ≤ cfg.numChildren, a ≠ p →
      Fits flight' a p (v.loc a).pc pc (typesIn (v.consume p (some (q, m))) a p) := by
  intro a ha ne'
  rw [typesIn_take]
  by_cases same : a = q
  · subst same
    obtain ⟨rest, head⟩ := head
    have fits := h.fits a ha p le ne
    rw [typesIn, head, List.map_cons] at fits
    rw [if_pos rfl, typesIn, head, List.map_cons, List.tail_cons]
    exact fits.land waits one (taken a ha ne) (after a ne)
  · rw [if_neg same]
    apply (h.fits a ha p le ne').move rfl (taken a ha ne')
    rw [only a same, after a ne']

end Frame

end Distra.Pa23
