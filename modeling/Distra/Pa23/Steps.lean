import Distra.Pa23.Processes

/-!
# The steps of `pa2` and `pa3`

`bank_move` says once what a step can do: which piece of code runs, with which message, and how it
changes the state. Where a process ends in a panic or a failed assertion, `Fails` names the place.
-/

namespace Distra.Pa23

open Network

variable {δ : Type}

abbrev BankState (δ : Type) := State Nat (Process δ) BankMessage

abbrev BankView (δ : Type) := View Nat (Process δ) BankMessage

/-- A step of process `p` that does not fail. -/
inductive LocalStep (cfg : BankConfig) (B : BankCode δ) (p : Nat) (st : Process δ) :
    Option (Nat × BankMessage) → ProcessNext δ → Prop
  | childSyncStarted : p ≠ parentId → st.pc = .childSyncStarted →
      LocalStep cfg B p st none
        (st.goTo (.awaitAllStarted parentId) (B.childSyncStarted cfg.numChildren p st.data))
  | started {fr q m} : st.pc = .awaitAllStarted fr →
      ipcReceiveAllNext cfg.numChildren p fr = some q → m.body.type = .started →
      LocalStep cfg B p st (some (q, m))
        (st.goTo (.awaitAllStarted q) (B.ipcExtReceive st.data m, []))
  | childStarted {fr} : p ≠ parentId → st.pc = .awaitAllStarted fr →
      ipcReceiveAllNext cfg.numChildren p fr = none →
      LocalStep cfg B p st none (st.goTo (.receiveAny 0) (st.data, []))
  | parentStarted {fr} : p = parentId → st.pc = .awaitAllStarted fr →
      ipcReceiveAllNext cfg.numChildren p fr = none →
      LocalStep cfg B p st none (st.goTo (.bankRobbery cfg.orders) (st.data, []))
  | goesOn {fr m run} : p ≠ parentId → st.pc = .receiveAny fr →
      B.childLoop p st.data m = (.goesOn, run) →
      LocalStep cfg B p st (some (fr, m)) (st.goTo (.receiveAny 0) run)
  | breaks {fr m run} : p ≠ parentId → st.pc = .receiveAny fr →
      B.childLoop p st.data m = (.breaks, run) →
      LocalStep cfg B p st (some (fr, m)) (st.goTo .childSyncDone run)
  | looked {fr} : p ≠ parentId → st.pc = .receiveAny fr →
      LocalStep cfg B p st none
        (st.goTo (.receiveAny (receiveAnyNext cfg.numChildren p fr)) (st.data, []))
  | childSyncDone : p ≠ parentId → st.pc = .childSyncDone →
      LocalStep cfg B p st none
        (st.goTo (.awaitAllDone parentId) (B.childSyncDone cfg.numChildren p st.data))
  | done {fr q m} : st.pc = .awaitAllDone fr →
      ipcReceiveAllNext cfg.numChildren p fr = some q → m.body.type = .done →
      LocalStep cfg B p st (some (q, m)) (st.goTo (.awaitAllDone q) (B.ipcExtReceive st.data m, []))
  | childDone {fr} : p ≠ parentId → st.pc = .awaitAllDone fr →
      ipcReceiveAllNext cfg.numChildren p fr = none →
      LocalStep cfg B p st none (st.goTo .exited (B.sendHistory st.data))
  | parentDone {fr} : p = parentId → st.pc = .awaitAllDone fr →
      ipcReceiveAllNext cfg.numChildren p fr = none →
      LocalStep cfg B p st none
        ({ st with
            pc := .receiveHistories parentId
            allHistory := ⟨0, fun _ => ⟨0, 0, fun _ => ⟨0, 0, 0⟩⟩⟩ }, [])
  | transfer {order orders} : p = parentId → st.pc = .bankRobbery (order :: orders) →
      LocalStep cfg B p st none (st.goTo (.awaitAck order orders) (B.transfer st.data order))
  | ack {order orders m} : p = parentId → st.pc = .awaitAck order orders → m.body.type = .ack →
      LocalStep cfg B p st (some (order.dst, m))
        (st.goTo (.bankRobbery orders) (B.transferReceived st.data m, []))
  | sendStop : p = parentId → st.pc = .bankRobbery [] →
      LocalStep cfg B p st none
        (st.goTo (.awaitAllDone parentId) (B.sendStop cfg.numChildren st.data))
  | history {fr q m h} : p = parentId → st.pc = .receiveHistories fr →
      ipcReceiveAllNext cfg.numChildren p fr = some q → m.body = .balanceHistory h →
      st.allHistory.historyLen = q - 1 →
      LocalStep cfg B p st (some (q, m))
        ({ st with
            pc := .receiveHistories q
            data := B.ipcExtReceive st.data m
            allHistory :=
              { historyLen := succUInt8 st.allHistory.historyLen
                history := Function.update st.allHistory.history (q - 1) h } }, [])
  | printHistory {fr} : p = parentId → st.pc = .receiveHistories fr →
      ipcReceiveAllNext cfg.numChildren p fr = none →
      LocalStep cfg B p st none ({ st with pc := .exited, printed := some st.allHistory }, [])
  /-- A blocking receive that finds nothing. -/
  | blocked : LocalStep cfg B p st none (st, [])

/-- The ways in which a step of process `p` ends it. -/
inductive Fails (cfg : BankConfig) (p : Nat) (st : Process δ) : Nat × BankMessage → Prop
  | started {fr q m} : st.pc = .awaitAllStarted fr →
      ipcReceiveAllNext cfg.numChildren p fr = some q → m.body.type ≠ .started →
      Fails cfg p st (q, m)
  | done {fr q m} : st.pc = .awaitAllDone fr →
      ipcReceiveAllNext cfg.numChildren p fr = some q → m.body.type ≠ .done → Fails cfg p st (q, m)
  | ack {order orders m} : p = parentId → st.pc = .awaitAck order orders → m.body.type ≠ .ack →
      Fails cfg p st (order.dst, m)
  | history {fr q m} : p = parentId → st.pc = .receiveHistories fr →
      ipcReceiveAllNext cfg.numChildren p fr = some q →
      m.body.type ≠ .balanceHistory ∨ st.allHistory.historyLen ≠ q - 1 → Fails cfg p st (q, m)

/-- The message taken, if any, is the head of its channel. -/
def Ready (v : BankView δ) (p : Nat) : Option (Nat × BankMessage) → Prop
  | none => True
  | some (q, m) => ∃ rest, v.chan q p = m :: rest

/-- A failed process only goes to another program point. -/
structure Failed (st : Process δ) (next : ProcessNext δ) : Prop where
  pc : next.1.pc = .panicked ∨ next.1.pc = .aborted
  printed : next.1.printed = st.printed
  silent : next.2 = []

/-- A step of process `p`. -/
def Stepped (cfg : BankConfig) (B : BankCode δ) (p : Nat) (st : Process δ)
    (input : Option (Nat × BankMessage)) (next : ProcessNext δ) : Prop :=
  LocalStep cfg B p st input next ∨ ∃ x, input = some x ∧ Fails cfg p st x ∧ Failed st next

/-- What process `p` can do with a message, or without one. -/
def Can (cfg : BankConfig) (B : BankCode δ) (p : Nat) (st : Process δ) :
    Action Nat (Process δ) BankMessage → Prop
  | .act next => LocalStep cfg B p st none next
  | .receive q onMessage onEmpty =>
    (∀ m, LocalStep cfg B p st (some (q, m)) (onMessage m) ∨
      Fails cfg p st (q, m) ∧ Failed st (onMessage m)) ∧ LocalStep cfg B p st none onEmpty
  | .poll _ _ _ => False
  | .stop => True

section Inversion

variable {cfg : BankConfig} {B : BankCode δ} {p : Nat} {st : Process δ}

/-- `ipc_ext_receive_all` without a callback. -/
theorem can_receiveAll {type : MessageType} {fr : Nat} {pc : Nat → Pc} {next : ProcessNext δ}
    (taken : ∀ q m, ipcReceiveAllNext cfg.numChildren p fr = some q → m.body.type = type →
      LocalStep cfg B p st (some (q, m)) (st.goTo (pc q) (B.ipcExtReceive st.data m, [])))
    (fails : ∀ q m, ipcReceiveAllNext cfg.numChildren p fr = some q → m.body.type ≠ type →
      Fails cfg p st (q, m))
    (last : ipcReceiveAllNext cfg.numChildren p fr = none → LocalStep cfg B p st none next) :
    Can cfg B p st
      (ipcExtReceiveAll cfg.numChildren B p st type fr pc (fun _ _ => some) next) := by
  unfold ipcExtReceiveAll
  split
  next q found =>
    refine ⟨fun m => ?_, .blocked⟩
    beta_reduce
    by_cases expected : m.body.type = type
    · rw [if_pos expected]
      exact .inl (taken q m found expected)
    · rw [if_neg expected]
      exact .inr ⟨fails q m found expected, .inl rfl, rfl, rfl⟩
  next none_ => exact last none_

theorem can_child (child : p ≠ parentId) :
    Can cfg B p st (childEntry cfg.numChildren B p st) := by
  unfold childEntry
  split
  next pc => exact .childSyncStarted child pc
  next fr pc =>
    exact can_receiveAll (fun _ _ => .started pc) (fun _ _ => .started pc) (.childStarted child pc)
  next fr pc =>
    refine ⟨fun m => .inl ?_, .looked child pc⟩
    beta_reduce
    split
    next run body => exact .goesOn child pc body
    next run body => exact .breaks child pc body
  next pc => exact .childSyncDone child pc
  next fr pc =>
    exact can_receiveAll (fun _ _ => .done pc) (fun _ _ => .done pc) (.childDone child pc)
  next => trivial

theorem can_parent (parent : p = parentId) :
    Can cfg B p st (parentEntry cfg.numChildren B cfg.orders st) := by
  subst parent
  unfold parentEntry
  split
  next fr pc =>
    exact can_receiveAll (fun _ _ => .started pc) (fun _ _ => .started pc) (.parentStarted rfl pc)
  next order orders pc => exact .transfer rfl pc
  next pc => exact .sendStop rfl pc
  next order orders pc =>
    refine ⟨fun m => ?_, .blocked⟩
    beta_reduce
    by_cases expected : m.body.type = .ack
    · rw [if_pos expected]
      exact .inl (.ack rfl pc expected)
    · rw [if_neg expected]
      exact .inr ⟨.ack rfl pc expected, .inr rfl, rfl, rfl⟩
  next fr pc =>
    exact can_receiveAll (fun _ _ => .done pc) (fun _ _ => .done pc) (.parentDone rfl pc)
  next fr pc =>
    unfold ipcExtReceiveAll
    split
    next q found =>
      refine ⟨fun m => ?_, .blocked⟩
      beta_reduce
      by_cases expected : m.body.type = .balanceHistory
      · obtain ⟨body, time⟩ := m
        cases body <;> cases expected
        simp only [Body.type, if_true, parentFillHistoryCallback]
        by_cases len : st.allHistory.historyLen = q - 1
        · rw [if_pos len]
          exact .inl (.history rfl pc found rfl len)
        · rw [if_neg len]
          exact .inr ⟨.history rfl pc found (.inr len), .inr rfl, rfl, rfl⟩
      · rw [if_neg expected]
        exact .inr ⟨.history rfl pc found (.inl expected), .inl rfl, rfl, rfl⟩
    next none_ => exact .printHistory rfl pc none_
  next => trivial

theorem can_start (le : p ≤ cfg.numChildren) : Can cfg B p st (start cfg B p st) := by
  by_cases parent : p = parentId
  · rw [start, if_pos parent]
    exact can_parent parent
  · rw [start, if_neg parent, if_pos le]
    exact can_child parent

end Inversion

theorem bank_move {cfg : BankConfig} {B : BankCode δ} {v v' : BankView δ}
    {e : Event Nat BankMessage} (h : Move (start cfg B) v e v') :
    e.actor ≤ cfg.numChildren ∧ Ready v e.actor e.input ∧
      ∃ next, v' = (v.consume e.actor e.input).become e.actor next ∧
        Stepped cfg B e.actor (v.loc e.actor) e.input next := by
  have actor {p : Nat} {a : Action Nat (Process δ) BankMessage} (code : start cfg B p (v.loc p) = a)
      (running : a ≠ .stop) : p ≤ cfg.numChildren := by
    by_contra out
    have : p ≠ parentId := by
      rintro rfl
      exact out (Nat.zero_le _)
    rw [start, if_neg this, if_neg out] at code
    exact running code.symm
  cases h with
  | @act p next code =>
    have le := actor code (by simp)
    have can : Can cfg B p (v.loc p) (.act next) := code ▸ can_start le
    exact ⟨le, trivial, next, rfl, .inl can⟩
  | @poll p q m rest sources onMessage onEmpty code =>
    have le := actor code (by simp)
    have can : Can cfg B p (v.loc p) (.poll sources onMessage onEmpty) := code ▸ can_start le
    exact can.elim
  | @pollEmpty p sources onMessage onEmpty code =>
    have le := actor code (by simp)
    have can : Can cfg B p (v.loc p) (.poll sources onMessage onEmpty) := code ▸ can_start le
    exact can.elim
  | @receive p q m rest onMessage onEmpty code head =>
    have le := actor code (by simp)
    have can : Can cfg B p (v.loc p) (.receive q onMessage onEmpty) := code ▸ can_start le
    refine ⟨le, ⟨rest, head⟩, onMessage m, rfl, (can.1 m).imp id ?_⟩
    exact fun ⟨fails, failed⟩ => ⟨(q, m), rfl, fails, failed⟩
  | @receiveEmpty p q onMessage onEmpty code =>
    have le := actor code (by simp)
    have can : Can cfg B p (v.loc p) (.receive q onMessage onEmpty) := code ▸ can_start le
    exact ⟨le, trivial, onEmpty, rfl, .inl can.2⟩

end Distra.Pa23
