import Distra.Pa23.Statements
import Distra.Pa3.Ledger

/-!
# The history of one child of `pa3`

Whatever messages a child takes, its history is the statement of its account: entry `t` holds the
balance after the `TRANSFER`s received by `t`, and what has been sent is pending at the tick of the
receipt and the one after it.
-/

namespace Distra.Pa3

open Pa23 Accounts

/-! ## The `TRANSFER`s that a child takes -/

/-- The clock after a message in the loop. -/
def afterMessage (lamportTime : Nat) (m : BankMessage) : Nat :=
  let recvT := synchronizeTime m.localTime lamportTime
  match m.body with
  | .transfer _ => advanceLamportTime recvT
  | _ => recvT

/-- They are posted at the clock right after `synchronize_time`. -/
def postings (lamportTime : Nat) (messages : List BankMessage) : List (Posting Nat Balance) :=
  Pa23.postings (fun time m => synchronizeTime m.localTime time) afterMessage lamportTime messages

section Postings

variable {time : Nat} {messages : List BankMessage} {m : BankMessage}

theorem postings_transfer (time t : Nat) (order : TransferOrder) (rest : List BankMessage) :
    postings time (⟨.transfer order, t⟩ :: rest) =
      ⟨synchronizeTime t time, toTransfer order⟩ ::
        postings (synchronizeTime t time + 1) rest := rfl

theorem postings_other (other : m.body.type ≠ .transfer) (time : Nat) (rest : List BankMessage) :
    postings time (m :: rest) = postings (synchronizeTime m.localTime time) rest := by
  obtain ⟨body, t⟩ := m
  cases body with
  | transfer => exact absurd rfl other
  | _ => rfl

theorem le_afterMessage (time : Nat) (m : BankMessage) :
    synchronizeTime m.localTime time ≤ afterMessage time m := by
  rw [afterMessage]
  split
  · exact (lt_advanceLamportTime _).le
  · exact le_rfl

theorem lt_afterMessage (time : Nat) (m : BankMessage) : time < afterMessage time m :=
  (lt_synchronizeTime m.localTime time).trans_le (le_afterMessage time m)

theorem childLoop_lamportTime (c : Nat) (l : Locals) (m : BankMessage) :
    (childLoop c l m).2.1.lamportTime = afterMessage l.lamportTime m := by
  obtain ⟨body, t⟩ := m
  cases body with
  | transfer order =>
    simp only [childLoop, childReacts, afterMessage]
    split_ifs <;> rfl
  | _ => rfl

theorem lt_of_posting {p : Posting Nat Balance} (mem : p ∈ postings time messages) :
    time < p.time :=
  le_of_posting (· + 1) (fun time m => lt_synchronizeTime m.localTime time)
    (fun time m => (lt_afterMessage time m).trans (Nat.lt_succ_self _)) mem

/-- A transfer takes two ticks. -/
theorem spaced_postings (a time : Nat) (messages : List BankMessage) :
    Spaced 1 a (postings time messages) := by
  induction messages generalizing time with
  | nil => exact .nil
  | cons m rest ih =>
    obtain ⟨body, t⟩ := m
    by_cases transfer : body.type = .transfer
    · cases body with
      | transfer order =>
        rw [postings_transfer, spaced_cons]
        exact ⟨fun q mem _ => lt_of_posting mem, ih _⟩
      | _ => cases transfer
    · rw [postings_other transfer]
      exact ih _

end Postings

/-! ## The statement of the account -/

/-- What child `self` has at tick `t`, with `balance` before the postings. -/
def statement (self : Nat) (balance : Balance) (posted : List (Posting Nat Balance)) :
    Nat → BalanceState :=
  Pa23.statement self balance posted (inTransit 1 self posted)

section Statement

variable {self t : Nat} {balance : Balance} {p : Posting Nat Balance}
  {posted : List (Posting Nat Balance)}

theorem statement_of_lt (later : ∀ p ∈ posted, t < p.time) :
    statement self balance posted t = ⟨balance, t, 0⟩ := by
  rw [statement, Pa23.statement, balanceAt_of_lt later, inTransit_of_lt later]

/-- While an amount that has been sent is pending. -/
theorem statement_pending (valid : p.transfer.src ≠ p.transfer.dst) (src : p.transfer.src = self)
    (le : p.time ≤ t) (lt : t ≤ p.time + 1) (later : ∀ q ∈ posted, t < q.time) :
    statement self balance (p :: posted) t =
      ⟨balance - p.transfer.amount, t, p.transfer.amount⟩ := by
  rw [statement, Pa23.statement, balanceAt_cons_of_le valid le, balanceAt_of_lt later,
    Transfer.settle, if_pos src.symm, inTransit, if_pos ⟨src, le, lt⟩]

theorem statement_settled (valid : p.transfer.src ≠ p.transfer.dst)
    (le : p.time ≤ t) (booked : p.transfer.src = self → p.time + 1 < t) :
    statement self balance (p :: posted) t =
      statement self (p.transfer.settle self balance) posted t := by
  rw [statement, Pa23.statement, balanceAt_cons_of_le valid le, inTransit, if_neg]
  · rfl
  rintro ⟨src, -, within⟩
  have := booked src
  omega

end Statement

/-- The history agrees with `ledger` as far as it goes, and so does the balance with what is still
to be posted. -/
structure Filing (ledger : Nat → BalanceState) (c : Nat) (l : Locals)
    (posted : List (Posting Nat Balance)) : Prop where
  id : l.history.id = c
  filed : Filed ledger (statement c l.balance posted) l.history
  len : l.history.historyLen ≤ l.lamportTime + 1

section Filing

variable {ledger : Nat → BalanceState} {c : Nat} {l l' : Locals}
  {posted : List (Posting Nat Balance)}

/-- The missing entries are filled in before the next posting. -/
theorem Filing.fill (h : Filing ledger c l posted) {recvT : Nat} (after : l.lamportTime < recvT)
    (small : recvT ≤ maxT) (later : ∀ p ∈ posted, recvT ≤ p.time) :
    (fillHistory l.history l.balance recvT).id = c ∧
      Filed ledger (statement c l.balance posted) (fillHistory l.history l.balance recvT) ∧
      (fillHistory l.history l.balance recvT).historyLen = recvT := by
  have le : l.history.historyLen ≤ recvT := h.len.trans after
  refine ⟨(fillHistory_spec l.history l.balance le small).1.trans h.id, h.filed.fill _ le small ?_⟩
  exact fun t lt => statement_of_lt fun p mem => lt.trans_le (later p mem)

/-- What has been posted is settled from the next entry on. -/
theorem Filed.settle {p : Posting Nat Balance} {history : BalanceHistory} {balance : Balance}
    (h : Filed ledger (statement c balance (p :: posted)) history)
    (valid : p.transfer.src ≠ p.transfer.dst) (le : p.time ≤ history.historyLen)
    (booked : p.transfer.src = c → p.time + 1 < history.historyLen) :
    Filed ledger (statement c (p.transfer.settle c balance) posted) history :=
  h.congr fun _ past =>
    statement_settled valid (le.trans past) fun src => (booked src).trans_le past

/-- A message that is no `TRANSFER`. -/
theorem childLoop_other {m : BankMessage} (noStop : m.body.type ≠ .stop)
    (noTransfer : m.body.type ≠ .transfer) {recvT : Nat}
    (recv : synchronizeTime m.localTime l.lamportTime = recvT) :
    childLoop c l m =
      (.goesOn,
        { l with
          lamportTime := recvT
          bufTime := m.localTime
          history := fillHistory l.history l.balance recvT },
        []) := by
  subst recv
  obtain ⟨body, t⟩ := m
  cases body with
  | stop => exact absurd rfl noStop
  | transfer => exact absurd rfl noTransfer
  | _ => rfl

/-- A `TRANSFER` in which the child has no part. -/
theorem childLoop_apart {order : TransferOrder} {t recvT : Nat}
    (recv : synchronizeTime t l.lamportTime = recvT) (src : order.src ≠ c) (dst : order.dst ≠ c) :
    childLoop c l ⟨.transfer order, t⟩ =
      (.goesOn,
        { l with
          lamportTime := recvT + 1
          bufTime := recvT + 1
          history := fillHistory l.history l.balance recvT },
        []) := by
  subst recv
  simp only [childLoop, childReacts, childReceived, if_neg src, if_neg dst, advanceLamportTime]

/-- A `TRANSFER` in the loop. -/
theorem Filing.transfer {order : TransferOrder} {t recvT : Nat}
    (recv : synchronizeTime t l.lamportTime = recvT)
    (h : Filing ledger c l (⟨recvT, toTransfer order⟩ :: posted))
    (later : ∀ p ∈ posted, recvT + 1 < p.time) (valid : order.src ≠ order.dst)
    (small : recvT + 1 < maxT) :
    Filing ledger c (childLoop c l ⟨.transfer order, t⟩).2.1 posted := by
  have after : l.lamportTime < recvT := recv ▸ lt_synchronizeTime t l.lamportTime
  obtain ⟨id, filled, len⟩ := h.fill after (by omega) fun p mem => by
    rcases List.mem_cons.mp mem with rfl | mem
    · exact le_rfl
    · have := later p mem
      omega
  by_cases src : order.src = c
  · have pending (t : Nat) (le : recvT ≤ t) (lt : t ≤ recvT + 1) :
        statement c l.balance (⟨recvT, toTransfer order⟩ :: posted) t =
          ⟨l.balance - order.amount, t, order.amount⟩ :=
      statement_pending valid src le lt fun q mem => lt.trans_lt (later q mem)
    obtain ⟨first, len₁⟩ := filled.record ⟨l.balance - order.amount, recvT, order.amount⟩ len.symm
      (by omega) (pending _ le_rfl (Nat.le_succ _))
    rw [len] at len₁
    obtain ⟨second, len₂⟩ := first.record ⟨l.balance - order.amount, recvT + 1, order.amount⟩
      len₁.symm (by omega) (pending _ (Nat.le_succ _) le_rfl)
    rw [len₁] at len₂
    have settled := Filed.settle second valid (by rw [len₂]; exact Nat.le_add_right _ 2)
      fun _ => by rw [len₂]; exact Nat.lt_succ_self _
    rw [settle_src src] at settled
    rw [childLoop_src recv src]
    exact ⟨id, settled, len₂.le⟩
  · have settled := Filed.settle filled valid len.ge fun own => absurd own src
    by_cases dst : order.dst = c
    · rw [settle_dst src dst] at settled
      rw [childLoop_dst recv src dst]
      exact ⟨id, settled, len.le.trans (Nat.le_add_right _ 2)⟩
    · have apart : (toTransfer order).settle c l.balance = l.balance :=
        (if_neg (Ne.symm src)).trans (if_neg (Ne.symm dst))
      rw [apart] at settled
      rw [childLoop_apart recv src dst]
      exact ⟨id, settled, len.le.trans (Nat.le_add_right _ 2)⟩

/-- A message that is no `TRANSFER` only lets the history grow. -/
theorem Filing.other (h : Filing ledger c l posted) {recvT bufTime : Nat}
    (after : l.lamportTime < recvT) (small : recvT ≤ maxT)
    (later : ∀ p ∈ posted, recvT ≤ p.time) :
    Filing ledger c ⟨recvT, bufTime, l.balance, fillHistory l.history l.balance recvT⟩ posted := by
  obtain ⟨id, filled, len⟩ := h.fill after small later
  exact ⟨id, filled, len.le.trans (Nat.le_succ _)⟩

/-- One message in the loop. The history is followed for as long as the clock is within its
bound. -/
theorem Filing.step {m : BankMessage} {rest : List BankMessage}
    (h : l.lamportTime < maxT → Filing ledger c l (postings l.lamportTime (m :: rest)))
    (noStop : m.body.type ≠ .stop)
    (valid : ∀ order, m.body = .transfer order → order.src ≠ order.dst) :
    ∃ l' out, childLoop c l m = (.goesOn, l', out) ∧
      (l'.lamportTime < maxT → Filing ledger c l' (postings l'.lamportTime rest)) := by
  have after := lt_synchronizeTime m.localTime l.lamportTime
  by_cases transfer : m.body.type = .transfer
  · obtain ⟨body, t⟩ := m
    cases body with
    | transfer order =>
      have after : l.lamportTime < synchronizeTime t l.lamportTime := after
      have goesOn : (childLoop c l ⟨.transfer order, t⟩).1 = .goesOn := by
        by_cases src : order.src = c
        · rw [childLoop_src rfl src]
        · by_cases dst : order.dst = c
          · rw [childLoop_dst rfl src dst]
          · rw [childLoop_apart rfl src dst]
      have clock : (childLoop c l ⟨.transfer order, t⟩).2.1.lamportTime =
          synchronizeTime t l.lamportTime + 1 := childLoop_lamportTime c l _
      refine ⟨_, _, Prod.ext goesOn rfl, fun small => ?_⟩
      rw [clock] at small ⊢
      have filing := h (by omega)
      rw [postings_transfer] at filing
      exact filing.transfer rfl (fun p mem => lt_of_posting mem) (valid order rfl) small
    | _ => cases transfer
  · refine ⟨_, _, childLoop_other noStop transfer rfl, fun small => ?_⟩
    have filing := h (after.trans small)
    rw [postings_other transfer] at filing
    exact filing.other after small.le fun p mem => (lt_of_posting mem).le

/-- The loop up to the `STOP`. -/
theorem Filing.loops {messages : List BankMessage}
    (h : l.lamportTime < maxT → Filing ledger c l (postings l.lamportTime messages))
    (noStop : ∀ m ∈ messages, m.body.type ≠ .stop)
    (valid : ∀ m ∈ messages, ∀ order, m.body = .transfer order → order.src ≠ order.dst) :
    ∃ l', childLoops bank c l messages = some (.goesOn, l') ∧
      (l'.lamportTime < maxT → Filing ledger c l' []) :=
  childLoops_invariant (B := bank)
    (I := fun l rest => l.lamportTime < maxT → Filing ledger c l (postings l.lamportTime rest))
    (K := fun m => m.body.type ≠ .stop ∧
      ∀ order, m.body = .transfer order → order.src ≠ order.dst)
    (fun _ _ _ h each => Filing.step h each.1 each.2) h fun m mem => ⟨noStop m mem, valid m mem⟩

/-- The last message of the loop. -/
theorem Filing.stop {t : Nat} (h : l.lamportTime < maxT → Filing ledger c l []) :
    ∃ l', bank.childLoop c l ⟨.stop, t⟩ = (.breaks, l', []) ∧
      (l'.lamportTime ≤ maxT → Filing ledger c l' []) := by
  have after := lt_synchronizeTime t l.lamportTime
  exact ⟨_, childLoop_stop (c := c) rfl,
    fun small => (h (after.trans_le small)).other after small nofun⟩

/-- Time goes by. -/
theorem Filing.wait (h : Filing ledger c l posted) (history : l'.history = l.history)
    (balance : l'.balance = l.balance) (clock : l.lamportTime ≤ l'.lamportTime) :
    Filing ledger c l' posted := by
  obtain ⟨id, filed, len⟩ := h
  rw [← history] at id filed len
  rw [← balance] at filed
  exact ⟨id, filed, len.trans (Nat.succ_le_succ clock)⟩

end Filing

/-! ## The barriers -/

/-- A barrier leaves the account alone. -/
theorem foldl_ipcExtReceive (messages : List BankMessage) (l : Locals) :
    (messages.foldl ipcExtReceive l).history = l.history ∧
      (messages.foldl ipcExtReceive l).balance = l.balance ∧
      l.lamportTime ≤ (messages.foldl ipcExtReceive l).lamportTime := by
  refine List.foldlRecOn (motive := fun l' => l'.history = l.history ∧ l'.balance = l.balance ∧
    l.lamportTime ≤ l'.lamportTime) messages ipcExtReceive ⟨rfl, rfl, le_rfl⟩ ?_
  rintro l' ⟨history, balance, clock⟩ m -
  exact ⟨history, balance, clock.trans (lt_synchronizeTime _ _).le⟩

theorem le_afterLoop (c n : Nat) (l : Locals) (dones : List BankMessage) :
    l.lamportTime ≤ (afterLoop bank c n l dones).lamportTime :=
  (Nat.le_succ _).trans (foldl_ipcExtReceive dones (childSyncDone n c l).1).2.2

theorem Filing.afterLoop {ledger : Nat → BalanceState} {c n : Nat} {l : Locals}
    {dones : List BankMessage} (h : l.lamportTime ≤ maxT → Filing ledger c l [])
    (small : (afterLoop bank c n l dones).lamportTime ≤ maxT) :
    Filing ledger c (afterLoop bank c n l dones) [] := by
  obtain ⟨history, balance, -⟩ := foldl_ipcExtReceive dones (childSyncDone n c l).1
  have clock := le_afterLoop c n l dones
  exact (h (clock.trans small)).wait history balance clock

/-- The account is right before the loop. -/
theorem filing_beforeLoop (n c : Nat) (balance : Balance) (started messages : List BankMessage) :
    Filing
      (statement c balance
        (postings (beforeLoop bank c n (initialLocals c balance) started).lamportTime messages))
      c (beforeLoop bank c n (initialLocals c balance) started)
      (postings (beforeLoop bank c n (initialLocals c balance) started).lamportTime messages) := by
  obtain ⟨history, balance', clock⟩ :=
    foldl_ipcExtReceive started (childSyncStarted n c (initialLocals c balance)).1
  have history : (beforeLoop bank c n (initialLocals c balance) started).history =
      initialHistory c balance := history
  have balance' : (beforeLoop bank c n (initialLocals c balance) started).balance = balance :=
    balance'
  refine ⟨?_, ⟨?_, ?_⟩, ?_⟩
  · rw [history]
    rfl
  · rw [history]
    intro t lt
    obtain rfl : t = 0 := Nat.lt_one_iff.mp lt
    exact (statement_of_lt fun p mem => Nat.zero_lt_of_lt (lt_of_posting mem)).symm
  · rw [balance']
    exact fun t _ => rfl
  · rw [history]
    exact Nat.le_add_left 1 _

/-! ## Every sequence of messages -/

/-- A history with one entry for every tick before `last`. -/
structure Exact (c : Nat) (start : Balance) (posted : List (Posting Nat Balance))
    (history : BalanceHistory) (last : Nat) : Prop extends Records c start posted history last where
  id : history.id = c
  pending : ∀ t < last, ∀ p ∈ posted, p.transfer.src = c → t = p.time ∨ t = p.time + 1 →
    (history.history t).balancePendingIn = p.transfer.amount
  quiet : ∀ t < last, (∀ p ∈ posted, p.transfer.src = c → ¬(t = p.time ∨ t = p.time + 1)) →
    (history.history t).balancePendingIn = 0

theorem exact_of_follows {c clock last : Nat} {balance : Balance} {messages : List BankMessage}
    {history : BalanceHistory} (id : history.id = c) (len : history.historyLen = last)
    (follows : Follows (statement c balance (postings clock messages)) history) :
    Exact c balance (postings clock messages) history last := by
  subst len
  refine ⟨records_of_follows follows, id, fun t lt p mem src within => ?_, fun t lt outside => ?_⟩
  · rw [follows t lt]
    exact inTransit_eq_amount (spaced_postings c clock messages) mem src (by omega) (by omega)
  · rw [follows t lt]
    refine inTransit_eq_zero fun p mem src within => outside p mem src ?_
    omega

/-- Whatever the child takes, its history is that of its account, up to the clock right before the
last advance. -/
theorem child_history_exact (n c : Nat) (balance : Balance)
    (started messages dones : List BankMessage) (stopTime : Nat)
    (noStop : ∀ m ∈ messages, m.body.type ≠ .stop)
    (valid : ∀ m ∈ messages, ∀ order, m.body = .transfer order → order.src ≠ order.dst) :
    ∃ l history last,
      runChild bank c n (initialLocals c balance) started (messages ++ [⟨.stop, stopTime⟩]) dones =
        some (l, [(parentId, ⟨.balanceHistory history, l.lamportTime⟩)]) ∧
      l.lamportTime = advanceLamportTime last ∧
      (l.lamportTime ≤ maxT →
        Exact c balance
          (postings (beforeLoop bank c n (initialLocals c balance) started).lamportTime messages)
          history last) := by
  obtain ⟨l₁, loops, filing⟩ :=
    Filing.loops (fun _ => filing_beforeLoop n c balance started messages) noStop valid
  obtain ⟨l₂, stop, filing⟩ := Filing.stop filing
  rw [runChild, childLoops_snoc loops stop]
  refine ⟨_, _, _, rfl, rfl, fun small => ?_⟩
  have after := lt_synchronizeTime (afterLoop bank c n l₂ dones).bufTime
    (afterLoop bank c n l₂ dones).lamportTime
  have small := (Nat.le_succ _).trans small
  have filing := Filing.afterLoop filing (after.le.trans small)
  obtain ⟨id, filed, len⟩ := filing.fill after small (by simp)
  exact exact_of_follows id len filed.follows

end Distra.Pa3
