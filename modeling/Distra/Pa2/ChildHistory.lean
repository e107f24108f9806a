import Distra.Pa2.Processes
import Distra.Pa23.Statements

/-!
# The history of one child of `pa2`

The physical times at which a child takes its messages do not decrease, and its history has an
entry for every tick up to the `STOP`. It is right, but for three things: entry 0 is never written
again, a `STOP` at tick 0 is counted as entry 1, and 256 entries are too many for a `uint8_t`.
-/

namespace Distra.Pa2

open Pa23 Accounts

/-- The `TRANSFER`s that child `c` takes, with the physical times of their receipts. -/
def postings (physical : Physical) (c call : Nat) (messages : List BankMessage) :
    List (Posting Nat Balance) :=
  Pa23.postings (fun call _ => physical.getPhysicalTime c call) (fun call _ => call + 1) call
    messages

/-- What child `c` has at tick `t`, with `balance` before the postings. -/
def statement (c : Nat) (balance : Balance) (posted : List (Posting Nat Balance)) :
    Nat → BalanceState :=
  Pa23.statement c balance posted fun _ => 0

/-- Entry 0 is that of the first balance, and stays it. -/
def filed (c : Nat) (balance : Balance) (posted : List (Posting Nat Balance)) (t : Nat) :
    BalanceState :=
  if t = 0 then ⟨balance, 0, 0⟩ else statement c balance posted t

theorem postings_transfer (physical : Physical) (c call t : Nat) (order : TransferOrder)
    (rest : List BankMessage) :
    postings physical c call (⟨.transfer order, t⟩ :: rest) =
      ⟨physical.getPhysicalTime c call, ⟨order.src, order.dst, order.amount⟩⟩ ::
        postings physical c (call + 1) rest := rfl

theorem postings_other {physical : Physical} {c call : Nat} {m : BankMessage}
    {rest : List BankMessage} (other : m.body.type ≠ .transfer) :
    postings physical c call (m :: rest) = postings physical c (call + 1) rest :=
  Pa23.postings_other other

theorem le_of_posting {physical : Physical} {c call : Nat} {messages : List BankMessage}
    (steady : Monotone (physical.getPhysicalTime c)) {p : Posting Nat Balance}
    (mem : p ∈ postings physical c call messages) : physical.getPhysicalTime c call ≤ p.time :=
  Pa23.le_of_posting (physical.getPhysicalTime c) (fun _ _ => le_rfl)
    (fun call _ => steady (Nat.le_succ call)) mem

/-- The history agrees with `ledger` as far as it goes, and so does the balance with what is still
to be posted. -/
structure Filing (physical : Physical) (c : Nat) (ledger : Nat → BalanceState) (l : Locals)
    (messages : List BankMessage) : Prop where
  filed : Filed ledger (statement c l.balance (postings physical c l.calls messages)) l.history
  pos : 1 ≤ l.history.historyLen
  len : l.history.historyLen ≤ max 1 (physical.getPhysicalTime c l.calls)

section Filing

variable {physical : Physical} {c recvT : Nat} {ledger : Nat → BalanceState} {l : Locals}
  {m : BankMessage} {messages rest : List BankMessage}

/-- The missing entries are filled in, unless this is tick 0. -/
theorem Filing.fill (h : Filing physical c ledger l messages)
    (steady : Monotone (physical.getPhysicalTime c))
    (recv : physical.getPhysicalTime c l.calls = recvT) (small : recvT ≤ maxT) :
    Filed ledger (statement c l.balance (postings physical c l.calls messages))
        (fillHistory l.history l.balance recvT) ∧
      (fillHistory l.history l.balance recvT).historyLen = max 1 recvT := by
  have pos := h.pos
  have len := h.len
  rw [recv] at len
  by_cases le : l.history.historyLen ≤ recvT
  · rw [max_eq_right (pos.trans le)]
    refine h.filed.fill l.balance le small fun t lt => ?_
    rw [statement, Pa23.statement, balanceAt_of_lt]
    exact fun p mem => (lt.trans_eq recv.symm).trans_le (le_of_posting steady mem)
  · have none_ : recvT - l.history.historyLen = 0 := Nat.sub_eq_zero_of_le (by omega)
    have same : fillHistory l.history l.balance recvT = l.history := by
      rw [fillHistory, none_]
      rfl
    rw [same]
    exact ⟨h.filed, by omega⟩

/-- After a message in the loop. -/
theorem Filing.next (h : Filing physical c ledger l messages)
    (steady : Monotone (physical.getPhysicalTime c))
    (recv : physical.getPhysicalTime c l.calls = recvT) (small : recvT ≤ maxT) (bufTime : Nat)
    {balance : Balance}
    (settled : ∀ t, recvT ≤ t → statement c l.balance (postings physical c l.calls messages) t =
      statement c balance (postings physical c (l.calls + 1) rest) t) :
    Filing physical c ledger
      { l with
        calls := l.calls + 1
        bufTime := bufTime
        balance := balance
        history := fillHistory l.history l.balance recvT } rest := by
  obtain ⟨filed, len⟩ := h.fill steady recv small
  refine ⟨filed.congr fun t past => settled t ?_, len.symm ▸ le_max_left _ _, ?_⟩
  · rw [len] at past
    exact (le_max_right _ _).trans past
  · rw [len]
    exact max_le_max_left 1 (recv.symm.le.trans (steady (Nat.le_succ _)))

/-- A message in the loop, with the balance after it. -/
theorem childLoop_goesOn (noStop : m.body.type ≠ .stop)
    (recv : physical.getPhysicalTime c l.calls = recvT) :
    ∃ l' out balance, childLoop physical c l m = (.goesOn, l', out) ∧
      l' = { l with
        calls := l.calls + 1
        bufTime := m.localTime
        balance := balance
        history := fillHistory l.history l.balance recvT } ∧
      (m.body.type ≠ .transfer → balance = l.balance) ∧
      ∀ order, m.body = .transfer order →
        balance = Transfer.settle ⟨order.src, order.dst, order.amount⟩ c l.balance := by
  subst recv
  obtain ⟨body, t⟩ := m
  cases body with
  | stop => exact absurd rfl noStop
  | transfer order =>
    by_cases src : order.src = c
    · refine ⟨_, _, _, if_pos src, rfl, fun other => absurd rfl other, ?_⟩
      rintro _ ⟨⟩
      exact (if_pos src.symm).symm
    · by_cases dst : order.dst = c
      · refine ⟨_, _, _, (if_neg src).trans (if_pos dst), rfl, fun other => absurd rfl other, ?_⟩
        rintro _ ⟨⟩
        exact ((if_neg (Ne.symm src)).trans (if_pos dst.symm)).symm
      · refine ⟨_, _, _, (if_neg src).trans (if_neg dst), rfl, fun _ => rfl, ?_⟩
        rintro _ ⟨⟩
        exact ((if_neg (Ne.symm src)).trans (if_neg (Ne.symm dst))).symm
  | _ => exact ⟨_, _, _, rfl, rfl, fun _ => rfl, nofun⟩

/-- One message in the loop. -/
theorem Filing.step (h : Filing physical c ledger l (m :: rest))
    (steady : Monotone (physical.getPhysicalTime c))
    (small : physical.getPhysicalTime c l.calls ≤ maxT) (noStop : m.body.type ≠ .stop)
    (valid : ∀ order, m.body = .transfer order → order.src ≠ order.dst) :
    ∃ l' out, childLoop physical c l m = (.goesOn, l', out) ∧ l'.calls = l.calls + 1 ∧
      Filing physical c ledger l' rest := by
  obtain ⟨_, out, balance, loop, rfl, other, order⟩ := childLoop_goesOn noStop rfl
  refine ⟨_, out, loop, rfl, h.next steady rfl small m.localTime fun t le => ?_⟩
  by_cases transfer : m.body.type = .transfer
  · obtain ⟨body, bufTime⟩ := m
    cases body with
    | transfer order' =>
      rw [order order' rfl, postings_transfer, statement, Pa23.statement,
        balanceAt_cons_of_le (valid order' rfl) le]
      rfl
    | _ => cases transfer
  · rw [postings_other transfer, other transfer]

/-- The loop up to the `STOP`. -/
theorem Filing.loops (h : Filing physical c ledger l messages)
    (steady : Monotone (physical.getPhysicalTime c))
    (small : ∀ call, physical.getPhysicalTime c call ≤ maxT)
    (noStop : ∀ m ∈ messages, m.body.type ≠ .stop)
    (valid : ∀ m ∈ messages, ∀ order, m.body = .transfer order → order.src ≠ order.dst) :
    ∃ l', childLoops (bank physical) c l messages = some (.goesOn, l') ∧
      l'.calls = l.calls + messages.length ∧ Filing physical c ledger l' [] := by
  obtain ⟨l', run, calls, filing⟩ := childLoops_invariant (B := bank physical)
    (I := fun l' rest => l'.calls + rest.length = l.calls + messages.length ∧
      Filing physical c ledger l' rest)
    (K := fun m => m.body.type ≠ .stop ∧
      ∀ order, m.body = .transfer order → order.src ≠ order.dst) (fun l' m rest h each => by
        obtain ⟨l₁, out, loop, calls, filing⟩ := h.2.step steady (small l'.calls) each.1 each.2
        have counted := h.1
        rw [List.length_cons] at counted
        exact ⟨l₁, out, loop, by omega, filing⟩)
    ⟨rfl, h⟩ fun m mem => ⟨noStop m mem, valid m mem⟩
  exact ⟨l', run, calls, filing⟩

end Filing

/-! ## The barriers -/

/-- A barrier only changes the buffer. -/
theorem foldl_ipcExtReceive (messages : List BankMessage) (l : Locals) :
    ∃ bufTime, messages.foldl ipcExtReceive l = { l with bufTime := bufTime } := by
  refine List.foldlRecOn (motive := fun l' => ∃ bufTime, l' = { l with bufTime := bufTime })
    messages ipcExtReceive ⟨l.bufTime, rfl⟩ ?_
  rintro l' ⟨bufTime, rfl⟩ m -
  exact ⟨m.localTime, rfl⟩

theorem filing_beforeLoop (physical : Physical) (n c : Nat) (balance : Balance)
    (started messages : List BankMessage) :
    (beforeLoop (bank physical) c n (initialLocals physical c balance) started).calls = 0 ∧
      Filing physical c (filed c balance (postings physical c 0 messages))
        (beforeLoop (bank physical) c n (initialLocals physical c balance) started) messages := by
  obtain ⟨bufTime, before⟩ := foldl_ipcExtReceive started (initialLocals physical c balance)
  have before : beforeLoop (bank physical) c n (initialLocals physical c balance) started =
      { initialLocals physical c balance with bufTime := bufTime } := before
  rw [before]
  refine ⟨rfl, ⟨?_, fun t past => ?_⟩, le_rfl, le_max_left _ _⟩
  · intro t lt
    obtain rfl : t = 0 := Nat.lt_one_iff.mp lt
    rfl
  · exact if_neg (Nat.ne_zero_of_lt past)

/-! ## Every sequence of messages -/

/-- A history with one entry for every tick up to `last`. -/
structure Exact (c : Nat) (start : Balance) (posted : List (Posting Nat Balance))
    (history : BalanceHistory) (last : Nat) : Prop
    extends Records c start posted history (last + 1) where
  pending : ∀ t ≤ last, (history.history t).balancePendingIn = 0

/-- The entries are those of the account, but for entry 0. -/
theorem exact_iff {c last : Nat} {balance : Balance} {posted : List (Posting Nat Balance)}
    {history : BalanceHistory} (follows : Follows (filed c balance posted) history)
    (len : history.historyLen = last + 1) :
    Exact c balance posted history last ↔ sentBy c posted 0 = receivedBy c posted 0 := by
  have entry (t : Nat) (le : t ≤ last) : history.history t = filed c balance posted t :=
    follows t (len ▸ Nat.lt_succ_of_le le)
  have settled : balance = balanceAt c balance posted 0 ↔
      sentBy c posted 0 = receivedBy c posted 0 := by
    rw [balanceAt, sub_add, eq_comm, sub_eq_self, sub_eq_zero]
  rw [← settled]
  constructor
  · intro exact
    have first := exact.balance 0 (Nat.succ_pos _)
    rw [entry 0 (Nat.zero_le _)] at first
    exact first
  · intro first
    have right (t : Nat) (lt : t < history.historyLen) :
        history.history t = statement c balance posted t := by
      rw [follows t lt]
      by_cases zero : t = 0
      · subst zero
        rw [statement, Pa23.statement, ← first]
        rfl
      · exact if_neg zero
    refine ⟨len ▸ records_of_follows right, fun t le => ?_⟩
    rw [right t (len ▸ Nat.lt_succ_of_le le)]
    rfl

/-- The last entry is filed at the next free place, if there is one. -/
theorem exact_record_iff {c last : Nat} {start balance : Balance}
    {posted : List (Posting Nat Balance)} {history : BalanceHistory}
    (follows : Follows (filed c start posted) history) (len : history.historyLen = max 1 last)
    (small : last ≤ maxT) (right : 1 ≤ last → filed c start posted last = ⟨balance, last, 0⟩) :
    Exact c start posted (recordHistory history ⟨balance, last, 0⟩) last ↔
      (1 ≤ last ∧ last < maxT) ∧ sentBy c posted 0 = receivedBy c posted 0 := by
  by_cases inside : 1 ≤ last ∧ last < maxT
  · rw [max_eq_right inside.1] at len
    obtain ⟨follows, len'⟩ := follows.record ⟨balance, last, 0⟩ len.symm (len ▸ inside.2)
      (right inside.1)
    rw [len] at len'
    rw [exact_iff follows len', and_iff_right inside]
  · -- there is one entry too many, or none is left
    refine ⟨fun exact => ?_, fun h => absurd h.1 inside⟩
    have counted : succUInt8 history.historyLen = last + 1 := exact.len
    rw [len] at counted
    have outside : last = 0 ∨ last = maxT := by omega
    rcases outside with rfl | rfl
    · exact absurd counted (by decide)
    · exact absurd counted (by decide)

/-- The history that a child sends is that of its account when it leaves the loop. -/
theorem runChild_of_breaks {physical : Physical} {n c : Nat} {d l : Locals}
    {started messages : List BankMessage}
    (breaks : childLoops (bank physical) c (beforeLoop (bank physical) c n d started) messages =
      some (.breaks, l)) (dones : List BankMessage) :
    ∃ l' bufTime, runChild (bank physical) c n d started messages dones =
      some (l', [(parentId, ⟨.balanceHistory l.history, bufTime⟩)]) := by
  obtain ⟨bufTime, after⟩ := foldl_ipcExtReceive dones l
  refine ⟨{ l with bufTime := bufTime }, bufTime, ?_⟩
  rw [runChild, breaks]
  exact congrArg some (congrArg sendHistory after)

/-- The history is right if and only if it has 2 to 255 entries and the child's balance has not
changed at tick 0. -/
theorem child_history_exact_iff (physical : Physical) (n c : Nat) (balance : Balance)
    (started messages dones : List BankMessage) (stopTime : Nat)
    (steady : Monotone (physical.getPhysicalTime c))
    (small : ∀ call, physical.getPhysicalTime c call ≤ maxT)
    (noStop : ∀ m ∈ messages, m.body.type ≠ .stop)
    (valid : ∀ m ∈ messages, ∀ order, m.body = .transfer order → order.src ≠ order.dst) :
    ∃ l history bufTime,
      runChild (bank physical) c n (initialLocals physical c balance) started
          (messages ++ [⟨.stop, stopTime⟩]) dones =
        some (l, [(parentId, ⟨.balanceHistory history, bufTime⟩)]) ∧
      (Exact c balance (postings physical c 0 messages) history
          (physical.getPhysicalTime c messages.length) ↔
        (1 ≤ physical.getPhysicalTime c messages.length ∧
          physical.getPhysicalTime c messages.length < maxT) ∧
        sentBy c (postings physical c 0 messages) 0 =
          receivedBy c (postings physical c 0 messages) 0) := by
  obtain ⟨calls, filing⟩ := filing_beforeLoop physical n c balance started messages
  obtain ⟨l, loops, calls', filing⟩ := filing.loops steady small noStop valid
  have recv : physical.getPhysicalTime c l.calls =
      physical.getPhysicalTime c messages.length := by rw [calls', calls, Nat.zero_add]
  obtain ⟨filed, len⟩ := filing.fill steady rfl (small l.calls)
  have breaks := childLoops_snoc loops
    (rfl : (bank physical).childLoop c l ⟨.stop, stopTime⟩ = (.breaks, _, _))
  obtain ⟨l', bufTime, run⟩ := runChild_of_breaks breaks dones
  refine ⟨l', _, bufTime, run, ?_⟩
  rw [← recv]
  refine exact_record_iff filed.follows len (small l.calls) fun pos => ?_
  rw [filing.filed.rest _ (filing.len.trans_eq (max_eq_right pos))]
  exact congrArg (BalanceState.mk · _ 0) (balanceAt_nil c l.balance _)

theorem child_history_exact_atThree :
    ∃ l history bufTime,
      runChild (bank ⟨fun _ _ => 3, fun _ => 0⟩) 1 2
          (initialLocals ⟨fun _ _ => 3, fun _ => 0⟩ 1 100) [⟨.started, 0⟩]
          ([⟨.transfer ⟨1, 2, 10⟩, 0⟩, ⟨.transfer ⟨2, 1, 5⟩, 0⟩] ++ [⟨.stop, 0⟩]) [⟨.done, 0⟩] =
        some (l, [(parentId, ⟨.balanceHistory history, bufTime⟩)]) ∧
      Exact 1 100 [⟨3, ⟨1, 2, 10⟩⟩, ⟨3, ⟨2, 1, 5⟩⟩] history 3 := by
  obtain ⟨l, history, bufTime, run, exact⟩ :=
    child_history_exact_iff ⟨fun _ _ => 3, fun _ => 0⟩ 2 1 100 [⟨.started, 0⟩]
      [⟨.transfer ⟨1, 2, 10⟩, 0⟩, ⟨.transfer ⟨2, 1, 5⟩, 0⟩] [⟨.done, 0⟩] 0 monotone_const
      (fun _ => (by decide : 3 ≤ maxT)) (by simp [Body.type]) (by simp)
  exact ⟨l, history, bufTime, run, exact.mpr ⟨by decide, rfl⟩⟩

/-- A `TRANSFER` at tick 0 is missing in entry 0, a `STOP` at tick 0 is counted as entry 1, and
after a `STOP` at tick 255 no entry is counted. -/
theorem child_history_not_exact :
    (∃ l history bufTime,
      runChild (bank ⟨fun _ call => call, fun _ => 0⟩) 1 2
          (initialLocals ⟨fun _ call => call, fun _ => 0⟩ 1 100) [⟨.started, 0⟩]
          [⟨.transfer ⟨1, 2, 10⟩, 0⟩, ⟨.stop, 0⟩] [⟨.done, 0⟩] =
        some (l, [(parentId, ⟨.balanceHistory history, bufTime⟩)]) ∧
      ¬Exact 1 100 [⟨0, ⟨1, 2, 10⟩⟩] history 1) ∧
    (∃ l history bufTime,
      runChild (bank ⟨fun _ _ => 0, fun _ => 0⟩) 1 2
          (initialLocals ⟨fun _ _ => 0, fun _ => 0⟩ 1 100) [⟨.started, 0⟩] [⟨.stop, 0⟩]
          [⟨.done, 0⟩] =
        some (l, [(parentId, ⟨.balanceHistory history, bufTime⟩)]) ∧
      ¬Exact 1 100 [] history 0) ∧
    ∃ l history bufTime,
      runChild (bank ⟨fun _ _ => maxT, fun _ => 0⟩) 1 2
          (initialLocals ⟨fun _ _ => maxT, fun _ => 0⟩ 1 100) [⟨.started, 0⟩] [⟨.stop, 0⟩]
          [⟨.done, 0⟩] =
        some (l, [(parentId, ⟨.balanceHistory history, bufTime⟩)]) ∧
      ¬Exact 1 100 [] history maxT := by
  refine ⟨⟨_, _, _, rfl, fun exact => ?_⟩, ⟨_, _, _, rfl, fun exact => ?_⟩, _, _, _, rfl,
    fun exact => ?_⟩
  · exact absurd (exact.balance 0 Nat.two_pos) (by decide)
  · exact absurd exact.len (by decide)
  · exact absurd exact.len (by decide +kernel)

end Distra.Pa2
