import Distra.Pa2.Transfers
import Distra.Pa3.Determinism

/-!
# `bank_robbery`

Child `i` sends `i` to the next one, and the last child sends 1 to the first. With these transfers
the histories never get to `MAX_T`, and the balances at the end are known.
-/

namespace Distra.Pa23

open Network Accounts

/-- `bank_robbery`. -/
def bankRobbery (maxId : Nat) : List TransferOrder :=
  (List.range' 1 (maxId - 1)).map (fun i => ⟨i, i + 1, BitVec.ofNat 16 i⟩) ++
    if maxId > 1 then [⟨maxId, 1, 1⟩] else []

theorem bankRobbery_valid {n : Nat} : ∀ order ∈ bankRobbery n, order.Valid n := by
  intro order mem
  rcases List.mem_append.mp mem with mem | mem
  · obtain ⟨i, range, rfl⟩ := List.mem_map.mp mem
    obtain ⟨pos, lt⟩ := List.mem_range'_1.mp range
    simp only [TransferOrder.Valid, IsChild]
    omega
  · split at mem
    next more =>
      rw [List.mem_singleton.mp mem]
      simp only [TransferOrder.Valid, IsChild]
      omega
    next => cases mem

theorem length_bankRobbery (n : Nat) : (bankRobbery n).length = if n > 1 then n else 0 := by
  rw [bankRobbery, List.length_append, List.length_map, List.length_range']
  split
  · rw [List.length_singleton]
    omega
  · rw [List.length_nil]
    omega

/-- The programs with `bank_robbery` in its place. -/
def robbery (numChildren : Nat) (pos : 1 ≤ numChildren) (le_max : numChildren ≤ maxChildren)
    (startBalances : Nat → Balance) : BankConfig where
  numChildren := numChildren
  pos := pos
  le_max := le_max
  startBalances := startBalances
  orders := bankRobbery numChildren
  valid := bankRobbery_valid

/-! ## Balances -/

/-- The balance of child `c` in the end. -/
def robbed (n c : Nat) (balance : Balance) : Balance :=
  if n ≤ 1 then balance
  else if c = n then balance + BitVec.ofNat 16 (n - 2)
  else if c = 1 then balance
  else balance - 1

/-- The balance of child `c` when the first `k` children have sent what they send. -/
theorem settleAll_range (c k : Nat) (balance : Balance) (child : 1 ≤ c) :
    Pa2.settleAll ((List.range' 1 k).map fun i => ⟨i, i + 1, BitVec.ofNat 16 i⟩) c balance =
      if k + 1 < c then balance
      else if c = k + 1 then balance + BitVec.ofNat 16 k
      else balance - 1 := by
  induction k with
  | zero =>
    have bound : 1 < c ∨ c = 1 := by omega
    rcases bound with more | rfl
    · rw [if_pos (by omega)]
      rfl
    · simp [Pa2.settleAll]
  | succ k ih =>
    have next : BitVec.ofNat 16 (k + 1) = BitVec.ofNat 16 k + 1 := BitVec.ofNat_add k 1
    rw [List.range'_1_concat, List.map_append, List.map_singleton, Pa2.settleAll_snoc, ih,
      Pa2.settle, Transfer.settle]
    dsimp only
    rw [Nat.add_comm 1 k, next]
    by_cases src : c = k + 1
    · rw [if_pos src, if_neg (by omega), if_pos src, if_neg (by omega), if_neg (by omega),
        sub_add_eq_sub_sub, add_sub_cancel_right]
    · rw [if_neg src]
      by_cases dst : c = k + 1 + 1
      · rw [if_pos dst, if_pos (by omega), if_neg (by omega), if_pos dst]
      · rw [if_neg dst, if_neg src, if_neg dst]
        by_cases ahead : k + 1 < c
        · rw [if_pos ahead, if_pos (by omega)]
        · rw [if_neg ahead, if_neg (by omega)]

theorem settleAll_bankRobbery {n c : Nat} (child : IsChild n c) (balance : Balance) :
    Pa2.settleAll (bankRobbery n) c balance = robbed n c balance := by
  obtain ⟨first, last⟩ := child
  rw [bankRobbery, robbed]
  by_cases alone : n ≤ 1
  · obtain rfl : n = 1 := by omega
    rfl
  · have back : n - 1 + 1 = n := by omega
    have less : BitVec.ofNat 16 (n - 1) = BitVec.ofNat 16 (n - 2) + 1 := by
      rw [show n - 1 = n - 2 + 1 by omega]
      exact BitVec.ofNat_add _ 1
    rw [if_pos (not_le.mp alone), if_neg alone, Pa2.settleAll_snoc, settleAll_range _ _ _ first,
      back, if_neg (not_lt.mpr last), Pa2.settle, Transfer.settle]
    dsimp only
    by_cases own : c = n
    · rw [if_pos own, if_pos own, if_pos own, less, ← add_assoc, add_sub_cancel_right]
    · rw [if_neg own, if_neg own, if_neg own]
      by_cases one : c = 1
      · rw [if_pos one, if_pos one, sub_add_cancel]
      · rw [if_neg one, if_neg one]

/-! ## Runs -/

section Runs

variable {n : Nat} {pos : 1 ≤ n} {le_max : n ≤ maxChildren} {startBalances : Nat → Balance}

/-- The Lamport time of the `STOP`s, when the transfers are over. -/
def robberyEnd (n : Nat) : Nat := n + 2 + 6 * (bankRobbery n).length

/-- What the parent prints: histories of the same length below `MAX_T`, in which no money is lost
or made, and from the tick of the `STOP`s on everyone has what the transfers leave. -/
structure Robbed (n : Nat) (startBalances : Nat → Balance) (allHistory : AllHistory) : Prop where
  entries : allHistory.historyLen = n
  id : ∀ c, IsChild n c → (allHistory.history (c - 1)).id = c
  len : ∀ c, IsChild n c → (allHistory.history (c - 1)).historyLen = robberyEnd n + n + 2
  fits : robberyEnd n + n + 2 ≤ maxT
  sum : ∀ t < robberyEnd n + n + 2,
    ∑ c ∈ Finset.Icc 1 n,
        (((allHistory.history (c - 1)).history t).balance +
          ((allHistory.history (c - 1)).history t).balancePendingIn) =
      ∑ c ∈ Finset.Icc 1 n, startBalances c
  last : ∀ c, IsChild n c → ∀ t, robberyEnd n ≤ t → t < robberyEnd n + n + 2 →
    (allHistory.history (c - 1)).history t = ⟨robbed n c (startBalances c), t, 0⟩

/-- The entries after the last transfer. -/
theorem ledger_settled {cfg : BankConfig} {t : Nat} (c : Nat) (late : Pa3.departure cfg [] ≤ t) :
    Pa3.ledger cfg c t = ⟨Pa2.settleAll cfg.orders c (cfg.startBalances c), t, 0⟩ := by
  rw [Pa3.departure_nil] at late
  rw [Pa3.ledger, Pa3.stateAt, Pa3.departure_orders, bookAt_settled (by decide), List.foldl_map]
  · rfl
  · rw [List.length_map]
    exact late

theorem robbery_small : Pa3.lastTick (robbery n pos le_max startBalances) ≤ maxT := by
  have length := length_bankRobbery n
  have le : n ≤ 15 := le_max
  change n + 2 + 6 * (bankRobbery n).length + n + 2 ≤ 255
  split at length <;> omega

/-- A run that prints has lost nothing. -/
theorem banked_of_printed {cfg : BankConfig} (r : BankRun cfg Pa3.bank) {allHistory : AllHistory}
    (printed : (r.final.loc parentId).printed = some allHistory) :
    ∃ flight, Pa3.Banked cfg r.final.view flight := by
  rcases Pa3.invariant_of_run r.run with banked | ⟨p, q, lost⟩
  · exact banked
  · have unprinted : (r.final.loc parentId).printed = none := lost.unprinted
    cases unprinted.symm.trans printed

theorem robbed_of_banked {s : BankState Pa3.Locals} {flight : Flight}
    (banked : Pa3.Banked (robbery n pos le_max startBalances) s.view flight)
    {allHistory : AllHistory} (printed : (s.loc parentId).printed = some allHistory) :
    Robbed n startBalances allHistory := by
  have small : Pa3.lastTick (robbery n pos le_max startBalances) ≤ maxT := robbery_small
  have conserves := banked.conserves small printed
  refine ⟨conserves.entries, conserves.id, conserves.len, small, conserves.sum,
    fun c child t late lt => ?_⟩
  have closed := banked.closed small printed child
  rw [closed.entry lt, ledger_settled c late]
  exact congrArg (BalanceState.mk · t 0) (settleAll_bankRobbery child _)

/-- In every run of `pa3`, what the parent prints of `bank_robbery` is known. -/
theorem robbery_printed (n : Nat) (pos : 1 ≤ n) (le_max : n ≤ maxChildren)
    (startBalances : Nat → Balance) (r : BankRun (robbery n pos le_max startBalances) Pa3.bank)
    {allHistory : AllHistory} (printed : (r.final.loc parentId).printed = some allHistory) :
    Robbed n startBalances allHistory := by
  obtain ⟨flight, banked⟩ := banked_of_printed r printed
  exact robbed_of_banked banked printed

theorem twoRobbers_pos : 1 ≤ 2 := by decide

theorem twoRobbers_le_max : 2 ≤ maxChildren := by decide

/-- Two children, who send each other 1. -/
def twoRobbers : BankConfig := robbery 2 twoRobbers_pos twoRobbers_le_max fun _ => 100

def twoRobbersSchedule : List (Choice Nat) :=
  [.act 1, .send 1, .send 1, .act 2, .send 2, .send 2, .take 1 2, .act 1, .take 2 1, .act 2,
    .take 0 1, .take 0 2, .act 0, .act 0, .send 0, .take 1 0, .send 1, .empty 2, .take 2 1,
    .send 2, .take 0 2, .act 0, .send 0, .take 2 0, .send 2, .empty 1, .take 1 2, .send 1,
    .take 0 1, .act 0, .send 0, .send 0, .take 1 0, .take 2 0, .act 1, .send 1, .send 1,
    .act 2, .send 2, .send 2, .take 1 2, .take 2 1, .act 1, .send 1, .act 2, .send 2, .take 0 1,
    .take 0 2, .act 0, .take 0 1, .take 0 2, .act 0]

theorem run_of_schedule {δ : Type} (cfg : BankConfig) (B : BankCode δ)
    (good : BankState δ → Bool) (cs : List (Choice Nat))
    (check : ((initialState cfg B).follow? (start cfg B) cs).any good = true) :
    ∃ r : BankRun cfg B, good r.final = true := by
  obtain ⟨s, ts, -, run, good⟩ := State.run_of_follow? check
  exact ⟨⟨ts, s, run⟩, good⟩

theorem robbery_printed_two :
    ∃ (r : BankRun twoRobbers Pa3.bank) (allHistory : AllHistory),
      (r.final.loc parentId).printed = some allHistory ∧ Robbed 2 (fun _ => 100) allHistory := by
  obtain ⟨r, printed⟩ := run_of_schedule twoRobbers Pa3.bank
    (fun s => (s.loc parentId).printed.isSome) twoRobbersSchedule (by decide +kernel)
  obtain ⟨allHistory, printed⟩ := Option.isSome_iff_exists.mp printed
  exact ⟨r, allHistory, printed, robbery_printed 2 _ _ _ r printed⟩

/-- In every run of `pa2`, every child has what `bank_robbery` leaves it from the time at which the
parent starts to send its `STOP`s. -/
theorem robbery_balances (n : Nat) (pos : 1 ≤ n) (le_max : n ≤ maxChildren)
    (startBalances : Nat → Balance) (physical : Pa2.Physical)
    (r : BankRun (robbery n pos le_max startBalances) (Pa2.bank physical))
    (stopped : 1 ≤ (r.final.loc parentId).pc.sent parentId) {c : Nat} (child : IsChild n c) :
    (r.final.loc c).data.balance = robbed n c (startBalances c) := by
  obtain ⟨w, flight, restored, shape, returned, parts, balances⟩ := Pa2.moved r
  have nothing : flight = .none := by
    apply shape.under.none
    rw [restored.loc]
    exact stopped
  have left : Pa2.Pc.left (bankRobbery n) (r.final.loc parentId).pc = [] := by
    cases pc : (r.final.loc parentId).pc with
    | awaitAllStarted | bankRobbery | awaitAck =>
      rw [pc] at stopped
      cases stopped
    | _ => rfl
  have all : bankRobbery n = returned ++ Pa2.Pc.left (bankRobbery n) (r.final.loc parentId).pc :=
    parts
  rw [left, List.append_nil] at all
  subst nothing all
  exact (balances c child).trans (settleAll_bankRobbery child _)

theorem robbery_balances_two :
    ∃ r : BankRun twoRobbers (Pa2.bank sameSecond), 1 ≤ (r.final.loc parentId).pc.sent parentId ∧
      ∀ c, IsChild 2 c → (r.final.loc c).data.balance = robbed 2 c 100 := by
  obtain ⟨r, stopped⟩ := run_of_schedule twoRobbers (Pa2.bank sameSecond)
    (fun s => decide (1 ≤ (s.loc parentId).pc.sent parentId)) twoRobbersSchedule (by decide +kernel)
  have stopped := of_decide_eq_true stopped
  exact ⟨r, stopped, fun c child => robbery_balances 2 _ _ _ _ r stopped child⟩

end Runs

end Distra.Pa23
