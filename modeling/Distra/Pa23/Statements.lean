import Distra.Accounts.Statement
import Distra.Pa23.Alone
import Distra.Pa23.Entries
import Mathlib.Data.BitVec

/-!
# The account of a child

A child posts the `TRANSFER`s that it takes at the times of their receipts, and its history is the
statement of its account. What the clock of the child is, Lamport's or a physical one, does not
matter here: `recvT` reads it at a receipt, and `next` is the clock after a message.
-/

namespace Distra.Pa23

open Accounts

/-! ## Postings -/

section Postings

variable {τ : Type}

def postings (recvT : τ → BankMessage → Nat) (next : τ → BankMessage → τ) :
    τ → List BankMessage → List (Posting Nat Balance)
  | _, [] => []
  | clock, m :: rest =>
    match m.body with
    | .transfer order =>
      ⟨recvT clock m, ⟨order.src, order.dst, order.amount⟩⟩ ::
        postings recvT next (next clock m) rest
    | _ => postings recvT next (next clock m) rest

variable {recvT : τ → BankMessage → Nat} {next : τ → BankMessage → τ} {clock : τ}
  {m : BankMessage} {messages rest : List BankMessage}

theorem postings_other (other : m.body.type ≠ .transfer) :
    postings recvT next clock (m :: rest) = postings recvT next (next clock m) rest := by
  obtain ⟨body, t⟩ := m
  cases body with
  | transfer => exact absurd rfl other
  | _ => rfl

theorem postings_snoc (other : m.body.type ≠ .transfer) :
    postings recvT next clock (messages ++ [m]) = postings recvT next clock messages := by
  induction messages generalizing clock with
  | nil => exact postings_other other
  | cons first rest ih =>
    obtain ⟨body, t⟩ := first
    cases body with
    | transfer order => exact congrArg (List.cons _) ih
    | _ => exact ih

/-- Nothing is posted before a time that the clock has passed. -/
theorem le_of_posting (passed : τ → Nat) (later : ∀ clock m, passed clock ≤ recvT clock m)
    (steady : ∀ clock m, passed clock ≤ passed (next clock m)) {p : Posting Nat Balance}
    (mem : p ∈ postings recvT next clock messages) : passed clock ≤ p.time := by
  induction messages generalizing clock with
  | nil => cases mem
  | cons m rest ih =>
    have after (mem : p ∈ postings recvT next (next clock m) rest) : passed clock ≤ p.time :=
      (steady clock m).trans (ih mem)
    by_cases transfer : m.body.type = .transfer
    · obtain ⟨body, t⟩ := m
      cases body with
      | transfer order =>
        rcases List.mem_cons.mp mem with rfl | mem
        · exact later clock _
        · exact after mem
      | _ => cases transfer
    · rw [postings_other transfer] at mem
      exact after mem

end Postings

/-! ## Statements -/

/-- What child `c` has at tick `t`, with `balance` before the postings, and what is pending. -/
def statement (c : Nat) (balance : Balance) (posted : List (Posting Nat Balance))
    (pending : Nat → Balance) (t : Nat) : BalanceState :=
  ⟨balanceAt c balance posted t, t, pending t⟩

/-- The history agrees with `ledger` as far as it goes, and `rest` with what comes then. -/
structure Filed (ledger rest : Nat → BalanceState) (history : BalanceHistory) : Prop where
  follows : Follows ledger history
  rest : ∀ t, history.historyLen ≤ t → ledger t = rest t

/-- The entries of a history have the ticks and the balances of the account. -/
structure Records (c : Nat) (start : Balance) (posted : List (Posting Nat Balance))
    (history : BalanceHistory) (n : Nat) : Prop where
  len : history.historyLen = n
  time : ∀ t < n, (history.history t).time = t
  balance : ∀ t < n, (history.history t).balance = balanceAt c start posted t

section Filed

variable {ledger rest : Nat → BalanceState} {history : BalanceHistory}

/-- The missing entries are filled in while nothing is posted. -/
theorem Filed.fill (h : Filed ledger rest history) (balance : Balance) {recvT : Nat}
    (le : history.historyLen ≤ recvT) (small : recvT ≤ maxT)
    (quiet : ∀ t < recvT, rest t = ⟨balance, t, 0⟩) :
    Filed ledger rest (fillHistory history balance recvT) ∧
      (fillHistory history balance recvT).historyLen = recvT := by
  obtain ⟨follows, len⟩ := h.follows.fill balance le small fun t covers lt =>
    (h.rest t covers).trans (quiet t lt)
  exact ⟨⟨follows, fun t past => h.rest t (le.trans (len.symm.le.trans past))⟩, len⟩

theorem Filed.record (h : Filed ledger rest history) (state : BalanceState)
    (time : state.time = history.historyLen) (small : history.historyLen < maxT)
    (right : rest state.time = state) :
    Filed ledger rest (recordHistory history state) ∧
      (recordHistory history state).historyLen = history.historyLen + 1 := by
  obtain ⟨follows, len⟩ :=
    h.follows.record state time small ((h.rest _ time.ge).trans right)
  exact ⟨⟨follows, fun t past => h.rest t ((Nat.le_succ _).trans (len.symm.le.trans past))⟩, len⟩

theorem Filed.congr {rest' : Nat → BalanceState} (h : Filed ledger rest history)
    (same : ∀ t, history.historyLen ≤ t → rest t = rest' t) : Filed ledger rest' history :=
  ⟨h.follows, fun t past => (h.rest t past).trans (same t past)⟩

theorem records_of_follows {c : Nat} {start : Balance} {posted : List (Posting Nat Balance)}
    {pending : Nat → Balance} (follows : Follows (statement c start posted pending) history) :
    Records c start posted history history.historyLen := by
  refine ⟨rfl, fun t lt => ?_, fun t lt => ?_⟩
  · rw [follows t lt]
    rfl
  · rw [follows t lt]
    rfl

end Filed

/-! ## Loops -/

/-- An invariant of the loop of `child_entry` for as long as it goes on. -/
theorem childLoops_invariant {δ : Type} {B : BankCode δ} {self : Nat}
    {I : δ → List BankMessage → Prop} {K : BankMessage → Prop}
    (keep : ∀ d m rest, I d (m :: rest) → K m →
      ∃ d' out, B.childLoop self d m = (.goesOn, d', out) ∧ I d' rest)
    {d : δ} {messages : List BankMessage} (start : I d messages) (all : ∀ m ∈ messages, K m) :
    ∃ d', childLoops B self d messages = some (.goesOn, d') ∧ I d' [] := by
  induction messages generalizing d with
  | nil => exact ⟨d, rfl, start⟩
  | cons m rest ih =>
    obtain ⟨first, others⟩ := List.forall_mem_cons.mp all
    obtain ⟨d₁, out, loop, kept⟩ := keep d m rest start first
    obtain ⟨d', run, end_⟩ := ih kept others
    refine ⟨d', ?_, end_⟩
    rw [childLoops, loop]
    exact run

end Distra.Pa23
