import Distra.Pa23.Banking

/-!
# Entries of a history

A child files the states of its balance tick by tick. The loop that fills in the missing entries
goes on where the history ends.
-/

namespace Distra

theorem succUInt8_of_lt {n : Nat} (lt : n < maxT) : succUInt8 n = n + 1 :=
  Nat.mod_eq_of_lt (Nat.succ_lt_succ lt)

theorem foldl_recordHistory (balance : Balance) (k : Nat) (history : BalanceHistory)
    (small : history.historyLen + k ≤ maxT) :
    ∃ history' : BalanceHistory,
      (List.range' history.historyLen k).foldl
        (fun history t => recordHistory history ⟨balance, t, 0⟩) history = history' ∧
      history'.id = history.id ∧ history'.historyLen = history.historyLen + k ∧
      (∀ t < history.historyLen, history'.history t = history.history t) ∧
      ∀ t, history.historyLen ≤ t → t < history.historyLen + k →
        history'.history t = ⟨balance, t, 0⟩ := by
  induction k generalizing history with
  | zero => exact ⟨history, rfl, rfl, rfl, fun _ _ => rfl, fun t le lt => absurd lt (not_lt.mpr le)⟩
  | succ k ih =>
    have len : (recordHistory history ⟨balance, history.historyLen, 0⟩).historyLen =
        history.historyLen + 1 := succUInt8_of_lt (by omega)
    obtain ⟨history', fold, id, len', old, new⟩ :=
      ih (recordHistory history ⟨balance, history.historyLen, 0⟩) (by rw [len]; omega)
    rw [len] at fold len' old new
    refine ⟨history', ?_, id, by rw [len']; omega, fun t lt => ?_, fun t le lt => ?_⟩
    · rw [List.range'_succ, List.foldl_cons]
      exact fold
    · rw [old t (Nat.lt_succ_of_lt lt)]
      exact Function.update_of_ne (Nat.ne_of_lt lt) _ _
    · by_cases first : t = history.historyLen
      · rw [old t (by omega), first]
        exact Function.update_self _ _ _
      · exact new t (by omega) (by omega)

theorem fillHistory_spec (history : BalanceHistory) (balance : Balance) {recvT : Nat}
    (le : history.historyLen ≤ recvT) (small : recvT ≤ maxT) :
    (fillHistory history balance recvT).id = history.id ∧
      (fillHistory history balance recvT).historyLen = recvT ∧
      (∀ t < history.historyLen,
        (fillHistory history balance recvT).history t = history.history t) ∧
      ∀ t, history.historyLen ≤ t → t < recvT →
        (fillHistory history balance recvT).history t = ⟨balance, t, 0⟩ := by
  have total : history.historyLen + (recvT - history.historyLen) = recvT := by omega
  obtain ⟨history', fold, id, len, old, new⟩ :=
    foldl_recordHistory balance (recvT - history.historyLen) history (by rw [total]; exact small)
  rw [total] at len new
  rw [fillHistory, fold]
  exact ⟨id, len, old, new⟩

/-! ## Right entries -/

/-- The entries of a history are those of `ledger`. -/
def Follows (ledger : Nat → BalanceState) (history : BalanceHistory) : Prop :=
  ∀ t < history.historyLen, history.history t = ledger t

section Follows

variable {ledger : Nat → BalanceState} {history : BalanceHistory}

/-- The balance has not changed since the last entry. -/
theorem Follows.fill (h : Follows ledger history) (balance : Balance) {recvT : Nat}
    (le : history.historyLen ≤ recvT) (small : recvT ≤ maxT)
    (right : ∀ t, history.historyLen ≤ t → t < recvT → ledger t = ⟨balance, t, 0⟩) :
    Follows ledger (fillHistory history balance recvT) ∧
      (fillHistory history balance recvT).historyLen = recvT := by
  obtain ⟨-, len, old, new⟩ := fillHistory_spec history balance le small
  refine ⟨fun t lt => ?_, len⟩
  by_cases early : t < history.historyLen
  · rw [old t early, h t early]
  · rw [len] at lt
    rw [new t (not_lt.mp early) lt, right t (not_lt.mp early) lt]

theorem Follows.record (h : Follows ledger history) (state : BalanceState)
    (time : state.time = history.historyLen) (small : history.historyLen < maxT)
    (right : ledger state.time = state) :
    Follows ledger (recordHistory history state) ∧
      (recordHistory history state).historyLen = history.historyLen + 1 := by
  have len : (recordHistory history state).historyLen = history.historyLen + 1 :=
    succUInt8_of_lt small
  refine ⟨fun t lt => ?_, len⟩
  rw [len] at lt
  by_cases last : t = state.time
  · subst last
    rw [right]
    exact Function.update_self _ _ _
  · rw [← h t (by omega)]
    exact Function.update_of_ne last _ _

end Follows

end Distra
