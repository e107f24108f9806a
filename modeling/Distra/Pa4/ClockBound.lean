import Distra.Ipc.Headers
import Distra.Pa4.ClockBudget
import Distra.Pa4.Messages

/-!
# The clocks of `pa4`

A critical section costs its child one tick for the request and one for the release, and every other
child four at most: for the request and the release taken, for the reply sent, and one for the reply
taken. A `DONE` that comes in `request_cs` costs two, for the call that follows it.
-/

namespace Distra.Pa4

open Network RequestQueue

variable {cfg : Config}

/-- A critical section is a request and a release. What a `CS_REQUEST` leads to is its receipt and
the reply with its own. -/
def prices (n : Nat) : Prices where
  ticks
    | .csRequest => 3
    | .done => 2
    | _ => 1
  entry := (1 + (n - 1) * 3) + (1 + (n - 1))
  release := 1 + (n - 1)

def budget (n : Nat) : Budget Nat (Process Mux) Message := (prices n).budget n fun _ _ => 0

section Pays

variable {v : ProcessView Mux} {os : List Observation} {p : Nat} {q : Nat}
  {m : Message} {input : Option (Nat × Message)} {next : Next Nat (Process Mux) Message}
  {st : Process Mux} {l' : Locals} {out : Sends} {n : Nat}

theorem one_le_ticks (n : Nat) (type : MessageType) : 1 ≤ (prices n).ticks type := by
  cases type <;> simp [prices]

theorem Serves.pays (serves : Serves st.locals q m l' out) (child : p ≠ parentId) {pc : Pc}
    (same : (prices n).work n p pc ≤ (prices n).work n p st.pc) (count : Nat) :
    ∃ ticks, (budget n).Pays p st (some (q, m))
      (st.at_ pc ⟨{ l'.mux with lastRequestReplyCount := count }, l'.lamportTime⟩, out) ticks := by
  cases serves with
  | reply | release => exact ⟨1, Prices.pays_received child same rfl rfl (one_le_ticks n _)⟩
  | request type =>
    refine ⟨2, Prices.pays_answer child same ?_ ?_ ?_ ?_⟩
    · rfl
    · rfl
    · rfl
    · rw [type]
      exact Nat.le_refl _

theorem Refined.pays (h : Refined cfg v os) {p : Child cfg.numChildren}
    (step : LocalStep cfg mutex p (v.loc p) input next) :
    ∃ ticks, (budget cfg.numChildren).Pays p (v.loc p) input next ticks := by
  have child := p.2.ne_parent
  cases step with
  | syncStarted pc => exact ⟨1, Prices.pays_syncStarted p.2 pc⟩
  | barrier pc =>
    refine ⟨1, Prices.pays_received child ?_ rfl rfl (one_le_ticks _ _)⟩
    rw [pc]
    exact Nat.le_refl _
  | barrierWait pc => exact ⟨0, Prices.pays_still child (Nat.le_refl _) (Nat.le_refl _) rfl⟩
  | barrierEnd pc =>
    refine ⟨0, Prices.pays_still child ?_ (Nat.le_refl _) rfl⟩
    rw [pc]
    exact Nat.le_refl _
  | @request i l out pc more requested =>
    have idle : (v.loc p).pc.phase = .idle := by rw [pc]; rfl
    have vacant : queueLookup (v.loc p).locals.mux.queue p = emptyRequestTime :=
      h.inv.request_eq_zero (show (image cfg v os).phase p = .idle from idle)
    cases (requestCs_of_vacant vacant).symm.trans requested
    refine ⟨1, Prices.pays_request p.2 pc more rfl rfl rfl ?_⟩
    simp only [prices]
    omega
  | finish pc => exact ⟨1, Prices.pays_finish p.2 pc⟩
  | @served i q m verdict l out pc taken cs =>
    rcases requestCsTake_some taken with ⟨l₁, out₁, serves, test⟩ | ⟨-, nonCs, -, -⟩
    · have same (pc' : Pc) (next : pc' = .requestCs i ∨ pc' = .criticalSection i) :
          (prices cfg.numChildren).work cfg.numChildren p pc' ≤
            (prices cfg.numChildren).work cfg.numChildren p (v.loc p).pc := by
        rw [pc]
        rcases next with rfl | rfl <;> exact Nat.le_refl _
      unfold entryTest enterIf at test
      split at test
      next =>
        cases test
        exact serves.pays child (same _ (.inr rfl)) 0
      next =>
        cases test
        exact serves.pays child (same _ (.inl rfl)) _
    · exact absurd nonCs cs
  | @doneServed i q m l out l' out' pc taken type retried =>
    rcases requestCsTake_some taken with ⟨_, _, serves, -⟩ | ⟨-, -, rfl, -⟩
    · cases serves <;> simp_all
    · have queued : queueLookup (v.loc p).mux.queue p ≠ emptyRequestTime :=
        (h.inv.grants.standing p).mpr (by simp [image, grants, pc, Pc.phase])
      cases (requestCs_of_queued queued).symm.trans retried
      refine ⟨2, Prices.pays_received child ?_ rfl rfl ?_⟩
      · rw [pc]
        exact Nat.le_refl _
      · rw [type]
        exact Nat.le_refl _
  | idle pc found =>
    cases found
    refine ⟨0, Prices.pays_still child ?_ (Nat.le_refl _) rfl⟩
    rw [pc]
    exact Nat.le_refl _
  | @release i l out pc released =>
    obtain ⟨-, rfl, rfl⟩ := releaseCs_some released
    refine ⟨1, Prices.pays_multicast child (otherChildren cfg.numChildren p) rfl rfl ?_⟩
    have rounds : 5 * p.1 + 1 - (i + 1) = 5 * p.1 - i := by omega
    rw [pc, length_otherChildren p.2]
    simp only [Process.at_, Prices.work, prices, rounds]
    omega
  | @handled q m verdict l out pc taken cs =>
    rcases @handleCsRequests_some cfg p _ _ _ _ _ _ taken with ⟨serves, -, -⟩ | ⟨-, nonCs, -, -⟩
    · exact serves.pays child (pc ▸ Nat.le_refl _) l.mux.lastRequestReplyCount
    · exact absurd nonCs cs
  | @doneHandled q m l out pc taken type =>
    rcases @handleCsRequests_some cfg p _ _ _ _ _ _ taken with ⟨-, -, k⟩ | ⟨-, -, rfl, -⟩
    · cases k
    · refine ⟨1, Prices.pays_received child ?_ rfl rfl (one_le_ticks _ _)⟩
      exact (Nat.le_of_eq (Prices.work_finalLoop _ _ _ _)).trans (Nat.zero_le _)
  | handleWait pc => exact ⟨0, Prices.pays_still child (Nat.le_refl _) (Nat.le_refl _) rfl⟩

end Pays

/-! ## Every run -/

/-- The ticks of a whole run with `n` children. -/
def clockLimit (n : Nat) : Nat := (prices n).clockLimit n

/-- No clock and no time stamp goes beyond the limit. -/
theorem clock_le (r : MutexRun cfg mutex) :
    (∀ p, (r.final.loc p).lamportTime ≤ clockLimit cfg.numChildren) ∧
      ∀ p q, ∀ m ∈ r.final.transit p q, m.localTime ≤ clockLimit cfg.numChildren := by
  obtain ⟨K, within⟩ := Prices.within_limit unfailing (fun _ => rfl) (one_le_ticks _)
    (fun r p input next child ready step => (reached r).refined.pays (p := ⟨p, child⟩) step) r
  exact Prices.clock_le within

theorem clockLimit_le {n : Nat} (few : n ≤ 14) : clockLimit n ≤ int16Max := by
  revert n
  decide +kernel

/-- No clock and no time stamp goes beyond the limit, and none of them overflows with 14 children at
most. -/
theorem lamport_clocks_bounded (r : MutexRun cfg mutex) :
    (∀ p, (r.final.loc p).lamportTime ≤ clockLimit cfg.numChildren) ∧
      (∀ p q, ∀ m ∈ r.final.transit p q, m.localTime ≤ clockLimit cfg.numChildren) ∧
      (cfg.numChildren ≤ 14 → ∀ p q, (r.final.loc p).lamportTime ≤ int16Max ∧
        ∀ m ∈ r.final.transit p q, m.localTime ≤ int16Max) := by
  obtain ⟨clocks, stamps⟩ := clock_le r
  refine ⟨clocks, stamps, fun few p q => ⟨?_, fun m mem => ?_⟩⟩
  · exact (clocks p).trans (clockLimit_le few)
  · exact (stamps p q m mem).trans (clockLimit_le few)

end Distra.Pa4
