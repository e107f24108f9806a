import Distra.Pa4.Tallies

/-!
# Three messages for every other child

In `pa4` a critical section costs a `CS_REQUEST`, a `CS_REPLY` and a `CS_RELEASE` for every other
child, and no more.
-/

namespace Distra.Pa4

open Network RequestQueue

variable {cfg : Config}

/-- Nothing is owed, and everything left is announced. -/
def books : Books Mux := ⟨fun _ _ => 0, Pc.left⟩

section Booked

variable {v : ProcessView Mux} {os : List Observation} {p : Child cfg.numChildren} {q : Nat}
  {input : Option (Nat × Message)} {next : Next Nat (Process Mux) Message}

/-- A CS message that is taken while the queue allows it. -/
theorem Serves.booked {l l' : Locals} {fr : Nat} {m : Message} {out : Sends}
    (serves : Serves l fr m l' out) :
    ofType .csRequest (outTo out q) = 0 ∧ ofType .csRelease (outTo out q) = 0 ∧
      ofType .csReply (outTo out q) = ofType .csRequest (outTo [(fr, m)] q) := by
  cases serves with
  | reply type | release type =>
    rw [ofType_outTo_single, if_neg (by simp [type])]
    exact ⟨rfl, rfl, rfl⟩
  | request type =>
    simp only [ofType_outTo_single, type]
    simp

theorem Refined.booked (h : Refined cfg v os) (range : (v.loc p).pc.InRange p)
    (step : LocalStep cfg mutex p (v.loc p) input next) (child : IsChild cfg.numChildren q)
    (ne : q ≠ p) : Booked books p q (v.loc p) input next := by
  have entries := (step.entries range).2
  have done {fr : Nat} {m : Message} (type : m.type = .done) :
      ofType .csRequest (outTo (some (fr, m)).toList q) = 0 := by
    rw [Option.toList_some, ofType_outTo_single, if_neg (by simp [type])]
  cases step.mutex with
  | quiet quiet =>
    have none_ (type : MessageType) (cs : type.IsCs) : ofType type (outTo next.2 q) = 0 :=
      ofType_outTo_other fun x mem eq => quiet.sends x mem (eq ▸ cs)
    have untaken : ofType .csRequest (outTo input.toList q) = 0 :=
      ofType_outTo_other fun x mem eq => quiet.takes x.1 x.2 (Option.mem_toList.mp mem) (.inl eq)
    have same : next.1.pc.entries p = (v.loc p).pc.entries p := by
      rw [entries, if_neg, Nat.add_zero]
      rw [← Pc.phase_eq_inside, ← Pc.phase_eq_inside, quiet.phase]
      exact fun both => both.1 both.2
    refine ⟨?_, ?_, ?_⟩
    · rw [none_ _ (.inl rfl), Pc.asked, Pc.asked, same, quiet.phase, Nat.zero_add]
    · rw [none_ _ (.inr (.inl rfl)), untaken]
      rfl
    · rw [none_ _ (.inr (.inr rfl)), Nat.zero_add]
      simp only [books, Pc.left, same, quiet.phase]
  | @request i l out pc requested =>
    have idle : (v.loc p).pc.phase = .idle := by rw [pc]; rfl
    have vacant : queueLookup (v.loc p).locals.mux.queue p = emptyRequestTime :=
      h.inv.request_eq_zero (show (image cfg v os).phase p = .idle from idle)
    cases (requestCs_of_vacant vacant).symm.trans requested
    refine ⟨?_, ?_, ?_⟩
    · rw [ofType_outTo_multicast child ne, pc]
      simp [Process.at_, Pc.asked, Pc.entries, Pc.phase, Nat.add_comm]
    · rw [ofType_outTo_multicast child ne]
      rfl
    · rw [ofType_outTo_multicast child ne, pc]
      simp [Process.at_, books, Pc.left, Pc.entries, Pc.phase]
  | @served i fr m verdict l out pc taken cs =>
    rcases requestCsTake_some taken with ⟨l₁, out₁, serves, test⟩ | ⟨-, nonCs, -, -⟩
    · obtain rfl : out = out₁ := (congrArg (·.2.2) test).trans (enterIf_sends _ _ l₁ out₁)
      obtain ⟨requests, releases, replies⟩ := serves.booked (q := q)
      rw [pc] at range
      have pos := range.1
      refine ⟨?_, ?_, ?_⟩
      · rw [requests, pc]
        cases verdict <;> simp [Process.at_, Verdict.pc, Pc.asked, Pc.entries, Pc.phase]
        omega
      · rw [replies]
        exact Nat.add_comm _ _
      · rw [releases, pc]
        cases verdict <;> simp [Process.at_, Verdict.pc, books, Pc.left, Pc.entries, Pc.phase]
    · exact absurd nonCs cs
  | @doneServed i fr m l out l' out' k pc taken type retried =>
    rcases requestCsTake_some taken with ⟨_, _, serves, -⟩ | ⟨-, -, rfl, -⟩
    · cases serves <;> simp_all
    · have queued : queueLookup (v.loc p).mux.queue p ≠ emptyRequestTime :=
        (h.inv.grants.standing p).mpr (by simp [image, grants, pc, Pc.phase])
      cases (requestCs_of_queued queued).symm.trans retried
      refine ⟨?_, ?_, ?_⟩
      · rw [pc]
        exact Nat.zero_add _
      · rw [done type]
        rfl
      · rw [pc]
        exact Nat.zero_add _
  | @idle i verdict l out pc found =>
    cases found
    refine ⟨?_, rfl, ?_⟩ <;> rw [pc] <;> exact Nat.zero_add _
  | @release i l out pc released =>
    obtain ⟨-, -, rfl⟩ := releaseCs_some released
    rw [pc] at range
    have pos := range.1
    refine ⟨?_, ?_, ?_⟩
    · rw [ofType_outTo_multicast child ne, pc]
      simp [Process.at_, Pc.asked, Pc.entries, Pc.phase]
    · rw [ofType_outTo_multicast child ne]
      rfl
    · rw [ofType_outTo_multicast child ne, pc]
      simp [Process.at_, books, Pc.left, Pc.entries, Pc.phase]
      omega
  | @handled fr m verdict l out pc taken cs =>
    rcases @handleCsRequests_some cfg p _ _ _ _ _ _ taken with ⟨serves, -, -⟩ | ⟨-, nonCs, -, -⟩
    · obtain ⟨requests, releases, replies⟩ := serves.booked (q := q)
      refine ⟨?_, ?_, ?_⟩
      · rw [requests, pc]
        exact Nat.zero_add _
      · rw [replies]
        exact Nat.add_comm _ _
      · rw [releases, pc]
        exact Nat.zero_add _
    · exact absurd nonCs cs
  | @doneHandled fr m l out pc' k pc finished taken type =>
    have before : (v.loc p).pc.Finished := .inl pc
    refine ⟨?_, ?_, ?_⟩
    · rw [before.asked]
      exact (Nat.zero_add _).trans (finished.asked p).symm
    · rw [done type]
      rfl
    · change _ + Pc.left p (v.loc p).pc = Pc.left p pc'
      rw [before.left, finished.left]
      exact Nat.zero_add _

end Booked

theorem balanced (r : MutexRun cfg mutex) : ∀ p q, IsChild cfg.numChildren p →
    IsChild cfg.numChildren q → q ≠ p → Balanced books cfg r.final.view r.traffic p q := by
  refine r.balanced leaves (fun _ _ => ⟨rfl, rfl⟩) fun r p q input next child qchild ne _ step => ?_
  exact (reached r).refined.booked (p := ⟨p, child⟩) ((reached r).counted p child).1 step qchild ne

/-- For every critical section that a child has asked for there is one `CS_REQUEST` to every other
child, one `CS_RELEASE` once it has left, and one `CS_REPLY` for each of the requests that the other
has taken. When all children have ended, that makes three messages for every other child in each
critical section. -/
theorem lamport_messages (r : MutexRun cfg mutex) :
    (∀ p q, IsChild cfg.numChildren p → IsChild cfg.numChildren q → q ≠ p →
      r.sentOf .csRequest p q = entriesBy p (r.observations own) +
          (if (r.final.loc p).pc.phase = .waiting then 1 else 0) ∧
        r.sentOf .csRelease p q + (if (r.final.loc p).pc.phase = .inside then 1 else 0) =
          entriesBy p (r.observations own) ∧
        r.sentOf .csReply p q = ofType .csRequest (taken r.transitions p q)) ∧
    ((∀ p, IsChild cfg.numChildren p → (r.final.loc p).pc = .exited) →
      r.csMessages = 3 * (cfg.numChildren - 1) *
        ∑ p ∈ Finset.Icc 1 cfg.numChildren, entriesBy p (r.observations own)) := by
  have counted := (reached r).counted
  constructor
  · intro p q child qchild ne
    obtain ⟨requests, replies, releases⟩ := balanced r p q child qchild ne
    obtain ⟨range, entered⟩ := counted p child
    rw [entered]
    refine ⟨requests, ?_, replies⟩
    have inside (phase : (r.final.loc p).pc.phase = .inside) :
        1 ≤ (r.final.loc p).pc.entries p := by
      rw [State.view_loc] at range
      cases pc : (r.final.loc p).pc with
      | criticalSection i =>
        rw [pc] at range
        exact range.1
      | _ => simp [pc, Pc.phase] at phase
    rw [MutexRun.sentOf, releases, State.view_loc]
    change Pc.left p (r.final.loc p).pc + _ = _
    rw [Pc.left]
    split
    next phase => have := inside phase; omega
    next => rfl
  · intro exited
    have released (p : Nat) : books.released p .exited = 1 * (5 * p) :=
      (Nat.one_mul (5 * p)).symm
    rw [r.csMessages_of_exited leaves (balanced r) exited (fun _ _ _ _ _ => rfl) released,
      r.sum_entries counted exited]

end Distra.Pa4
