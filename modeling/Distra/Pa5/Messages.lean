import Distra.Pa4.Tallies
import Distra.Pa5.Shutdown

/-!
# Two messages for every other child

In `pa5` a reply that has been put off stands for a `CS_RELEASE`: a critical section costs a
`CS_REQUEST` and a `CS_REPLY` for every other child.
-/

namespace Distra.Pa5

open Network RequestQueue Exclusion RicartAgrawala

variable {cfg : Config}

/-- The replies that have been put off are owed, and nothing is announced. -/
def books : Books Mux := ⟨fun st q => stored st.mux.queue q, fun _ _ => 0⟩

section Sends

variable {p q : Nat} {m : Message} {verdict : Verdict} {l l' : Locals} {out : Sends}

theorem requestCs_requests (h : requestCs cfg p l = some (l', out)) :
    ∀ x ∈ out, x.2.type = .csRequest := by
  by_cases vacant : queueLookup l.mux.queue p = emptyRequestTime
  · cases (requestCs_of_vacant vacant).symm.trans h
    intro x mem
    obtain ⟨_, _, rfl⟩ := List.mem_map.mp mem
    rfl
  · cases (requestCs_of_queued vacant).symm.trans h
    exact nofun

theorem take_replies (h : requestCsTake cfg p l q m = some (verdict, l', out)) :
    ∀ x ∈ out, x.2.type = .csReply := by
  rcases requestCsTake_some h with ⟨l₁, out₁, serves, eq⟩ | ⟨-, -, -, rfl⟩
  · obtain rfl : out = out₁ := (congrArg (·.2.2) eq).trans (enterIf_sends _ _ l₁ out₁)
    cases serves with
    | reply | defer => exact nofun
    | answer => simp
  · exact nofun

theorem ofType_outTo_only {type type' : MessageType} (only : ∀ x ∈ out, x.2.type = type')
    (other : type' ≠ type) : ofType type (outTo out q) = 0 :=
  ofType_outTo_other fun x mem eq => other ((only x mem).symm.trans eq)

end Sends

section Booked

variable {v : ProcessView Mux} {os : List Observation} {p : Child cfg.numChildren} {q : Nat}
  {input : Option (Nat × Message)} {next : Next Nat (Process Mux) Message}

/-- The requests of a step are the ones that its critical section needs. -/
theorem Refined.asks (h : Refined cfg v os) (range : (v.loc p).pc.InRange p)
    (step : LocalStep cfg mutex p (v.loc p) input next) (child : IsChild cfg.numChildren q)
    (ne : q ≠ p) :
    ofType .csRequest (outTo next.2 q) + (v.loc p).pc.asked p = next.1.pc.asked p := by
  have entries := (step.entries range).2
  cases step.mutex with
  | quiet quiet =>
    have none_ : ofType .csRequest (outTo next.2 q) = 0 :=
      ofType_outTo_other fun x mem eq => quiet.sends x mem (.inl eq)
    have same : next.1.pc.entries p = (v.loc p).pc.entries p := by
      rw [entries, if_neg, Nat.add_zero]
      rw [← Pc.phase_eq_inside, ← Pc.phase_eq_inside, quiet.phase]
      exact fun both => both.1 both.2
    rw [none_, Pc.asked, Pc.asked, same, quiet.phase, Nat.zero_add]
  | @request i l out pc requested =>
    have idle : (v.loc p).pc.phase = .idle := by rw [pc]; rfl
    have vacant : queueLookup (v.loc p).locals.mux.queue p = emptyRequestTime :=
      h.inv.request_eq_zero (p := p) idle
    cases (requestCs_of_vacant vacant).symm.trans requested
    rw [ofType_outTo_multicast child ne, pc]
    simp [Process.at_, Pc.asked, Pc.entries, Pc.phase, Nat.add_comm]
  | @served i fr m verdict l out pc taken cs =>
    rw [pc] at range
    have pos := range.1
    rw [ofType_outTo_only (take_replies taken) (by decide), pc]
    cases verdict with
    | waits => exact Nat.zero_add _
    | nonCsMessageReceived => exact absurd rfl cs
    | entered =>
      simp [Process.at_, Verdict.pc, Pc.asked, Pc.entries, Pc.phase]
      omega
  | @doneServed i fr m l out l' out' k pc taken type retried =>
    rcases requestCsTake_some taken with ⟨_, _, serves, -⟩ | ⟨-, -, rfl, -⟩
    · cases serves <;> simp_all
    · have queued : queueLookup (v.loc p).mux.queue p ≠ emptyRequestTime :=
        (h.inv.grants.standing p).mpr (by simp [image, grants, pc, Pc.phase])
      cases (requestCs_of_queued queued).symm.trans retried
      rw [pc]
      exact Nat.zero_add _
  | @idle i verdict l out pc found =>
    cases found
    rw [pc]
    exact Nat.zero_add _
  | @release i l out pc released =>
    rw [ofType_outTo_only (releaseCs_some released).replies (by decide), pc]
    simp [Process.at_, Pc.asked, Pc.entries, Pc.phase]
  | @handled fr m verdict l out pc taken cs =>
    have replies := fun x mem => (@handle_replies cfg p _ _ _ _ _ _ taken x mem).2
    rw [ofType_outTo_only replies (by decide), pc]
    exact Nat.zero_add _
  | @doneHandled fr m l out pc' k pc finished taken type =>
    have before : (v.loc p).pc.Finished := .inl pc
    rw [before.asked]
    exact (Nat.zero_add _).trans (finished.asked p).symm

/-- Nobody announces that it has left. -/
theorem unreleased (step : LocalStep cfg mutex p (v.loc p) input next) :
    ofType .csRelease (outTo next.2 q) = 0 := by
  cases step.mutex with
  | quiet quiet => exact ofType_outTo_other fun x mem eq => quiet.sends x mem (.inr (.inr eq))
  | request _ requested => exact ofType_outTo_only (requestCs_requests requested) (by decide)
  | served _ taken => exact ofType_outTo_only (take_replies taken) (by decide)
  | doneServed _ _ _ retried => exact ofType_outTo_only (requestCs_requests retried) (by decide)
  | idle _ found =>
    cases found
    rfl
  | release _ released => exact ofType_outTo_only (releaseCs_some released).replies (by decide)
  | handled _ taken =>
    exact ofType_outTo_only
      (fun x mem => (@handle_replies cfg p _ _ _ _ _ _ taken x mem).2) (by decide)
  | doneHandled => rfl

theorem Refined.booked (h : Refined cfg v os) (control : Control cfg v)
    (range : (v.loc p).pc.InRange p) (ready : Ready cfg v p input)
    (step : LocalStep cfg mutex p (v.loc p) input next) (child : IsChild cfg.numChildren q)
    (ne : q ≠ p) : Booked books p q (v.loc p) input next where
  requests := h.asks range step child ne
  replies := by
    have answers := h.answers control ready step child ne
    simp only [books]
    omega
  releases := unreleased step

end Booked

theorem balanced (r : MutexRun cfg mutex) : ∀ p q, IsChild cfg.numChildren p →
    IsChild cfg.numChildren q → q ≠ p → Balanced books cfg r.final.view r.traffic p q := by
  refine r.balanced leaves (fun _ _ => ⟨rfl, rfl⟩)
    fun r p q input next child qchild ne ready step => ?_
  obtain ⟨control, counted, refined, -⟩ := matched r
  exact refined.booked (p := ⟨p, child⟩) control (counted p child).1 ready step qchild ne

/-- For every critical section that a child has asked for there is one `CS_REQUEST` to every other
child, and there is one `CS_REPLY` for each of the requests that the other has taken, but for the
one that it has put off. When all children have ended, that makes two messages for every other
child in each critical section. -/
theorem ricart_messages (r : MutexRun cfg mutex) :
    (∀ p q, IsChild cfg.numChildren p → IsChild cfg.numChildren q → q ≠ p →
      r.sentOf .csRequest p q = entriesBy p (r.observations own) +
          (if (r.final.loc p).pc.phase = .waiting then 1 else 0) ∧
        r.sentOf .csRelease p q = 0 ∧
        r.sentOf .csReply p q + (if queueContains (r.final.loc p).mux.queue q then 1 else 0) =
          ofType .csRequest (taken r.transitions p q)) ∧
    ((∀ p, IsChild cfg.numChildren p → (r.final.loc p).pc = .exited) →
      r.csMessages = 2 * (cfg.numChildren - 1) *
        ∑ p ∈ Finset.Icc 1 cfg.numChildren, entriesBy p (r.observations own)) := by
  obtain ⟨-, counted, refined, -⟩ := matched r
  constructor
  · intro p q child qchild ne
    obtain ⟨requests, replies, releases⟩ := balanced r p q child qchild ne
    rw [(counted p child).2]
    refine ⟨requests, releases, ?_⟩
    have put : (if queueContains (r.final.loc p).mux.queue q then 1 else 0) =
        stored (r.final.view.loc p).mux.queue q := by
      rw [State.view_loc, stored]
      by_cases queued : queueContains (r.final.loc p).mux.queue q = true
      · rw [if_pos queued, if_neg ((queueContains_eq _ _).mp queued)]
      · rw [if_neg queued, if_pos (not_not.mp (mt (queueContains_eq _ _).mpr queued))]
    rw [put]
    exact replies
  · intro exited
    have nothing (p q : Nat) (child : IsChild cfg.numChildren p)
        (qchild : IsChild cfg.numChildren q) (ne : q ≠ p) : books.owed (r.final.loc p) q = 0 := by
      have apart : (⟨q, qchild⟩ : Child cfg.numChildren) ≠ ⟨p, child⟩ :=
        fun eq => ne (congrArg Subtype.val eq)
      have idle : (image cfg r.final.view (r.observations own)).phase ⟨q, qchild⟩ ≠ .waiting := by
        simp [image, grants, exited q qchild, Pc.phase]
      have vacant := (Link.pending_eq_zero.mp
        ((refined.inv.link ⟨q, qchild⟩ ⟨p, child⟩ apart).settled idle)).2.1
      exact stored_of_empty ((otherSlots_of_ne apart _).symm.trans vacant)
    have released (p : Nat) : books.released p .exited = 0 * (5 * p) := (Nat.zero_mul _).symm
    rw [r.csMessages_of_exited leaves (balanced r) exited nothing released,
      r.sum_entries counted exited]

end Distra.Pa5
