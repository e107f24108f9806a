import Distra.Pa4.Taken
import Distra.Pa5.Refinement

/-!
# Requests and replies of `pa5`

Whatever a child does with a request, it answers it once: at once, or after it has put it off. So
the requests that `q` has taken from `p` are the replies that `p` has taken from `q`, those under
way, and the one put off.
-/

namespace Distra.Pa5

open Network RequestQueue Exclusion RicartAgrawala

variable {cfg : Config}

/-- The request of `a` in the queue. -/
def stored (queue : RequestQueue) (a : Nat) : Nat :=
  if queueLookup queue a = emptyRequestTime then 0 else 1

theorem stored_of_empty {queue : RequestQueue} {a : Nat}
    (empty : queueLookup queue a = emptyRequestTime) : stored queue a = 0 := if_pos empty

theorem stored_pos {queue : RequestQueue} {a : Nat} :
    0 < stored queue a ↔ queueLookup queue a ≠ emptyRequestTime := by
  unfold stored
  split <;> simp_all

theorem stored_congr {queue queue' : RequestQueue} {a : Nat}
    (same : queueLookup queue' a = queueLookup queue a) : stored queue' a = stored queue a := by
  rw [stored, stored, same]

/-- The requests of `q` that have been taken and neither put off nor answered. -/
def Matched (cfg : Config) (v : ProcessView Mux) (os : List Observation) : Prop :=
  ∀ p q, IsChild cfg.numChildren p → IsChild cfg.numChildren q → p ≠ q →
    ofType .csRequest (tookFrom q p os) =
      ofType .csReply (tookFrom p q os) + stored (v.loc q).mux.queue p +
        ofType .csReply (v.chan q p)

section Answers

variable {v : ProcessView Mux} {os : List Observation} {p : Child cfg.numChildren} {a : Nat}
  {input : Option (Nat × Message)} {next : Next Nat (Process Mux) Message}

theorem ofType_multicast {type type' : MessageType} (other : type' ≠ type) (n self t : Nat) :
    ofType type (outTo (ipcMulticastToChildren n self ⟨type', t⟩) a) = 0 := by
  rw [ofType_eq_zero]
  intro m mem
  obtain ⟨_, _, eq⟩ := List.mem_map.mp (mem_outTo.mp mem)
  cases eq
  exact other

theorem ofType_single {type : MessageType} {b : Nat} {m : Message} :
    ofType type (outTo [(b, m)] a) = if b = a ∧ m.type = type then 1 else 0 := by
  by_cases receiver : b = a
  · by_cases same : m.type = type <;> simp [outTo_cons, ofType, receiver, same]
  · simp [outTo_cons, receiver]

/-- A CS message taken by `p`, and the request of `a`. -/
theorem Refined.serves_answers (h : Refined cfg v os) {q : Child cfg.numChildren} (ne : q ≠ p)
    (child : IsChild cfg.numChildren a) {m : Message} (ready : Ready cfg v p (some (q.1, m)))
    {l' : Locals} {out : Sends} (serves : Serves p (v.loc p).locals q m l' out) :
    stored l'.mux.queue a + ofType .csReply (outTo out a) =
      stored (v.loc p).mux.queue a + ofType .csRequest (outTo [(q.1, m)] a) := by
  have none_ : ofType .csReply (outTo ([] : Sends) a) = 0 := rfl
  rw [ofType_single]
  cases serves with
  | reply type =>
    rw [none_, if_neg (by simp [type])]
    rfl
  | defer type first vacant =>
    obtain ⟨-, rest, head⟩ := childChan_taken ready (csMessage_request type)
    obtain ⟨asking, stamp, -⟩ := h.inv.head_request ne head
    have pos : m.localTime ≠ emptyRequestTime := by
      rw [stamp]
      exact (h.inv.grants.standing q).mpr (by simp [asking])
    rw [none_]
    by_cases sender : q.1 = a
    · subst sender
      have vacant : stored (v.loc p).mux.queue q = 0 := stored_of_empty vacant
      rw [if_pos ⟨rfl, type⟩, stored, queueLookup_setSlot_self, if_neg pos, vacant]
    · rw [if_neg (fun k => sender k.1)]
      exact congrArg (· + 0) (stored_congr
        (queueLookup_setSlot_ne _ _ q.2.1 child.1 (fun k => sender k.symm)))
  | answer type =>
    rw [ofType_single]
    simp [type, Process.locals]

/-- A step of `p` answers every request that it takes, or puts it off, and answers what it has put
off. -/
theorem Refined.answers (h : Refined cfg v os) (control : Control cfg v)
    (ready : Ready cfg v p input) (step : LocalStep cfg mutex p (v.loc p) input next)
    (child : IsChild cfg.numChildren a) (ne : a ≠ p.1) :
    stored next.1.mux.queue a + ofType .csReply (outTo next.2 a) =
      stored (v.loc p).mux.queue a + ofType .csRequest (outTo input.toList a) := by
  have nothing : ofType .csReply (outTo ([] : Sends) a) = 0 := rfl
  have other {q : Nat} {m : Message} (type : m.type = .done) :
      ofType .csRequest (outTo (some (q, m)).toList a) = 0 := by
    rw [Option.toList_some, ofType_single, if_neg (by simp [type])]
  cases step.mutex with
  | quiet quiet =>
    have sends : ofType .csReply (outTo next.2 a) = 0 := by
      rw [ofType_eq_zero]
      intro m mem type
      exact quiet.sends _ (mem_outTo.mp mem) (.inr (.inl type))
    have takes : ofType .csRequest (outTo input.toList a) = 0 := by
      rw [ofType_eq_zero]
      intro m mem type
      exact quiet.takes a m (Option.mem_toList.mp (mem_outTo.mp mem)) (.inl type)
    rw [quiet.mux, sends, takes]
  | request pc requested =>
    have idle : (v.loc p).pc.phase = .idle := by rw [pc]; rfl
    have vacant : queueLookup (v.loc p).locals.mux.queue p = emptyRequestTime :=
      h.inv.request_eq_zero (p := p) idle
    cases (requestCs_of_vacant vacant).symm.trans requested
    have multicast : ofType .csReply (outTo (ipcMulticastToChildren cfg.numChildren p
        ⟨.csRequest, advanceLamportTime (v.loc p).locals.lamportTime⟩) a) = 0 :=
      ofType_multicast (by simp) _ _ _
    rw [multicast]
    exact congrArg (· + 0) (stored_congr (queueLookup_setSlot_ne _ _ p.2.1 child.1 ne))
  | served pc taken cs =>
    obtain ⟨q, rfl, other⟩ := sender_child control ready
    rcases requestCsTake_some taken with ⟨l₁, out₁, serves, test⟩ | ⟨-, nonCs, -, -⟩
    · have answered := h.serves_answers other child ready serves
      unfold entryTest enterIf at test
      split at test <;> cases test <;> exact answered
    · exact absurd nonCs cs
  | doneServed pc taken type retried =>
    rcases requestCsTake_some taken with ⟨_, _, serves, -⟩ | ⟨-, -, rfl, -⟩
    · cases serves <;> simp_all
    · have queued : queueLookup (v.loc p).mux.queue p ≠ emptyRequestTime :=
        (h.inv.grants.standing p).mpr (by simp [image, grants, pc, Pc.phase])
      cases (requestCs_of_queued queued).symm.trans retried
      rw [nothing, other type]
      rfl
  | idle pc found =>
    cases found
    rfl
  | @release i l out pc released =>
    have answered := releaseCs_some released
    obtain ⟨time, sends⟩ := answered.sends
    have slot := queueLookup_setSlot_ne (v.loc p).mux.queue emptyRequestTime p.2.1 child.1 ne
    have mem : a ∈ List.range' 1 cfg.numChildren := by
      have := child.1
      have := child.2
      rw [List.mem_range'_1]
      omega
    have cleared : stored l.mux.queue a = 0 :=
      stored_of_empty ((answered.cleared a child.1).trans (if_pos mem))
    rw [Process.at_, cleared, sends a]
    simp only [mem, true_and, Process.locals, slot, Option.toList_none, outTo_nil, ofType_nil,
      stored]
    split <;> simp_all [ofType]
  | @handled q m verdict l out pc taken cs =>
    obtain ⟨q, rfl, other⟩ := sender_child control ready
    have taken := (@handleCsRequests_eq cfg p q.1 m _).symm.trans taken
    split at taken
    next type =>
      cases taken
      rw [ofType_single, Option.toList_some, ofType_single]
      simp [type, Process.at_, Process.locals]
    next =>
      cases taken
      exact absurd rfl cs
  | @doneHandled q m l out pc' k pc finished taken type =>
    have taken := (@handleCsRequests_eq cfg p q m _).symm.trans taken
    rw [if_neg (by simp [type])] at taken
    cases taken
    rw [nothing, other type]
    rfl

theorem Matched.keep (h : Matched cfg v os) (refined : Refined cfg v os)
    (control : Control cfg v) (ready : Ready cfg v p input)
    (step : LocalStep cfg mutex p (v.loc p) input next) :
    Matched cfg ((v.consume p input).become p next)
      (os ++ childEvents own p input (v.loc p) next.1) := by
  intro a b ha hb ne
  have before := h a b ha hb ne
  have popped := congrArg (ofType .csReply) (ready.chan_eq b)
  rw [ofType_append] at popped
  simp only [tookFrom_append, tookFrom_childEvents, ofType_append, View.consume_become_loc,
    View.consume_become_chan]
  by_cases asker : a = p.1
  · subst asker
    simp only [ne.symm, if_true, if_false, ofType_nil]
    omega
  · rw [if_neg asker, View.consume_chan_ne v input asker]
    by_cases peer : b = p.1
    · subst peer
      have answered := refined.answers control ready step ha asker
      simp only [if_true, ofType_nil]
      omega
    · simp only [peer, if_false, ofType_nil]
      omega

end Answers

theorem matched_initial : Matched cfg (initialState cfg mutex).view [] := by
  intro p q _ _ _
  rfl

theorem matched (r : MutexRun cfg mutex) :
    Control cfg r.final.view ∧ Counted cfg r.final.view (r.observations own) ∧
      Refined cfg r.final.view (r.observations own) ∧
        Matched cfg r.final.view (r.observations own) := by
  refine MutexRun.invariant (J := fun v os => Refined cfg v os ∧ Matched cfg v os) mutex_lawful
    own ⟨.initial, matched_initial⟩ ?_ ?_ ?_ r
  · intro v os p input control inv child ready
    exact inv.1.safe (p := ⟨p, child⟩) control ready
  · intro v os p input next control inv child ready step
    exact ⟨inv.1.keep (p := ⟨p, child⟩) control ready step,
      inv.2.keep (p := ⟨p, child⟩) inv.1 control ready step⟩
  · intro v v' os inv frame
    refine ⟨inv.1.parent frame, fun p q child qchild ne => ?_⟩
    rw [frame.loc q qchild.ne_parent, frame.chan q p child.ne_parent]
    exact inv.2 p q child qchild ne

/-! ## Every run -/

/-- A message of this type is on its way from `p` to `q`. -/
def InFlight (s : ProcessState Mux) (p q : Nat) (type : MessageType) : Prop :=
  ∃ m ∈ s.transit p q, m.type = type

/-- The `CS_REQUEST`s that `p` has sent to `q` and the `CS_REPLY`s that it has received from `q`,
after the transitions `ts` that lead to `s`. -/
structure AnsweredOnce (ts : List (Transition Nat (Process Mux) Message)) (s : ProcessState Mux)
    (p q : Nat) : Prop where
  balance : ofType .csRequest (written ts p q) = ofType .csReply (taken ts p q) ∨
    ofType .csRequest (written ts p q) = ofType .csReply (taken ts p q) + 1
  outstanding : ofType .csRequest (written ts p q) = ofType .csReply (taken ts p q) + 1 →
    ExactlyOne (InFlight s p q .csRequest) (queueContains (s.loc q).mux.queue p = true)
      (InFlight s q p .csReply)

/-- Of the request of `p`, one piece is left at most. -/
theorem Refined.single {v : ProcessView Mux} {os : List Observation} (h : Refined cfg v os)
    {p q : Nat} (child : IsChild cfg.numChildren p) (qchild : IsChild cfg.numChildren q)
    (ne : p ≠ q) :
    ofType .csRequest (v.chan p q) + stored (v.loc q).mux.queue p +
      ofType .csReply (v.chan q p) ≤ 1 := by
  have apart : (⟨p, child⟩ : Child cfg.numChildren) ≠ ⟨q, qchild⟩ :=
    fun eq => ne (congrArg Subtype.val eq)
  have single := (h.inv.link ⟨p, child⟩ ⟨q, qchild⟩ apart).single
  have out : requests ((image cfg v os).link ⟨p, child⟩ ⟨q, qchild⟩).out =
      ofType .csRequest (v.chan p q) := requests_csMessage _
  have back : replies ((image cfg v os).link ⟨p, child⟩ ⟨q, qchild⟩).back =
      ofType .csReply (v.chan q p) := replies_csMessage _
  have put : owed ((image cfg v os).link ⟨p, child⟩ ⟨q, qchild⟩).deferred =
      stored (v.loc q).mux.queue p := congrArg owed (otherSlots_of_ne apart _)
  rw [Link.pending, out, back, put] at single
  exact single

theorem answeredOnce (r : MutexRun cfg mutex) {p q : Nat} (child : IsChild cfg.numChildren p)
    (qchild : IsChild cfg.numChildren q) (ne : p ≠ q) :
    AnsweredOnce r.transitions r.final p q := by
  obtain ⟨-, -, refined, matched⟩ := matched r
  have single := refined.single child qchild ne
  have matched := matched p q child qchild ne
  have sent := congrArg (ofType .csRequest) (r.run.fifo (a := p) (b := q) rfl)
  have chan : ofType .csRequest (r.final.transit p q) =
      ofType .csRequest (r.final.chan p q) + ofType .csRequest (outTo (r.final.outbox p) q) :=
    ofType_append _ _ _
  rw [ofType_append] at sent
  rw [tookFrom_observations own r qchild.ne_parent, tookFrom_observations own r child.ne_parent]
    at matched
  simp only [State.view_loc, State.view_chan] at single matched
  constructor
  · omega
  · intro outstanding
    rw [InFlight, InFlight, ← ofType_pos, ← ofType_pos, queueContains_eq, ← stored_pos]
    apply exactlyOne_of_sum
    omega

theorem unfailing (r : MutexRun cfg mutex) : Unfailing cfg mutex r.final := by
  obtain ⟨control, -, refined, -⟩ := matched r
  exact .of_mutex control fun p child input ready => refined.safe (p := ⟨p, child⟩) control ready

/-- Every request is answered once, and no step of a child fails. -/
theorem ricart_requests_answered (r : MutexRun cfg mutex) :
    (∀ p q, IsChild cfg.numChildren p → IsChild cfg.numChildren q → p ≠ q →
      AnsweredOnce r.transitions r.final p q) ∧
      (∀ p, IsChild cfg.numChildren p →
        (r.final.loc p).mux.lastRequestReplyCount ≤ cfg.numChildren - 1) ∧
      Unfailing cfg mutex r.final := by
  obtain ⟨-, -, refined, -⟩ := matched r
  refine ⟨fun p q child qchild ne => answeredOnce r child qchild ne, fun p child => ?_,
    unfailing r⟩
  have counted := refined.counted ⟨p, child⟩
  rw [State.view_loc] at counted
  rw [counted]
  split
  · have subset : (image cfg r.final.view (r.observations own)).replied ⟨p, child⟩ ⊆
        Finset.univ.erase ⟨p, child⟩ := by
      intro q mem
      exact Finset.mem_erase.mpr ⟨(Finset.mem_filter.mp mem).2.1, Finset.mem_univ _⟩
    have card := Finset.card_le_card subset
    rwa [Finset.card_erase_of_mem (Finset.mem_univ _), Finset.card_univ, card_child] at card
  · exact Nat.zero_le _

end Distra.Pa5
