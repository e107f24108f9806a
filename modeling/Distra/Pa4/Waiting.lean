import Distra.Pa4.Messages
import Distra.Pa4.Overtaking

/-!
# Bounded waiting in `pa4`

While a child waits, every other one enters its critical section twice at most. The first time it
may have the answer to a request that was made before the waiting child asked. For the next one it
needs an answer that is behind the request of the waiting child, so it has heard of that request.
-/

namespace Distra

open Network Exclusion Relation

variable {μ : Type} {cfg : Config} {M : MutexCode μ} {lookup : Nat → μ → Nat} {B : Books μ}

/-- A run that goes on. -/
def MutexRun.extend (r : MutexRun cfg M) {ts : List (Transition Nat (Process μ) Message)}
    {s : ProcessState μ} (run : Run (spawnChildren cfg M true) r.final ts s) : MutexRun cfg M :=
  ⟨r.transitions ++ ts, s, r.run.trans run⟩

/-- While a child waits, every other one enters `k` times at most. -/
def BoundedWaiting (cfg : Config) (M : MutexCode μ) (own : Nat → Process μ → Nat) (k : Nat) :
    Prop :=
  ∀ (r : MutexRun cfg M) ts s, Run (spawnChildren cfg M true) r.final ts s →
    ∀ i j, IsChild cfg.numChildren i → IsChild cfg.numChildren j → i ≠ j →
      (r.final.loc i).pc.phase = .waiting → entriesBy i (observe (events own) ts) = 0 →
        entriesBy j (observe (events own) ts) ≤ k

/-- What a waiting child relies on. -/
structure MutexCode.Waits (M : MutexCode μ) (cfg : Config) (lookup : Nat → μ → Nat)
    (B : Books μ) : Prop where
  leaves : M.Leaves cfg
  stamps : M.Stamps cfg lookup
  counted : ∀ r : MutexRun cfg M,
    Counted cfg r.final.view (r.observations fun p st => lookup p st.mux)
  inv : ∀ r : MutexRun cfg M,
    (grants cfg (fun p st => lookup p st.mux) r.final.view
      (r.observations fun p st => lookup p st.mux)).Inv
  balanced : ∀ (r : MutexRun cfg M) p q, IsChild cfg.numChildren p → IsChild cfg.numChildren q →
    q ≠ p → Balanced B cfg r.final.view r.traffic p q
  /-- What is left of the request of `p` to `q`. -/
  pends : ∀ (r : MutexRun cfg M) (p q : Child cfg.numChildren), p ≠ q →
    ofType .csRequest (r.final.view.chan p q) + B.owed (r.final.view.loc q) p +
      ofType .csReply (r.final.view.chan q p) ≤
        if (r.final.view.loc p).pc.phase = .waiting then 1 else 0
  heard : ∀ (r : MutexRun cfg M) (p q : Child cfg.numChildren), p ≠ q →
    (r.final.view.loc p).pc.phase = .waiting → ofType .csRequest (r.final.view.chan p q) = 0 →
      lookup p (r.final.view.loc p).mux ≤ (r.final.view.loc q).lamportTime

section Waits

variable (waits : M.Waits cfg lookup B) {i j : Child cfg.numChildren}
include waits

/-- Every entry has had an answer from every other child. -/
theorem MutexRun.entries_le_replies (r : MutexRun cfg M) (ne : i ≠ j) :
    (r.final.view.loc j).pc.entries j ≤ ofType .csReply (r.traffic.taken j i) := by
  have apart : i.1 ≠ j.1 := fun k => ne (Subtype.ext k)
  have requests := (waits.balanced r j i j.2 i.2 apart).requests
  have replies := (waits.balanced r i j i.2 j.2 apart.symm).replies
  have pends := waits.pends r j i ne.symm
  rw [r.sent_eq, ofType_append, Pc.asked] at requests
  rw [r.sent_eq, ofType_append] at replies
  omega

variable (r : MutexRun cfg M) {ts : List (Transition Nat (Process μ) Message)}
  {s : ProcessState μ} (run : Run (spawnChildren cfg M true) r.final ts s)

include run

omit waits in
theorem MutexRun.observations_extend (own : Nat → Process μ → Nat) :
    (r.extend run).observations own = r.observations own ++ observe (events own) ts :=
  List.flatMap_append

/-- The entries of a run that goes on. -/
theorem MutexRun.entries_extend {p : Nat} (child : IsChild cfg.numChildren p) :
    (s.view.loc p).pc.entries p = (r.final.view.loc p).pc.entries p +
      entriesBy p (observe (events fun p st => lookup p st.mux) ts) := by
  have before := (waits.counted r p child).2
  have after := (waits.counted (r.extend run) p child).2
  rw [r.observations_extend run, entriesBy_append, before] at after
  exact after.symm

/-- A child waits until it enters. -/
theorem MutexRun.still_waiting (ne : i ≠ j) (waiting : (r.final.view.loc i).pc.phase = .waiting)
    (still : entriesBy i (observe (events fun p st => lookup p st.mux) ts) = 0) :
    (s.view.loc i).pc.phase = .waiting := by
  have apart : i.1 ≠ j.1 := fun k => ne (Subtype.ext k)
  have asks := r.entries_extend waits run i.2
  have requests := (waits.balanced r i j i.2 j.2 apart.symm).requests
  have requests' := (waits.balanced (r.extend run) i j i.2 j.2 apart.symm).requests
  have final : (r.extend run).final = s := rfl
  obtain ⟨more, sent⟩ := run.sent_prefix r.transitions i.1 j.1
  have sent : (r.extend run).traffic.sent i j = r.traffic.sent i j ++ more := sent.symm
  rw [Pc.asked, waiting, if_pos rfl] at requests
  rw [sent, List.map_append, ofType_append, requests, Pc.asked, final, asks, still] at requests'
  by_contra idle
  rw [if_neg idle] at requests'
  omega

/-- As long as `j` has not taken the request of `i`, all that it has taken from `i` was sent before
the request, and so it has had one answer at most since then. -/
theorem MutexRun.entries_of_unheard (ne : i ≠ j)
    (waiting : (r.final.view.loc i).pc.phase = .waiting)
    (still : entriesBy i (observe (events fun p st => lookup p st.mux) ts) = 0)
    (pending : 0 < ofType .csRequest (s.view.chan i j)) :
    entriesBy j (observe (events fun p st => lookup p st.mux) ts) ≤ 1 := by
  have apart : i.1 ≠ j.1 := fun k => ne (Subtype.ext k)
  have final : (r.extend run).final = s := rfl
  have asks := r.entries_extend waits run i.2
  have enters := r.entries_extend waits run j.2
  have answers := (r.extend run).entries_le_replies waits ne
  have requests := (waits.balanced r i j i.2 j.2 apart.symm).requests
  have requests' := (waits.balanced (r.extend run) i j i.2 j.2 apart.symm).requests
  have replies := (waits.balanced r i j i.2 j.2 apart.symm).replies
  have peerRequests := (waits.balanced r j i j.2 i.2 apart).requests
  rw [Pc.asked, waiting, if_pos rfl] at requests
  rw [Pc.asked, final, r.still_waiting waits run ne waiting still, if_pos rfl, asks, still]
    at requests'
  rw [r.sent_eq, ofType_append, Pc.asked] at peerRequests
  -- The request of `i` had been sent when `r` ended, and no other one has been sent since.
  obtain ⟨more, sent⟩ := run.sent_prefix r.transitions i.1 j.1
  have sent : (r.extend run).traffic.sent i j = r.traffic.sent i j ++ more := sent.symm
  rw [sent, List.map_append, ofType_append, requests, Nat.add_eq_left] at requests'
  have split_ := (r.extend run).sent_eq i j
  rw [sent, List.map_append] at split_
  rcases List.append_eq_append_iff.mp split_.symm with ⟨rest, earlier, -⟩ | ⟨rest, -, later⟩
  · rw [earlier, ofType_append] at replies
    rw [final] at answers
    have once : (if (r.final.view.loc j).pc.phase = .waiting then 1 else 0) ≤ 1 :=
      ite_le_one le_rfl (Nat.zero_le 1)
    omega
  · rw [later, ofType_append] at requests'
    exact absurd (Nat.add_eq_zero_iff.mp requests').2 pending.ne'

end Waits

/-- A step that the children do not notice, or one of theirs. -/
theorem MutexRun.next_cases (leaves : M.Leaves cfg) (own : Nat → Process μ → Nat)
    (r : MutexRun cfg M) {e : Event Nat Message} {s' : ProcessState μ}
    (step : Step (spawnChildren cfg M true) r.final e s') :
    (ParentFrame r.final.view s'.view ∧ events own r.final.view e s'.view = []) ∨
      ∃ (p : Child cfg.numChildren) (input : Option (Nat × Message))
        (next : Next Nat (Process μ) Message), Ready cfg r.final.view p input ∧
          LocalStep cfg M p (r.final.view.loc p) input next ∧
          s'.view = (r.final.view.consume p input).become p next ∧
          events own r.final.view e s'.view =
            childEvents own p input (r.final.view.loc p) next.1 := by
  rcases step.view with ⟨same, p, q, m, rfl⟩ | move
  · rw [same]
    exact .inl ⟨⟨fun _ _ => rfl, fun _ _ _ => rfl⟩, events_silent own _ p q m⟩
  · by_cases isParent : e.actor = parentId
    · exact .inl ⟨parent_move move isParent, if_pos isParent⟩
    · obtain ⟨child, ready, ⟨next, step, after⟩ | fails⟩ := child_move move isParent
      · refine .inr ⟨⟨e.actor, child⟩, e.input, next, ready, step, after, ?_⟩
        rw [events, if_neg isParent, after, View.consume_become_loc, if_pos rfl]
      · exact absurd fails ((leaves.unfailing r).safe _ child _ ready)

/-- Either `j` has not taken the request of `i`, or it has heard of it and enters at most once from
then on. -/
theorem MutexRun.unheard_or_watch (waits : M.Waits cfg lookup B) (r : MutexRun cfg M)
    {i j : Child cfg.numChildren} (ne : i ≠ j)
    (waiting : (r.final.view.loc i).pc.phase = .waiting)
    {ts : List (Transition Nat (Process μ) Message)} {s : ProcessState μ}
    (run : Run (spawnChildren cfg M true) r.final ts s)
    (still : entriesBy i (observe (events fun p st => lookup p st.mux) ts) = 0) :
    0 < ofType .csRequest (s.view.chan i j) ∨
      (grants cfg (fun p st => lookup p st.mux) s.view
        ((r.extend run).observations fun p st => lookup p st.mux)).Watch i j
          (entriesBy j (r.observations fun p st => lookup p st.mux) + 2) := by
  induction run with
  | nil =>
    rw [r.observations_extend, observe, List.flatMap_nil, List.append_nil]
    rcases Nat.eq_zero_or_pos (ofType .csRequest (r.final.view.chan i j)) with heard | pending
    · have watch := Grants.Watch.start
        (s := grants cfg (fun p st => lookup p st.mux) r.final.view
          (r.observations fun p st => lookup p st.mux)) waiting (waits.heard r i j ne waiting heard)
      rw [entries_grants] at watch
      exact .inr (watch.mono (Nat.le_succ _))
    · exact .inl pending
  | @snoc ts s e s' run step ih =>
    obtain ⟨before, now⟩ : entriesBy i (observe (events fun p st => lookup p st.mux) ts) = 0 ∧
        entriesBy i (events (fun p st => lookup p st.mux) s.view e s'.view) = 0 := by
      rwa [observe_snoc, entriesBy_append, Nat.add_eq_zero_iff] at still
    have waiting' := r.still_waiting waits (run.snoc step) ne waiting still
    have inv := waits.inv (r.extend run)
    have inv' := waits.inv (r.extend (run.snoc step))
    have after := r.observations_extend (run.snoc step) fun p st => lookup p st.mux
    rw [observe_snoc, ← List.append_assoc, ← r.observations_extend run] at after
    rw [after] at inv' ⊢
    have cases_ := (r.extend run).next_cases waits.leaves (fun p st => lookup p st.mux) step
    simp only [show (r.extend run).final = s from rfl,
      show (r.extend (run.snoc step)).final = s' from rfl] at cases_ inv inv'
    rcases cases_ with ⟨frame, none_⟩ | ⟨p, input, next, ready, local_, view, some_⟩
    · simp only [none_, List.append_nil, grants_parent _ _ frame]
      exact (ih before).imp_left fun pending => by rwa [frame.chan i j j.2.ne_parent]
    rcases Nat.eq_zero_or_pos (ofType .csRequest (s'.view.chan i j)) with taken | pending
    swap
    · exact .inl pending
    have heard := waits.heard (r.extend (run.snoc step)) i j ne waiting' taken
    rw [show (r.extend (run.snoc step)).final = s' from rfl] at heard
    rw [some_] at now inv' ⊢
    rw [view] at waiting' heard inv' ⊢
    refine .inr ?_
    rcases ih before with unheard | watch
    · -- `j` takes the request of `i` in this step.
      refine watch_heard (fun p st => lookup p st.mux) waiting' heard ?_
      rw [r.observations_extend run, entriesBy_append]
      exact Nat.add_le_add_left (r.entries_of_unheard waits run ne waiting before unheard) _
    · have sender (q m) (taken : input = some (q, m)) : IsChild cfg.numChildren q ∧ q ≠ p := by
        subst taken
        exact ((r.extend run).controlled waits.leaves).sender_child p.2 ready
      have moves := local_.mutex.moves waits.stamps (inv.standing p) sender
      refine watch.steps (moves.steps inv inv') ?_
      rw [entries_grants, entries_grants, entriesBy_append, now]
      rfl

theorem boundedWaiting (waits : M.Waits cfg lookup B) :
    BoundedWaiting cfg M (fun p st => lookup p st.mux) 2 := by
  intro r ts s run i j hi hj ne waiting still
  have apart : (⟨i, hi⟩ : Child cfg.numChildren) ≠ ⟨j, hj⟩ := fun k => ne (congrArg Subtype.val k)
  rcases r.unheard_or_watch waits apart waiting run still with pending | watch
  · exact (r.entries_of_unheard waits run apart waiting still pending).trans (Nat.le_succ 1)
  · have bound := (Nat.le_add_right _ _).trans watch.bound
    rw [entries_grants, r.observations_extend run, entriesBy_append] at bound
    exact Nat.le_of_add_le_add_left bound

end Distra

namespace Distra.Pa4

open Network RequestQueue Exclusion

variable {cfg : Config}

section Refined

variable {v : ProcessView Mux} {os : List Observation} (h : Refined cfg v os)
  {p q : Child cfg.numChildren}
include h

/-- Of the request of `p`, one piece is left at most, and only while it waits. -/
theorem Refined.pends (ne : p ≠ q) : ofType .csRequest (v.chan p q) + ofType .csReply (v.chan q p) ≤
    if (v.loc p).pc.phase = .waiting then 1 else 0 := by
  have link := h.inv.link p q ne
  have out : requests ((image cfg v os).link p q).out = ofType .csRequest (v.chan p q) :=
    requests_csMessage _
  have back : replies ((image cfg v os).link p q).back = ofType .csReply (v.chan q p) :=
    replies_csMessage _
  rw [← out, ← back]
  split
  next => exact link.single
  next still =>
    obtain ⟨noRequest, noReply⟩ := link.settled still
    rw [noRequest, noReply]

theorem Refined.heard (ne : p ≠ q) (waiting : (v.loc p).pc.phase = .waiting)
    (taken : ofType .csRequest (v.chan p q) = 0) : own p (v.loc p) ≤ (v.loc q).lamportTime := by
  have active : (image cfg v os).phase p ≠ .idle := by simp [image, grants, waiting]
  exact ((h.inv.link p q ne).later active ((requests_csMessage _).trans taken)).1.le

end Refined

theorem waits : mutex.Waits cfg (fun p mux => queueLookup mux.queue p) books where
  leaves := leaves
  stamps := mutex_stamps
  counted r := (reached r).counted
  inv r := (reached r).refined.inv.grants
  balanced := balanced
  pends r _ _ ne := (reached r).refined.pends ne
  heard r _ _ ne waiting taken := (reached r).refined.heard ne waiting taken

/-- While a child waits, every other child enters its critical section twice at most. -/
theorem lamport_bounded_waiting (cfg : Config) : BoundedWaiting cfg mutex own 2 :=
  boundedWaiting waits

end Distra.Pa4
