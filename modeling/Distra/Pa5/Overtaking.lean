import Distra.Pa4.Overtaking
import Distra.Pa5.Interruptions
import Distra.Pa5.Refinement

/-!
# Overtaking in `pa5`
-/

namespace Distra.Pa5

open Network RequestQueue Exclusion

variable {cfg : Config}

theorem Serves.heard {self : Nat} {l l' : Locals} {fr : Nat} {m : Message} {out : Sends}
    (h : Serves self l fr m l' out) : max l.lamportTime m.localTime ≤ l'.lamportTime := by
  cases h with
  | reply | defer => exact l.received_heard m
  | answer => exact (l.received_heard m).trans (lt_advanceLamportTime _).le

theorem mutex_stamps : mutex.Stamps cfg (fun p mux => queueLookup mux.queue p) where
  first {p l l' out} requested vacant := by
    cases (requestCs_of_vacant vacant).symm.trans requested
    exact ⟨lt_advanceLamportTime _, queueLookup_setSlot_self _ _ _⟩
  again {p l l' out} requested queued := by
    cases (requestCs_of_queued queued).symm.trans requested
    exact ⟨le_rfl, rfl⟩
  take {p l q m verdict l' out} child sender ne taken := by
    rcases requestCsTake_some taken with ⟨l₁, out₁, serves, test⟩ | ⟨-, -, rfl, -⟩
    · obtain rfl : l' = _ := congrArg (fun x => x.2.1) test
      exact ⟨serves.heard.trans_eq (enterIf_clock _ _ _ _).symm,
        (congrArg (queueLookup · p) (entryTest_queue l₁ out₁)).trans
          (serves.writes.1.own child.1 sender.1 ne)⟩
    · exact ⟨l.received_heard m, rfl⟩
  empty found := by
    cases found
    exact ⟨le_rfl, rfl⟩
  release released := (releaseCs_some released).later
  handle {p l q m verdict l' out} taken := by
    have handled := (@handleCsRequests_eq cfg p q m l).symm.trans taken
    split at handled
    · cases handled
      exact (l.received_heard m).trans (lt_advanceLamportTime _).le
    · cases handled
      exact l.received_heard m

/-- A request is only on its way while its child waits with it. -/
theorem Refined.asked {v : ProcessView Mux} {os : List Observation} (h : Refined cfg v os)
    {p i : Child cfg.numChildren} {m : Message} {rest : List Message} (ne : i ≠ p)
    (head : v.chan i p = m :: rest) (type : m.type = .csRequest) :
    (v.loc i).pc.phase = .waiting ∧ queueLookup (v.loc i).mux.queue i = m.localTime := by
  have first : childChan csMessage cfg v i p =
      .request m.localTime :: rest.filterMap csMessage := by
    simp [childChan, head, csMessage_request type]
  obtain ⟨waiting, stamp, -⟩ := h.inv.head_request ne first
  exact ⟨waiting, stamp.symm⟩

theorem ricart_bounded_overtaking (r : MutexRun cfg mutex) :
    BoundedOvertaking cfg.numChildren (r.observations own) := by
  have all := MutexRun.invariant mutex_lawful own
    (J := fun v os => Refined cfg v os ∧ Overtaken cfg own v os)
    ⟨Refined.initial, .initial⟩
    (fun v os p input control inv child ready => inv.1.safe (p := ⟨p, child⟩) control ready)
    (fun v os p input next control inv child ready step => by
      have after := inv.1.keep (p := ⟨p, child⟩) control ready step
      refine ⟨after, ?_⟩
      exact inv.2.keep (p := ⟨p, child⟩) mutex_stamps control inv.1.inv.grants after.inv.grants
        (fun i m rest ne head type => inv.1.asked ne head type) ready step)
    (fun v v' os inv frame => ⟨inv.1.parent frame, inv.2.parent frame⟩) r
  exact all.2.2.2.once

end Distra.Pa5
