import Distra.Pa4.Interruptions
import Distra.Pa5.MutexSteps

/-!
# `DONE` during `request_cs` of `pa5`

The own request is found in the queue again, and with it its time.
-/

namespace Distra

open Network RequestQueue

namespace Pa5

variable {cfg : Config} {self : Nat}

theorem shape_requestCsTake (mux : Mux) (t t' fr : Nat) (m : Message) :
    shape (requestCsTake cfg self ⟨mux, t⟩ fr m) =
      shape (requestCsTake cfg self ⟨mux, t'⟩ fr m) := by
  obtain ⟨type, time⟩ := m
  cases type with
  | csReply => exact shape_enterIf rfl rfl
  | csRequest =>
    simp only [requestCsTake]
    split
    next =>
      cases enqueueRequest mux.queue fr time with
      | none => rfl
      | some queue => exact shape_enterIf rfl rfl
    next => exact shape_enterIf rfl rfl
  | _ => rfl

theorem Serves.writes {l l' : Locals} {fr : Nat} {m : Message} {out : Sends}
    (h : Serves self l fr m l' out) : Writes fr l.mux.queue l'.mux.queue ∧ csRequests out = [] := by
  cases h with
  | reply | answer => exact ⟨.nothing, rfl⟩
  | defer => exact ⟨.slot _, rfl⟩

theorem unclocked (child : 1 ≤ self) : Unclocked cfg mutex Mux.queue self where
  first l vacant := by
    refine ⟨_, requestCs_of_vacant vacant, ?_⟩
    rw [queueLookup_setSlot_self]
    exact Nat.succ_ne_zero _
  again mux t queued := ⟨_, requestCs_of_queued queued⟩
  done l fr m isDone := by
    obtain ⟨type, time⟩ := m
    cases isDone
    exact ⟨_, rfl⟩
  take := shape_requestCsTake
  keeps {l fr m verdict l' out} take sender ne queued := by
    rcases requestCsTake_some take with ⟨l₁, out₁, serves, eq⟩ | ⟨-, -, rfl, rfl⟩
    · obtain ⟨writes, silent⟩ := serves.writes
      obtain rfl : out = out₁ := (congrArg (·.2.2) eq).trans (enterIf_sends _ _ l₁ out₁)
      have queue : l'.mux.queue = l₁.mux.queue :=
        (congrArg (·.2.1.mux.queue) eq).trans (entryTest_queue l₁ out)
      rw [queue, writes.own child sender ne]
      exact ⟨queued, silent⟩
    · exact ⟨queued, rfl⟩

end Pa5

/-- The `DONE`s that come during `request_cs` change nothing but the clock, in `pa4` and `pa5`. -/
theorem done_transparent (cfg : Config) :
    DoneTransparent cfg Pa4.mutex Pa4.Mux.queue ∧ DoneTransparent cfg Pa5.mutex Pa5.Mux.queue :=
  ⟨Unclocked.transparent fun _ child => Pa4.unclocked child,
    Unclocked.transparent fun _ child => Pa5.unclocked child⟩

theorem done_transparent_twoChildren :
    SameOutcome
        (requestCsRun ⟨2, 15, by decide, by decide⟩ Pa5.mutex 1 4
          ⟨.iteration 4, 3, ⟨zeroed, 0⟩, 1⟩ [(2, ⟨.done, 5⟩), (2, ⟨.csReply, 7⟩)])
        (requestCsRun ⟨2, 15, by decide, by decide⟩ Pa5.mutex 1 4
          ⟨.iteration 4, 3, ⟨zeroed, 0⟩, 1⟩ [(2, ⟨.csReply, 7⟩)]) ∧
      (requestCsRun ⟨2, 15, by decide, by decide⟩ Pa5.mutex 1 4
        ⟨.iteration 4, 3, ⟨zeroed, 0⟩, 1⟩ [(2, ⟨.csReply, 7⟩)]).process.pc =
          .criticalSection 4 :=
  ⟨((done_transparent ⟨2, 15, by decide, by decide⟩).2 1 4 ⟨.iteration 4, 3, ⟨zeroed, 0⟩, 1⟩
    [(2, ⟨.done, 5⟩), (2, ⟨.csReply, 7⟩)] le_rfl rfl (by decide)).1, by decide⟩

end Distra
