import Distra.Pa4.Control
import Distra.Pa4.Mutex

/-!
# The functions of `pa4/mutex.c`, case by case
-/

namespace Distra.Pa4

open Network RequestQueue

variable {cfg : Config}

/-- What the three CS messages do, and the reply. -/
inductive Serves (l : Locals) (fr : Nat) (m : Message) : Locals → Sends → Prop
  | reply : m.type = .csReply →
      Serves l fr m ⟨{ l.mux with lastRequestReplyCount := l.mux.lastRequestReplyCount + 1 },
        synchronizeTime m.localTime l.lamportTime⟩ []
  | request : m.type = .csRequest → queueLookup l.mux.queue fr = emptyRequestTime →
      Serves l fr m ⟨{ l.mux with queue := l.mux.queue.setSlot fr m.localTime },
          advanceLamportTime (synchronizeTime m.localTime l.lamportTime)⟩
        [(fr, ⟨.csReply, advanceLamportTime (synchronizeTime m.localTime l.lamportTime)⟩)]
  | release : m.type = .csRelease → queueLookup l.mux.queue fr ≠ emptyRequestTime →
      Serves l fr m ⟨{ l.mux with queue := l.mux.queue.setSlot fr emptyRequestTime },
        synchronizeTime m.localTime l.lamportTime⟩ []

/-- A message that the queue does not allow. -/
def Rejects (l : Locals) (fr : Nat) (m : Message) : Prop :=
  (m.type = .csRequest ∧ queueLookup l.mux.queue fr ≠ emptyRequestTime) ∨
    (m.type = .csRelease ∧ queueLookup l.mux.queue fr = emptyRequestTime)

section Specs

variable {self fr : Nat} {m : Message} {l l' : Locals} {out : Sends} {verdict : Verdict}

theorem requestCs_of_queued (queued : queueLookup l.mux.queue self ≠ emptyRequestTime) :
    requestCs cfg self l =
      some ({ l with lamportTime := advanceLamportTime l.lamportTime }, []) := by
  simp [requestCs, (queueContains_eq _ _).mpr queued]

theorem requestCs_of_vacant (vacant : queueLookup l.mux.queue self = emptyRequestTime) :
    requestCs cfg self l =
      some (⟨{ l.mux with queue := l.mux.queue.setSlot self (advanceLamportTime l.lamportTime) },
          advanceLamportTime l.lamportTime⟩,
        ipcMulticastToChildren cfg.numChildren self
          ⟨.csRequest, advanceLamportTime l.lamportTime⟩) := by
  have absent := mt (queueContains_eq l.mux.queue self).mp (by simpa using vacant)
  have enqueued :=
    (enqueueRequest_eq_some (t := advanceLamportTime l.lamportTime)).mpr ⟨vacant, rfl⟩
  simp [requestCs, absent, enqueued]

theorem answerRequest_eq_some {t : Nat} :
    answerRequest l fr t = some (l', out) ↔
      queueLookup l.mux.queue fr = emptyRequestTime ∧
        l' = ⟨{ l.mux with queue := l.mux.queue.setSlot fr t }, advanceLamportTime l.lamportTime⟩ ∧
        out = [(fr, ⟨.csReply, advanceLamportTime l.lamportTime⟩)] := by
  by_cases vacant : queueLookup l.mux.queue fr = emptyRequestTime
  · simp [answerRequest, enqueueRequest_eq_some.mpr ⟨vacant, rfl⟩, vacant, eq_comm]
  · have : enqueueRequest l.mux.queue fr t = none := by
      simp [enqueueRequest, (queueContains_eq _ _).mpr vacant]
    simp [answerRequest, this, vacant]

theorem requestCsTake_some (h : requestCsTake cfg self l fr m = some (verdict, l', out)) :
    (∃ l₁ out₁, Serves l fr m l₁ out₁ ∧ (verdict, l', out) = entryTest cfg self l₁ out₁) ∨
      ¬m.type.IsCs ∧ verdict = .nonCsMessageReceived ∧ l' = l.received m ∧ out = [] := by
  obtain ⟨type, time⟩ := m
  cases type
  case csRequest =>
    obtain ⟨⟨l₁, out₁⟩, answered, rest⟩ := Option.bind_eq_some_iff.mp h
    obtain ⟨vacant, rfl, rfl⟩ := answerRequest_eq_some.mp answered
    exact .inl ⟨_, _, .request rfl vacant, (Option.some.inj rest).symm⟩
  case csReply => exact .inl ⟨_, _, .reply rfl, (Option.some.inj h).symm⟩
  case csRelease =>
    obtain ⟨queue, released, rest⟩ := Option.bind_eq_some_iff.mp h
    obtain ⟨queued, rfl⟩ := releaseRequest_eq_some.mp released
    exact .inl ⟨_, _, .release rfl queued, (Option.some.inj rest).symm⟩
  all_goals
    cases h
    exact .inr ⟨by simp [MessageType.IsCs], rfl, rfl, rfl⟩

theorem requestCsTake_none (h : requestCsTake cfg self l fr m = none) : Rejects l fr m := by
  obtain ⟨type, time⟩ := m
  cases type
  case csRequest =>
    refine .inl ⟨rfl, fun vacant => ?_⟩
    simp [requestCsTake, answerRequest, enqueueRequest_eq_some.mpr ⟨vacant, rfl⟩] at h
  case csRelease =>
    refine .inr ⟨rfl, ?_⟩
    by_contra queued
    simp [requestCsTake, releaseRequest_eq_some.mpr ⟨queued, rfl⟩] at h
  all_goals simp [requestCsTake] at h

theorem handleCsRequests_some (h : handleCsRequests cfg self l fr m = some (verdict, l', out)) :
    (Serves l fr m l' out ∧ m.type ≠ .csReply ∧ verdict = .waits) ∨
      (m.type = .csReply ∨ ¬m.type.IsCs) ∧ verdict = .nonCsMessageReceived ∧
        l' = l.received m ∧ out = [] := by
  obtain ⟨type, time⟩ := m
  cases type
  case csRequest =>
    obtain ⟨⟨l₁, out₁⟩, answered, rest⟩ := Option.bind_eq_some_iff.mp h
    obtain ⟨vacant, rfl, rfl⟩ := answerRequest_eq_some.mp answered
    cases rest
    exact .inl ⟨.request rfl vacant, by simp, rfl⟩
  case csRelease =>
    obtain ⟨queue, released, rest⟩ := Option.bind_eq_some_iff.mp h
    obtain ⟨queued, rfl⟩ := releaseRequest_eq_some.mp released
    cases rest
    exact .inl ⟨.release rfl queued, by simp, rfl⟩
  all_goals
    cases h
    exact .inr ⟨by simp [MessageType.IsCs], rfl, rfl, rfl⟩

theorem handleCsRequests_none (h : handleCsRequests cfg self l fr m = none) : Rejects l fr m := by
  obtain ⟨type, time⟩ := m
  cases type
  case csRequest =>
    refine .inl ⟨rfl, fun vacant => ?_⟩
    simp [handleCsRequests, answerRequest, enqueueRequest_eq_some.mpr ⟨vacant, rfl⟩] at h
  case csRelease =>
    refine .inr ⟨rfl, ?_⟩
    by_contra queued
    simp [handleCsRequests, releaseRequest_eq_some.mpr ⟨queued, rfl⟩] at h
  all_goals simp [handleCsRequests] at h

theorem releaseCs_some (h : releaseCs cfg self l = some (l', out)) :
    queueLookup l.mux.queue self ≠ emptyRequestTime ∧
      l' = ⟨{ l.mux with queue := l.mux.queue.setSlot self emptyRequestTime },
        advanceLamportTime l.lamportTime⟩ ∧
      out = ipcMulticastToChildren cfg.numChildren self
        ⟨.csRelease, advanceLamportTime l.lamportTime⟩ := by
  obtain ⟨queue, released, rest⟩ := Option.bind_eq_some_iff.mp h
  obtain ⟨queued, rfl⟩ := releaseRequest_eq_some.mp released
  cases rest
  exact ⟨queued, rfl, rfl⟩

theorem releaseCs_none (h : releaseCs cfg self l = none) :
    queueLookup l.mux.queue self = emptyRequestTime := by
  by_contra queued
  simp [releaseCs, releaseRequest_eq_some.mpr ⟨queued, rfl⟩] at h

theorem Serves.sends (h : Serves l fr m l' out) : CsSends out := by
  cases h <;> simp [CsSends, MessageType.IsCs]

theorem entryTest_queue (self : Nat) (l : Locals) (out : Sends) :
    (entryTest cfg self l out).2.1.mux.queue = l.mux.queue :=
  enterIf_keeps _ _ l out Mux.queue fun _ => rfl

end Specs

theorem multicast_sends (self : Nat) {m : Message} (cs : m.type.IsCs) :
    CsSends (ipcMulticastToChildren cfg.numChildren self m) := by
  intro x hx
  obtain ⟨_, _, rfl⟩ := List.mem_map.mp hx
  exact cs

theorem mutex_lawful : mutex.Lawful where
  requestCs_sends {cfg p l l' out} h := by
    change requestCs cfg p l = _ at h
    by_cases queued : queueLookup l.mux.queue p = emptyRequestTime
    · rw [requestCs_of_vacant queued] at h
      cases h
      exact multicast_sends p (.inl rfl)
    · rw [requestCs_of_queued queued] at h
      cases h
      simp [CsSends]
  take_sends h := by
    rcases requestCsTake_some h with ⟨l₁, out₁, serves, eq⟩ | ⟨-, -, -, rfl⟩
    · obtain rfl : _ = out₁ := (congrArg (fun x => x.2.2) eq).trans (enterIf_sends _ _ l₁ out₁)
      exact serves.sends
    · simp [CsSends]
  empty_sends h := by
    cases h
    simp [CsSends]
  release_sends h := by
    obtain ⟨-, -, rfl⟩ := releaseCs_some h
    exact multicast_sends _ (.inr (.inr rfl))
  handle_sends {cfg p _ _ _ _ _ _} h := by
    rcases @handleCsRequests_some cfg p _ _ _ _ _ _ h with ⟨serves, -, -⟩ | ⟨-, -, -, rfl⟩
    · exact serves.sends
    · simp [CsSends]
  take_done isDone h := by
    rcases requestCsTake_some h with ⟨_, _, serves, -⟩ | ⟨-, rfl, -, -⟩
    · cases serves <;> simp_all
    · rfl
  handle_done {cfg p _ _ _ _ _ _} isDone h := by
    rcases @handleCsRequests_some cfg p _ _ _ _ _ _ h with ⟨serves, -, -⟩ | ⟨-, rfl, -, -⟩
    · cases serves <;> simp_all
    · rfl

end Distra.Pa4
