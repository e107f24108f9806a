import Distra.Pa4.Control
import Distra.Pa5.Mutex

/-!
# The functions of `pa5/mutex.c`, case by case
-/

namespace Distra.Pa5

open Network RequestQueue

variable {cfg : Config}

/-- The own request comes before the one that `m` carries from `fr`. -/
def OwnFirst (self : Nat) (l : Locals) (fr : Nat) (m : Message) : Prop :=
  queueLookup l.mux.queue self < m.localTime ∨
    queueLookup l.mux.queue self = m.localTime ∧ self < fr

/-- What a CS message does while the own request stands, and the answer. -/
inductive Serves (self : Nat) (l : Locals) (fr : Nat) (m : Message) : Locals → Sends → Prop
  | reply : m.type = .csReply →
      Serves self l fr m
        ⟨{ l.mux with lastRequestReplyCount := l.mux.lastRequestReplyCount + 1 },
          synchronizeTime m.localTime l.lamportTime⟩ []
  | defer : m.type = .csRequest → OwnFirst self l fr m →
      queueLookup l.mux.queue fr = emptyRequestTime →
      Serves self l fr m ⟨{ l.mux with queue := l.mux.queue.setSlot fr m.localTime },
        synchronizeTime m.localTime l.lamportTime⟩ []
  | answer : m.type = .csRequest → ¬OwnFirst self l fr m →
      Serves self l fr m ⟨l.mux, advanceLamportTime (synchronizeTime m.localTime l.lamportTime)⟩
        [(fr, ⟨.csReply, advanceLamportTime (synchronizeTime m.localTime l.lamportTime)⟩)]

section Specs

variable {self fr : Nat} {m : Message} {l l' : Locals} {out : Sends} {verdict : Verdict}

theorem requestCs_of_queued (queued : queueLookup l.mux.queue self ≠ emptyRequestTime) :
    requestCs cfg self l = some (l, []) := by
  simp [requestCs, enqueueOwnRequest, (queueContains_eq _ _).mpr queued]

theorem requestCs_of_vacant (vacant : queueLookup l.mux.queue self = emptyRequestTime) :
    requestCs cfg self l =
      some (⟨{ l.mux with queue := l.mux.queue.setSlot self (advanceLamportTime l.lamportTime) },
          advanceLamportTime l.lamportTime⟩,
        ipcMulticastToChildren cfg.numChildren self
          ⟨.csRequest, advanceLamportTime l.lamportTime⟩) := by
  have absent := mt (queueContains_eq l.mux.queue self).mp (by simpa using vacant)
  have enqueued :=
    (enqueueRequest_eq_some (t := advanceLamportTime l.lamportTime)).mpr ⟨vacant, rfl⟩
  simp [requestCs, enqueueOwnRequest, absent, enqueued]

theorem requestCsTake_some (h : requestCsTake cfg self l fr m = some (verdict, l', out)) :
    (∃ l₁ out₁, Serves self l fr m l₁ out₁ ∧ (verdict, l', out) = entryTest cfg l₁ out₁) ∨
      (m.type ≠ .csReply ∧ m.type ≠ .csRequest) ∧ verdict = .nonCsMessageReceived ∧
        l' = l.received m ∧ out = [] := by
  obtain ⟨type, time⟩ := m
  cases type
  case csRequest =>
    simp only [requestCsTake] at h
    split at h
    next first =>
      obtain ⟨queue, enqueued, rest⟩ := Option.bind_eq_some_iff.mp h
      obtain ⟨vacant, rfl⟩ := enqueueRequest_eq_some.mp enqueued
      exact .inl ⟨_, _, .defer rfl first vacant, (Option.some.inj rest).symm⟩
    next second => exact .inl ⟨_, _, .answer rfl second, (Option.some.inj h).symm⟩
  case csReply => exact .inl ⟨_, _, .reply rfl, (Option.some.inj h).symm⟩
  all_goals
    cases h
    exact .inr ⟨by simp, rfl, rfl, rfl⟩

theorem requestCsTake_none (h : requestCsTake cfg self l fr m = none) :
    m.type = .csRequest ∧ queueLookup l.mux.queue fr ≠ emptyRequestTime := by
  obtain ⟨type, time⟩ := m
  cases type
  case csRequest =>
    refine ⟨rfl, fun vacant => ?_⟩
    simp only [requestCsTake, enqueueRequest_eq_some.mpr ⟨vacant, rfl⟩] at h
    split at h <;> simp at h
  all_goals simp [requestCsTake] at h

theorem handleCsRequests_eq (l : Locals) :
    handleCsRequests cfg self l fr m =
      if m.type = .csRequest then
        some (.waits, ⟨l.mux, advanceLamportTime (synchronizeTime m.localTime l.lamportTime)⟩,
          [(fr, ⟨.csReply, advanceLamportTime (synchronizeTime m.localTime l.lamportTime)⟩)])
      else some (.nonCsMessageReceived, l.received m, []) := by
  obtain ⟨type, time⟩ := m
  cases type <;> rfl

theorem entryTest_queue (l : Locals) (out : Sends) :
    (entryTest cfg l out).2.1.mux.queue = l.mux.queue :=
  enterIf_keeps _ _ l out Mux.queue fun _ => rfl

theorem Serves.sends (h : Serves self l fr m l' out) : CsSends out := by
  cases h <;> simp [CsSends, MessageType.IsCs]

end Specs

/-- What the loop of `release_cs` leaves behind for the children of `L`. -/
structure Answered (L : List Nat) (l l' : Locals) (out : Sends) : Prop where
  count : l'.mux.lastRequestReplyCount = l.mux.lastRequestReplyCount
  later : l.lamportTime ≤ l'.lamportTime
  cleared : ∀ a, 1 ≤ a → queueLookup l'.mux.queue a =
    if a ∈ L then emptyRequestTime else queueLookup l.mux.queue a
  sends : ∃ time : Nat → Nat, ∀ a, outTo out a =
    if a ∈ L ∧ queueLookup l.mux.queue a ≠ emptyRequestTime then [⟨.csReply, time a⟩] else []
  replies : ∀ x ∈ out, x.2.type = .csReply

theorem answerDeferred_spec (L : List Nat) (nodup : L.Nodup) (children : ∀ c ∈ L, 1 ≤ c)
    (l : Locals) : ∃ l' out, answerDeferred L l = some (l', out) ∧ Answered L l l' out := by
  induction L generalizing l with
  | nil => exact ⟨l, [], rfl, rfl, le_rfl, by simp, ⟨fun _ => 0, by simp⟩, by simp⟩
  | cons fr rest ih =>
    obtain ⟨fresh, nodup⟩ := List.nodup_cons.mp nodup
    have child : 1 ≤ fr := children fr (by simp)
    have ih := ih nodup (fun c mem => children c (List.mem_cons_of_mem _ mem))
    by_cases queued : queueLookup l.mux.queue fr = emptyRequestTime
    · obtain ⟨l', out, run, spec⟩ := ih l
      have absent := mt (queueContains_eq l.mux.queue fr).mp (by simpa using queued)
      refine ⟨l', out, by rw [answerDeferred, if_neg absent, run], spec.count, spec.later,
        fun a ha => ?_, ?_, spec.replies⟩
      · rw [spec.cleared a ha]
        by_cases eq : a = fr
        · subst eq
          simp [fresh, queued]
        · simp [eq]
      · obtain ⟨time, sends⟩ := spec.sends
        refine ⟨time, fun a => ?_⟩
        rw [sends a]
        by_cases eq : a = fr
        · subst eq
          simp [queued]
        · simp [eq]
    · obtain ⟨l', out, run, spec⟩ := ih (reply { l with mux := { l.mux with
        queue := l.mux.queue.setSlot fr emptyRequestTime } } fr).1
      have present := (queueContains_eq l.mux.queue fr).mpr queued
      have released := releaseRequest_eq_some.mpr ⟨queued, rfl⟩
      refine ⟨l', (fr, ⟨.csReply, advanceLamportTime l.lamportTime⟩) :: out, ?_, spec.count,
        (lt_advanceLamportTime _).le.trans spec.later, fun a ha => ?_, ?_, ?_⟩
      · simp only [answerDeferred, present, if_true, released, Option.bind_eq_bind,
          Option.bind_some, run]
        rfl
      · rw [spec.cleared a ha]
        by_cases eq : a = fr
        · subst eq
          simp [fresh, reply]
        · simp [eq, reply, queueLookup_setSlot_ne _ _ child ha eq]
      · obtain ⟨time, sends⟩ := spec.sends
        refine ⟨fun a => if a = fr then advanceLamportTime l.lamportTime else time a, fun a => ?_⟩
        rw [outTo_cons, sends a]
        by_cases eq : a = fr
        · subst eq
          simp [fresh, queued]
        · have ne : fr ≠ a := fun k => eq k.symm
          by_cases mem : a ∈ rest
          · have other := queueLookup_setSlot_ne l.mux.queue emptyRequestTime child
              (children a (List.mem_cons_of_mem _ mem)) eq
            simp [eq, ne, mem, reply, other]
          · simp [eq, ne, mem]
      · intro x mem
        rcases List.mem_cons.mp mem with rfl | mem
        · rfl
        · exact spec.replies x mem

/-- `release_cs` fails only without a request. -/
theorem releaseCs_of_queued {self : Nat} {l : Locals}
    (queued : queueLookup l.mux.queue self ≠ emptyRequestTime) :
    ∃ l' out, releaseCs cfg self l = some (l', out) ∧
      Answered (List.range' 1 cfg.numChildren)
        { l with mux := { l.mux with queue := l.mux.queue.setSlot self emptyRequestTime } }
        l' out := by
  obtain ⟨l', out, run, spec⟩ := answerDeferred_spec (List.range' 1 cfg.numChildren)
    List.nodup_range' (fun c mem => (List.mem_range'_1.mp mem).1)
    { l with mux := { l.mux with queue := l.mux.queue.setSlot self emptyRequestTime } }
  refine ⟨l', out, ?_, spec⟩
  simp only [releaseCs, releaseRequest_eq_some.mpr ⟨queued, rfl⟩, Option.bind_eq_bind,
    Option.bind_some, run]

theorem releaseCs_some {self : Nat} {l l' : Locals} {out : Sends}
    (h : releaseCs cfg self l = some (l', out)) :
    Answered (List.range' 1 cfg.numChildren)
      { l with mux := { l.mux with queue := l.mux.queue.setSlot self emptyRequestTime } }
      l' out := by
  obtain ⟨queue, released, -⟩ := Option.bind_eq_some_iff.mp h
  obtain ⟨queued, -⟩ := releaseRequest_eq_some.mp released
  obtain ⟨l₁, out₁, run, spec⟩ := @releaseCs_of_queued cfg _ _ queued
  cases run.symm.trans h
  exact spec

theorem mutex_lawful : mutex.Lawful where
  requestCs_sends {cfg p l l' out} h := by
    change requestCs cfg p l = _ at h
    by_cases vacant : queueLookup l.mux.queue p = emptyRequestTime
    · rw [requestCs_of_vacant vacant] at h
      cases h
      intro x mem
      obtain ⟨_, _, rfl⟩ := List.mem_map.mp mem
      exact .inl rfl
    · rw [requestCs_of_queued vacant] at h
      cases h
      simp [CsSends]
  take_sends h := by
    rcases requestCsTake_some h with ⟨l₁, out₁, serves, eq⟩ | ⟨-, -, -, rfl⟩
    · obtain rfl : _ = out₁ := (congrArg (fun x => x.2.2) eq).trans (enterIf_sends _ _ l₁ out₁)
      exact serves.sends
    · simp [CsSends]
  empty_sends h := by
    cases h
    simp [CsSends]
  release_sends h := by
    intro x mem
    exact .inr (.inl ((releaseCs_some h).replies x mem))
  handle_sends {cfg p l q m verdict l' out} h := by
    have h := (@handleCsRequests_eq cfg p q m l).symm.trans h
    split at h <;> cases h <;> simp [CsSends, MessageType.IsCs]
  take_done isDone h := by
    rcases requestCsTake_some h with ⟨_, _, serves, -⟩ | ⟨-, rfl, -, -⟩
    · cases serves <;> simp_all
    · rfl
  handle_done {cfg p l q m verdict l' out} isDone h := by
    have h := (@handleCsRequests_eq cfg p q m l).symm.trans h
    rw [if_neg (by simp [isDone])] at h
    cases h
    rfl

end Distra.Pa5
