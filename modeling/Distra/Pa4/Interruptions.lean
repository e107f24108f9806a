import Distra.Pa4.MutexSteps

/-!
# `DONE` during `request_cs`

A `DONE` makes `request_cs` return, and `child_entry` calls it again. The own request is in the
queue then, and the replies have been counted, so nothing but the clock is different afterwards.
-/

namespace Distra

open Network RequestQueue

section Runs

variable {μ : Type} (cfg : Config) (M : MutexCode μ) (self i : Nat)

/-- How the loop around `request_cs` ends, what it has sent, and the messages that are left. -/
structure CsOutcome (μ : Type) where
  process : Process μ
  sends : Sends
  left : List (Nat × Message)

/-- `while (request_cs(mutex) == NON_CS_MESSAGE_RECEIVED)` with the messages that the polls take,
from a poll on. -/
def requestCsPolls : Process μ → List (Nat × Message) → CsOutcome μ
  | st, [] => ⟨st, [], []⟩
  | st, (fr, m) :: rest =>
    if st.pc = .requestCs i then
      let (st, out) := requestCsLoop cfg M self i st fr m
      let outcome := requestCsPolls st rest
      { outcome with sends := out ++ outcome.sends }
    else ⟨st, [], (fr, m) :: rest⟩

/-- The loop from the first call of `request_cs` on. -/
def requestCsRun (st : Process μ) (ms : List (Nat × Message)) : CsOutcome μ :=
  let (st, out) := callRequestCs cfg M self i st
  let outcome := requestCsPolls cfg M self i st ms
  { outcome with sends := out ++ outcome.sends }

end Runs

/-- The destinations and types of some sends. -/
def outline (out : Sends) : List (Nat × MessageType) := out.map fun x => (x.1, x.2.type)

theorem outline_append (out out' : Sends) : outline (out ++ out') = outline out ++ outline out' :=
  List.map_append

def withoutDones (ms : List (Nat × Message)) : List (Nat × Message) :=
  ms.filter fun x => x.2.type ≠ .done

/-- The same outcome, but for the clock, the stamps and the `DONE`s that are left. -/
structure SameOutcome {μ : Type} (r r' : CsOutcome μ) : Prop where
  pc : r.process.pc = r'.process.pc
  mux : r.process.mux = r'.process.mux
  sends : outline r.sends = outline r'.sends
  left : withoutDones r.left = r'.left

/-- The `CS_REQUEST`s among some sends. -/
def csRequests (out : Sends) : Sends := out.filter fun x => x.2.type = .csRequest

theorem csRequests_append (out out' : Sends) :
    csRequests (out ++ out') = csRequests out ++ csRequests out' := List.filter_append _ _

/-- `DONE`s do not change what `request_cs` does for a child without a request, and it sends one
request. -/
def DoneTransparent {μ : Type} (cfg : Config) (M : MutexCode μ) (queue : μ → RequestQueue) :
    Prop :=
  ∀ (self i : Nat) (st : Process μ) (ms : List (Nat × Message)), 1 ≤ self →
    queueLookup (queue st.mux) self = emptyRequestTime → (∀ x ∈ ms, 1 ≤ x.1 ∧ x.1 ≠ self) →
      SameOutcome (requestCsRun cfg M self i st ms)
          (requestCsRun cfg M self i st (withoutDones ms)) ∧
        csRequests (requestCsRun cfg M self i st ms).sends =
          ipcMulticastToChildren cfg.numChildren self
            ⟨.csRequest, advanceLamportTime st.lamportTime⟩

section Unclocked

variable {μ : Type}

/-- A round of `request_cs`, but for the clock and the stamps. -/
def shape (round : Option (Verdict × Local μ × Sends)) :
    Option (Verdict × μ × List (Nat × MessageType)) :=
  round.map fun r => (r.1, r.2.1.mux, outline r.2.2)

/-- The end of a round does not look at the clock. -/
theorem shape_enterIf {ready : Prop} [Decidable ready] {reset : μ → μ} {l l' : Local μ}
    {out out' : Sends} (mux : l.mux = l'.mux) (sends : outline out = outline out') :
    shape (some (enterIf ready reset l out)) = shape (some (enterIf ready reset l' out')) := by
  rw [enterIf, enterIf, mux]
  split
  next => simp only [shape, Option.map_some, sends]
  next => simp only [shape, Option.map_some, mux, sends]

/-- What `request_cs` does with a request in the queue does not depend on the clock. -/
structure Unclocked (cfg : Config) (M : MutexCode μ) (queue : μ → RequestQueue) (p : Nat) :
    Prop where
  first (l : Local μ) : queueLookup (queue l.mux) p = emptyRequestTime →
    ∃ l', M.requestCs cfg p l =
        some (l', ipcMulticastToChildren cfg.numChildren p
          ⟨.csRequest, advanceLamportTime l.lamportTime⟩) ∧
      queueLookup (queue l'.mux) p ≠ emptyRequestTime
  again (mux : μ) (t : Nat) : queueLookup (queue mux) p ≠ emptyRequestTime →
    ∃ t', M.requestCs cfg p ⟨mux, t⟩ = some (⟨mux, t'⟩, [])
  done (l : Local μ) (fr : Nat) (m : Message) : m.type = .done →
    ∃ t, M.requestCsTake cfg p l fr m = some (.nonCsMessageReceived, ⟨l.mux, t⟩, [])
  take (mux : μ) (t t' fr : Nat) (m : Message) :
    shape (M.requestCsTake cfg p ⟨mux, t⟩ fr m) =
      shape (M.requestCsTake cfg p ⟨mux, t'⟩ fr m)
  keeps {l fr m verdict l' out} : M.requestCsTake cfg p l fr m = some (verdict, l', out) →
    1 ≤ fr → fr ≠ p → queueLookup (queue l.mux) p ≠ emptyRequestTime →
      queueLookup (queue l'.mux) p ≠ emptyRequestTime ∧ csRequests out = []

variable {cfg : Config} {M : MutexCode μ} {queue : μ → RequestQueue} {self i fr : Nat}
  {m : Message} {st st' : Process μ} {rest ms : List (Nat × Message)}

theorem requestCsPolls_stopped (stopped : st.pc ≠ .requestCs i) (ms : List (Nat × Message)) :
    requestCsPolls cfg M self i st ms = ⟨st, [], ms⟩ := by
  cases ms with
  | nil => rfl
  | cons x rest => exact if_neg stopped

theorem requestCsPolls_cons (polls : st.pc = .requestCs i) :
    requestCsPolls cfg M self i st ((fr, m) :: rest) =
      { requestCsPolls cfg M self i (requestCsLoop cfg M self i st fr m).1 rest with
        sends := (requestCsLoop cfg M self i st fr m).2 ++
          (requestCsPolls cfg M self i (requestCsLoop cfg M self i st fr m).1 rest).sends } :=
  if_pos polls

theorem withoutDones_cons_done (isDone : m.type = .done) :
    withoutDones ((fr, m) :: rest) = withoutDones rest :=
  List.filter_cons_of_neg (by simpa using isDone)

theorem withoutDones_cons (other : m.type ≠ .done) :
    withoutDones ((fr, m) :: rest) = (fr, m) :: withoutDones rest :=
  List.filter_cons_of_pos (by simpa using other)

/-- A `DONE` leads to the next poll, with the same queue and count. -/
theorem Unclocked.loop_done (h : Unclocked cfg M queue self) (isDone : m.type = .done)
    (queued : queueLookup (queue st.mux) self ≠ emptyRequestTime) (i fr : Nat) :
    ∃ st₁, requestCsLoop cfg M self i st fr m = (st₁, []) ∧ st₁.pc = .requestCs i ∧
      st₁.mux = st.mux := by
  obtain ⟨t, take⟩ := h.done st.locals fr m isDone
  obtain ⟨t', again⟩ := h.again st.mux t queued
  have called : callRequestCs cfg M self i
      { st.at_ (.requestCs i) ⟨st.mux, t⟩ with awaitingChildren := st.awaitingChildren - 1 } =
        ({ st.at_ (.requestCs i) ⟨st.mux, t'⟩ with
          awaitingChildren := st.awaitingChildren - 1 }, []) := by
    have again : M.requestCs cfg self (Process.locals
        { st.at_ (.requestCs i) ⟨st.mux, t⟩ with
          awaitingChildren := st.awaitingChildren - 1 }) = _ := again
    rw [callRequestCs, again]
    rfl
  refine ⟨{ st.at_ (.requestCs i) ⟨st.mux, t'⟩ with
    awaitingChildren := st.awaitingChildren - 1 }, ?_, rfl, rfl⟩
  rw [requestCsLoop, take]
  exact (if_pos isDone).trans called

/-- Any other message leads to the same place, whatever the clock and the number of `DONE`s. -/
theorem Unclocked.loop_other (h : Unclocked cfg M queue self) (other : m.type ≠ .done)
    (mux : st.mux = st'.mux) (i fr : Nat) :
    (requestCsLoop cfg M self i st fr m).1.pc = (requestCsLoop cfg M self i st' fr m).1.pc ∧
      (requestCsLoop cfg M self i st fr m).1.mux = (requestCsLoop cfg M self i st' fr m).1.mux ∧
      outline (requestCsLoop cfg M self i st fr m).2 =
        outline (requestCsLoop cfg M self i st' fr m).2 := by
  have take := h.take st.mux st.lamportTime st'.lamportTime fr m
  have same : Local.mk st.mux st'.lamportTime = st'.locals := by rw [mux]; rfl
  rw [same] at take
  change shape (M.requestCsTake cfg self st.locals fr m) = _ at take
  rw [requestCsLoop, requestCsLoop]
  generalize M.requestCsTake cfg self st.locals fr m = round at take
  generalize M.requestCsTake cfg self st'.locals fr m = round' at take
  match round, round' with
  | none, none => exact ⟨rfl, mux, rfl⟩
  | none, some _ => cases take
  | some _, none => cases take
  | some (verdict, l, out), some (verdict', l', out') =>
    simp only [shape, Option.map_some, Option.some.injEq, Prod.mk.injEq] at take
    obtain ⟨rfl, mux', sends⟩ := take
    cases verdict with
    | waits | entered => exact ⟨rfl, mux', sends⟩
    | nonCsMessageReceived =>
      dsimp only
      rw [if_neg other, if_neg other]
      exact ⟨rfl, mux, rfl⟩

/-- While `request_cs` polls, the own request stays in the queue. -/
theorem Unclocked.loop_keeps (h : Unclocked cfg M queue self)
    (queued : queueLookup (queue st.mux) self ≠ emptyRequestTime) (child : 1 ≤ fr)
    (ne : fr ≠ self) (i : Nat) (m : Message) :
    csRequests (requestCsLoop cfg M self i st fr m).2 = [] ∧
      ((requestCsLoop cfg M self i st fr m).1.pc = .requestCs i →
        queueLookup (queue (requestCsLoop cfg M self i st fr m).1.mux) self ≠
          emptyRequestTime) := by
  by_cases isDone : m.type = .done
  · obtain ⟨st₁, loop, -, mux⟩ := h.loop_done isDone queued i fr
    rw [loop, mux]
    exact ⟨rfl, fun _ => queued⟩
  · rw [requestCsLoop]
    cases take : M.requestCsTake cfg self st.locals fr m with
    | none => exact ⟨rfl, nofun⟩
    | some round =>
      obtain ⟨verdict, l, out⟩ := round
      obtain ⟨queued', silent⟩ := h.keeps take child ne queued
      cases verdict with
      | waits => exact ⟨silent, fun _ => queued'⟩
      | entered => exact ⟨silent, nofun⟩
      | nonCsMessageReceived =>
        dsimp only
        rw [if_neg isDone]
        exact ⟨rfl, nofun⟩

/-- From a poll on, the two runs go the same way. -/
theorem Unclocked.polls (h : Unclocked cfg M queue self) (pc : st.pc = st'.pc)
    (mux : st.mux = st'.mux)
    (queued : st.pc = .requestCs i → queueLookup (queue st.mux) self ≠ emptyRequestTime)
    (peers : ∀ x ∈ ms, 1 ≤ x.1 ∧ x.1 ≠ self) :
    SameOutcome (requestCsPolls cfg M self i st ms)
        (requestCsPolls cfg M self i st' (withoutDones ms)) ∧
      csRequests (requestCsPolls cfg M self i st ms).sends = [] := by
  induction ms generalizing st st' with
  | nil => exact ⟨⟨pc, mux, rfl, rfl⟩, rfl⟩
  | cons x rest ih =>
    obtain ⟨fr, m⟩ := x
    obtain ⟨⟨child, ne⟩, peers⟩ := List.forall_mem_cons.mp peers
    by_cases polls : st.pc = .requestCs i
    · have queued := queued polls
      rw [requestCsPolls_cons polls]
      by_cases isDone : m.type = .done
      · obtain ⟨st₁, loop, pc₁, mux₁⟩ := h.loop_done isDone queued i fr
        rw [withoutDones_cons_done isDone, loop]
        exact ih (pc₁.trans (polls.symm.trans pc)) (mux₁.trans mux) (fun _ => mux₁ ▸ queued) peers
      · obtain ⟨pc₁, mux₁, sends⟩ := h.loop_other isDone mux i fr
        obtain ⟨silent, queued⟩ := h.loop_keeps queued child ne i m
        rw [withoutDones_cons isDone, requestCsPolls_cons (pc ▸ polls)]
        obtain ⟨same, silent'⟩ := ih pc₁ mux₁ queued peers
        refine ⟨⟨same.pc, same.mux, ?_, same.left⟩, ?_⟩
        · rw [outline_append, outline_append, sends, same.sends]
        · rw [csRequests_append, silent, silent', List.append_nil]
    · rw [requestCsPolls_stopped polls, requestCsPolls_stopped (pc ▸ polls)]
      exact ⟨⟨pc, mux, rfl, rfl⟩, rfl⟩

theorem csRequests_multicast (n self t : Nat) :
    csRequests (ipcMulticastToChildren n self ⟨.csRequest, t⟩) =
      ipcMulticastToChildren n self ⟨.csRequest, t⟩ := by
  refine List.filter_eq_self.mpr fun x mem => ?_
  obtain ⟨_, -, rfl⟩ := List.mem_map.mp mem
  rfl

theorem Unclocked.transparent (unclocked : ∀ self, 1 ≤ self → Unclocked cfg M queue self) :
    DoneTransparent cfg M queue := by
  intro self i st ms child vacant peers
  obtain ⟨l, first, queued⟩ := (unclocked self child).first st.locals vacant
  have called : callRequestCs cfg M self i st =
      (st.at_ (.requestCs i) l, ipcMulticastToChildren cfg.numChildren self
        ⟨.csRequest, advanceLamportTime st.lamportTime⟩) := by
    rw [callRequestCs, first]
    rfl
  have polls : SameOutcome (requestCsPolls cfg M self i (st.at_ (.requestCs i) l) ms) _ ∧ _ :=
    (unclocked self child).polls rfl rfl (fun _ => queued) peers
  obtain ⟨same, silent⟩ := polls
  rw [requestCsRun, requestCsRun, called]
  refine ⟨⟨same.pc, same.mux, ?_, same.left⟩, ?_⟩
  · rw [outline_append, outline_append, same.sends]
  · rw [csRequests_append, silent, List.append_nil, csRequests_multicast]

end Unclocked

namespace Pa4

variable {cfg : Config} {self : Nat}

theorem shape_requestCsTake (mux : Mux) (t t' fr : Nat) (m : Message) :
    shape (requestCsTake cfg self ⟨mux, t⟩ fr m) =
      shape (requestCsTake cfg self ⟨mux, t'⟩ fr m) := by
  obtain ⟨type, time⟩ := m
  cases type with
  | csReply => exact shape_enterIf rfl rfl
  | csRequest =>
    simp only [requestCsTake, answerRequest]
    cases enqueueRequest mux.queue fr time with
    | none => rfl
    | some queue => exact shape_enterIf rfl rfl
  | csRelease =>
    simp only [requestCsTake]
    cases releaseRequest mux.queue fr with
    | none => rfl
    | some queue => exact shape_enterIf rfl rfl
  | _ => rfl

theorem Serves.writes {l l' : Locals} {fr : Nat} {m : Message} {out : Sends}
    (h : Serves l fr m l' out) : Writes fr l.mux.queue l'.mux.queue ∧ csRequests out = [] := by
  cases h with
  | reply => exact ⟨.nothing, rfl⟩
  | request | release => exact ⟨.slot _, rfl⟩

theorem unclocked (child : 1 ≤ self) : Unclocked cfg mutex Mux.queue self where
  first l vacant := by
    refine ⟨_, requestCs_of_vacant vacant, ?_⟩
    rw [queueLookup_setSlot_self]
    exact Nat.succ_ne_zero _
  again mux t queued := ⟨_, requestCs_of_queued queued⟩
  done l fr m isDone := by
    obtain ⟨type, time⟩ := m
    cases isDone
    exact ⟨_, rfl⟩
  take := shape_requestCsTake
  keeps {l fr m verdict l' out} take sender ne queued := by
    rcases requestCsTake_some take with ⟨l₁, out₁, serves, eq⟩ | ⟨-, -, rfl, rfl⟩
    · obtain ⟨writes, silent⟩ := serves.writes
      obtain rfl : out = out₁ := (congrArg (·.2.2) eq).trans (enterIf_sends _ _ l₁ out₁)
      have queue : l'.mux.queue = l₁.mux.queue :=
        (congrArg (·.2.1.mux.queue) eq).trans (entryTest_queue self l₁ out)
      rw [queue, writes.own child sender ne]
      exact ⟨queued, silent⟩
    · exact ⟨queued, rfl⟩

end Pa4

end Distra
