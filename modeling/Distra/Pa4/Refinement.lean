import Distra.Exclusion.Lamport
import Distra.Pa4.Grants
import Distra.Pa4.MutexSteps

/-!
# `pa4` runs Lamport's algorithm

The image of a state has the queues of `pa4/mutex.c` as records and the CS messages in transit as
channels. A step of a child is a step or two of the algorithm, the second one being the entry, and
no assertion fails.
-/

namespace Distra.Pa4

open Network RequestQueue Exclusion Function

variable {cfg : Config}

/-- The time of the own request. -/
def own (p : Nat) (st : Process Mux) : Nat := queueLookup st.mux.queue p

def image (cfg : Config) (v : ProcessView Mux) (os : List Observation) :
    Lamport.State (Child cfg.numChildren) where
  toGrants := grants cfg own v os
  known p := otherSlots p (v.loc p).mux.queue
  chan := childChan csMessage cfg v

/-! ## What a step does to the image -/

section Step

variable {v : ProcessView Mux} {os : List Observation} {p : Child cfg.numChildren}
  {q : Nat} {m : Message} {input : Option (Nat × Message)} {next : Next Nat (Process Mux) Message}
  {l l' : Locals} {out : Sends} {pc : Pc}

@[simp] theorem image_chan : (image cfg v os).chan = childChan csMessage cfg v := rfl

/-- The image after a step of `p`. -/
abbrev imageAfter (cfg : Config) (v : ProcessView Mux) (os : List Observation) (p : Nat)
    (input : Option (Nat × Message)) (next : Next Nat (Process Mux) Message) :
    Lamport.State (Child cfg.numChildren) :=
  image cfg ((v.consume p input).become p next) (os ++ childEvents own p input (v.loc p) next.1)

theorem image_become (v : ProcessView Mux) (os : List Observation) (p : Child cfg.numChildren)
    (input : Option (Nat × Message)) (next : Next Nat (Process Mux) Message) :
    imageAfter cfg v os p input next =
      { clock := update (image cfg v os).clock p next.1.lamportTime
        phase := update (image cfg v os).phase p next.1.pc.phase
        request := update (image cfg v os).request p (own p next.1)
        served := (image cfg v os).served ++
          if (v.loc p).pc.phase ≠ .inside ∧ next.1.pc.phase = .inside then
            [toLex (own p next.1, p)] else []
        known := update (image cfg v os).known p (otherSlots p next.1.mux.queue)
        chan := Channels.post (childChan csMessage cfg (v.consume p input)) p
          (fun q => (outTo next.2 q.1).filterMap csMessage) } := by
  have known := update_child p
    (fun a st => (otherSlots a st.mux.queue : Child cfg.numChildren → ℕ)) v input next
  simp only [image, grants_become, known, childChan_become]
  rfl

theorem image_quiet (quiet : Quiet (v.loc p) input next) (ready : Ready cfg v p input) :
    imageAfter cfg v os p input next = (image cfg v os).tick p next.1.lamportTime := by
  have chan : childChan csMessage cfg (v.consume p input) = (image cfg v os).chan := by
    cases input with
    | none => rfl
    | some x => exact childChan_dropped ready (csMessage_eq_none.mpr (quiet.takes x.1 x.2 rfl))
  rw [image_become, chan, update_same (f := (image cfg v os).phase) quiet.phase,
    update_same (f := (image cfg v os).request) (by simp [image, grants, own, quiet.mux]),
    update_same (f := (image cfg v os).known) (by simp [image, quiet.mux])]
  simp [quiet.phase, filterMap_outTo_none quiet.sends, Lamport.State.tick, Grants.tick]

theorem clock_same :
    update (image cfg v os).clock p (v.loc p).lamportTime = (image cfg v os).clock :=
  update_same rfl

theorem phase_same :
    update (image cfg v os).phase p (v.loc p).pc.phase = (image cfg v os).phase := update_same rfl

theorem request_same :
    update (image cfg v os).request p (queueLookup (v.loc p).mux.queue p) =
      (image cfg v os).request := update_same rfl

theorem known_same {queue : RequestQueue}
    (same : otherSlots p queue = (image cfg v os).known p) :
    update (image cfg v os).known p (otherSlots p queue) = (image cfg v os).known :=
  update_same same

theorem image_ask (i t : Nat) :
    imageAfter cfg v os p none
        ((v.loc p).at_ (.requestCs i)
          ⟨{ (v.loc p).mux with queue := (v.loc p).mux.queue.setSlot p t }, t⟩,
          ipcMulticastToChildren cfg.numChildren p ⟨.csRequest, t⟩) =
      (image cfg v os).ask p t := by
  rw [image_become, filterMap_multicast p rfl]
  simp only [Process.at_, own, queueLookup_setSlot_self]
  rw [known_same (otherSlots_own _ t)]
  simp [Lamport.State.ask, Grants.ask, Pc.phase]

theorem image_leave (i t : Nat) :
    imageAfter cfg v os p none
        ((v.loc p).at_ (.iteration i)
          ⟨{ (v.loc p).mux with queue := (v.loc p).mux.queue.setSlot p emptyRequestTime }, t⟩,
          ipcMulticastToChildren cfg.numChildren p ⟨.csRelease, t⟩) =
      (image cfg v os).leave p t := by
  rw [image_become, filterMap_multicast p rfl]
  simp only [Process.at_, own, queueLookup_setSlot_self]
  rw [known_same (otherSlots_own _ emptyRequestTime)]
  simp [Lamport.State.leave, Grants.leave, Pc.phase, emptyRequestTime]

section Serves

variable {q : Child cfg.numChildren} (ready : Ready cfg v p (some (q.1, m)))
  (same : pc.phase = (v.loc p).pc.phase)
include ready same

theorem image_answer (ne : q ≠ p) (type : m.type = .csRequest) (t : Nat) :
    imageAfter cfg v os p (some (q.1, m))
        ((v.loc p).at_ pc ⟨{ (v.loc p).mux with
          queue := (v.loc p).mux.queue.setSlot q m.localTime }, t⟩, [(q.1, ⟨.csReply, t⟩)]) =
      (image cfg v os).answer p q m.localTime t := by
  rw [image_become, (childChan_taken ready (csMessage_request type)).1, filterMap_reply]
  simp only [Process.at_, otherSlots_setSlot ne, own, queueLookup_setSlot_child ne, same]
  rw [phase_same, request_same]
  simp [Lamport.State.answer, Lamport.State.record, Grants.tick]
  rfl

theorem image_hearReply (type : m.type = .csReply) (count t : Nat) :
    imageAfter cfg v os p (some (q.1, m))
        ((v.loc p).at_ pc ⟨{ (v.loc p).mux with lastRequestReplyCount := count }, t⟩, []) =
      (image cfg v os).hearReply p q t := by
  rw [image_become, (childChan_taken ready (csMessage_reply type)).1]
  simp only [Process.at_, own, same]
  rw [phase_same, request_same, known_same rfl]
  simp [Lamport.State.hearReply, Grants.tick]

theorem image_hearRelease (ne : q ≠ p) (type : m.type = .csRelease) (t : Nat) :
    imageAfter cfg v os p (some (q.1, m))
        ((v.loc p).at_ pc ⟨{ (v.loc p).mux with
          queue := (v.loc p).mux.queue.setSlot q emptyRequestTime }, t⟩, []) =
      (image cfg v os).hearRelease p q t := by
  rw [image_become, (childChan_taken ready (csMessage_release type)).1]
  simp only [Process.at_, otherSlots_setSlot ne, own, queueLookup_setSlot_child ne, same]
  rw [phase_same, request_same]
  simp [Lamport.State.hearRelease, Lamport.State.record, Grants.tick, emptyRequestTime]
  rfl

end Serves

theorem image_enter {i : Nat} (waiting : (v.loc p).pc.phase = .waiting) (count : Nat) :
    imageAfter cfg v os p none ((v.loc p).at_ (.criticalSection i)
        ⟨{ (v.loc p).mux with lastRequestReplyCount := count }, (v.loc p).lamportTime⟩, []) =
      (image cfg v os).enter p := by
  have phase : Pc.phase (.criticalSection i) = .inside := rfl
  rw [image_become]
  simp only [Process.at_, own, waiting, phase]
  rw [clock_same, request_same, known_same rfl]
  simp [Lamport.State.enter, Grants.enter]
  rfl

end Step

/-! ## The invariant -/

structure Refined (cfg : Config) (v : ProcessView Mux) (os : List Observation) : Prop where
  inv : (image cfg v os).Inv
  counted : ∀ p : Child cfg.numChildren, (v.loc p).mux.lastRequestReplyCount =
    if (v.loc p).pc.phase = .waiting then ((image cfg v os).replied p).card else 0
  entries : ∀ l ∈ entryLabels os, IsChild cfg.numChildren (ofLex l).2

namespace Refined

variable {v : ProcessView Mux} {os : List Observation} {p : Child cfg.numChildren}
  {q : Nat} {m : Message} {input : Option (Nat × Message)} {next : Next Nat (Process Mux) Message}
  {l l' : Locals} {out : Sends} {pc : Pc}

theorem initial : Refined cfg (initialState cfg mutex).view [] where
  inv := by
    have phase (p : Child cfg.numChildren) : (initialProcess cfg mutex p).pc.phase = .idle := by
      simp [initialProcess, p.2.ne_parent, Pc.phase]
    refine ⟨.initial phase (fun _ => rfl) rfl, fun p q ne => ?_⟩
    have known : otherSlots q.1 (mutexInit cfg q).queue p = 0 := ite_self 0
    refine ⟨?_, Nat.zero_le _, fun _ => ⟨rfl, rfl⟩, ?_, .nil, ?_, .nil, ?_, ?_⟩
    · exact congrArg (fun x => Lamport.replay x []) known
    · exact fun _ mem => absurd mem List.not_mem_nil
    · exact fun _ mem => absurd mem List.not_mem_nil
    · exact fun _ mem => absurd mem List.not_mem_nil
    · exact fun active => absurd (phase p) active
  counted p := by
    have phase : ((initialState cfg mutex).view.loc p).pc.phase = .idle := by
      simp [initialState, initialProcess, p.2.ne_parent, Pc.phase]
    rw [phase]
    rfl
  entries := by simp [entryLabels]

/-- What is left to show after a step: the counter of its child. -/
theorem of_step (h : Refined cfg v os) {s : Lamport.State (Child cfg.numChildren)}
    (step : imageAfter cfg v os p input next = s) (inv : s.Inv)
    (others : ∀ a, a ≠ p → s.replied a = (image cfg v os).replied a)
    (count : next.1.mux.lastRequestReplyCount =
      if next.1.pc.phase = .waiting then (s.replied p).card else 0) :
    Refined cfg ((v.consume p input).become p next)
      (os ++ childEvents own p input (v.loc p) next.1) := by
  subst step
  refine ⟨inv, fun a => ?_, fun l mem => ?_⟩
  · rw [View.consume_become_loc]
    by_cases eq : a = p
    · subst eq
      rw [if_pos rfl]
      exact count
    · rw [if_neg (fun k => eq (Subtype.ext k)), others a eq]
      exact h.counted a
  · rw [entryLabels_append, entryLabels_childEvents] at mem
    rcases List.mem_append.mp mem with mem | mem
    · exact h.entries l mem
    · split at mem
      · rw [List.mem_singleton.mp mem]
        exact p.2
      · cases mem

theorem quiet (h : Refined cfg v os) (quiet : Quiet (v.loc p) input next)
    (ready : Ready cfg v p input) :
    Refined cfg ((v.consume p input).become p next)
      (os ++ childEvents own p input (v.loc p) next.1) := by
  refine h.of_step (image_quiet quiet ready) (h.inv.tick quiet.later) ?_ ?_
  · intro a _
    exact Lamport.State.replied_tick a
  · rw [Lamport.State.replied_tick, quiet.mux, quiet.phase]
    exact h.counted p

theorem ask (h : Refined cfg v os) {i : Nat} (idle : (v.loc p).pc.phase = .idle) (t : Nat)
    (lt : (v.loc p).lamportTime < t) :
    Refined cfg ((v.consume p none).become p
        ((v.loc p).at_ (.requestCs i)
          ⟨{ (v.loc p).mux with queue := (v.loc p).mux.queue.setSlot p t }, t⟩,
          ipcMulticastToChildren cfg.numChildren p ⟨.csRequest, t⟩))
      (os ++ childEvents own p none (v.loc p) ((v.loc p).at_ (.requestCs i)
          ⟨{ (v.loc p).mux with queue := (v.loc p).mux.queue.setSlot p t }, t⟩)) := by
  refine h.of_step (image_ask i t) (h.inv.ask idle lt) ?_ ?_
  · intro a ne
    exact Lamport.State.replied_ask_ne ne
  · rw [Lamport.State.replied_ask]
    have counted := h.counted p
    rw [idle] at counted
    rw [Finset.card_empty, ite_self]
    exact counted

theorem leave (h : Refined cfg v os) {i : Nat} (inside : (v.loc p).pc.phase = .inside) (t : Nat)
    (lt : (v.loc p).lamportTime < t) :
    Refined cfg ((v.consume p none).become p
        ((v.loc p).at_ (.iteration i)
          ⟨{ (v.loc p).mux with queue := (v.loc p).mux.queue.setSlot p emptyRequestTime }, t⟩,
          ipcMulticastToChildren cfg.numChildren p ⟨.csRelease, t⟩))
      (os ++ childEvents own p none (v.loc p)
        ((v.loc p).at_ (.iteration i)
          ⟨{ (v.loc p).mux with queue := (v.loc p).mux.queue.setSlot p emptyRequestTime },
            t⟩)) := by
  refine h.of_step (image_leave i t) (h.inv.leave inside lt) ?_ ?_
  · intro a _
    exact Lamport.State.replied_leave a
  · have counted := h.counted p
    rw [inside] at counted
    simpa [Process.at_, Pc.phase] using counted

/-- A CS message taken, before the test for the entry. -/
theorem serves (h : Refined cfg v os) {q : Child cfg.numChildren} (ne : q ≠ p)
    (ready : Ready cfg v p (some (q.1, m))) (serves : Serves (v.loc p).locals q m l' out)
    (same : pc.phase = (v.loc p).pc.phase) :
    Refined cfg ((v.consume p (some (q.1, m))).become p ((v.loc p).at_ pc l', out))
      (os ++ childEvents own p (some (q.1, m)) (v.loc p) ((v.loc p).at_ pc l')) := by
  have counted := h.counted p
  cases serves with
  | reply type =>
    obtain ⟨-, rest, head⟩ := childChan_taken ready (csMessage_reply type)
    have waiting : (v.loc p).pc.phase = .waiting := h.inv.waiting_of_reply ne head
    refine h.of_step (image_hearReply ready same type _ _)
      (h.inv.hearReply ne head (lt_synchronizeTime _ _).le) ?_ ?_
    · intro a ha
      exact Lamport.State.replied_hearReply_ne ne head ha
    · rw [h.inv.replied_hearReply ne head]
      rw [waiting] at counted same
      simpa [Process.at_, same, Process.locals] using counted
  | request type vacant =>
    obtain ⟨-, rest, head⟩ := childChan_taken ready (csMessage_request type)
    refine h.of_step (image_answer ready same ne type _) (h.inv.answer ne head ?_ ?_) ?_ ?_
    · exact (lt_synchronizeTime _ _).trans (lt_advanceLamportTime _)
    · exact (received_lt_synchronizeTime _ _).trans (lt_advanceLamportTime _)
    · intro a _
      exact Lamport.State.replied_answer ne head a
    · rw [Lamport.State.replied_answer ne head]
      simpa [Process.at_, same, Process.locals] using counted
  | release type queued =>
    obtain ⟨-, rest, head⟩ := childChan_taken ready (csMessage_release type)
    refine h.of_step (image_hearRelease ready same ne type _)
      (h.inv.hearRelease ne head (lt_synchronizeTime _ _).le) ?_ ?_
    · intro a _
      exact Lamport.State.replied_hearRelease ne head a
    · rw [Lamport.State.replied_hearRelease ne head]
      simpa [Process.at_, same, Process.locals] using counted

/-- A full count and the top of the queue are Lamport's condition. -/
theorem granted (h : Refined cfg v os) (waiting : (v.loc p).pc.phase = .waiting)
    (full : (v.loc p).mux.lastRequestReplyCount = cfg.numChildren - 1)
    (top : topEnqueuedRequest cfg.maxChildren (v.loc p).mux.queue = p) :
    (image cfg v os).Granted p where
  replied := by
    apply Lamport.State.settled_of_card
    have counted := h.counted p
    rw [waiting, if_pos rfl, full] at counted
    rw [card_child, ← counted]
  top q ne known := by
    have apart : q.1 ≠ p.1 := fun k => ne (Subtype.ext k)
    have eq : (image cfg v os).known p q = queueLookup (v.loc p).mux.queue q := if_neg apart
    rw [eq] at known ⊢
    have first := topEnqueuedRequest_le (v.loc p).mux.queue q.2.1 (q.2.2.trans cfg.le_max) known
    rw [top] at first
    rcases first with lt | ⟨same, le⟩
    · exact Prod.Lex.lt_iff.mpr (.inl lt)
    · exact Prod.Lex.lt_iff.mpr (.inr ⟨same, lt_of_le_of_ne (show p ≤ q from le) ne.symm⟩)

theorem enter (h : Refined cfg v os) {i : Nat} (waiting : (v.loc p).pc.phase = .waiting)
    (full : (v.loc p).mux.lastRequestReplyCount = cfg.numChildren - 1)
    (top : topEnqueuedRequest cfg.maxChildren (v.loc p).mux.queue = p) :
    Refined cfg ((v.consume p none).become p ((v.loc p).at_ (.criticalSection i)
        ⟨{ (v.loc p).mux with lastRequestReplyCount := 0 }, (v.loc p).lamportTime⟩, []))
      (os ++ childEvents own p none (v.loc p) ((v.loc p).at_ (.criticalSection i)
        ⟨{ (v.loc p).mux with lastRequestReplyCount := 0 }, (v.loc p).lamportTime⟩)) := by
  have granted := h.granted waiting full top
  refine h.of_step (image_enter waiting 0) (h.inv.enter waiting granted) ?_ rfl
  intro a _
  exact Lamport.State.replied_enter a

/-- A round of `request_cs` with a CS message. -/
theorem round (h : Refined cfg v os) {i : Nat} {q : Child cfg.numChildren} (ne : q ≠ p)
    (waiting : (v.loc p).pc = .requestCs i) (ready : Ready cfg v p (some (q.1, m)))
    (serves : Serves (v.loc p).locals q m l out) {verdict : Verdict} {l' : Locals} {out' : Sends}
    (test : (verdict, l', out') = entryTest cfg p l out) :
    Refined cfg ((v.consume p (some (q.1, m))).become p ((v.loc p).at_ (verdict.pc i) l', out'))
      (os ++ childEvents own p (some (q.1, m)) (v.loc p) ((v.loc p).at_ (verdict.pc i) l')) := by
  have before := h.serves ne ready serves
    (show Pc.phase (.requestCs i) = (v.loc p).pc.phase by rw [waiting])
  unfold entryTest enterIf at test
  split at test
  next entry =>
    cases test
    have loc :
        ((v.consume p (some (q.1, m))).become p ((v.loc p).at_ (.requestCs i) l, out)).loc p =
          (v.loc p).at_ (.requestCs i) l := by
      rw [View.consume_become_loc, if_pos rfl]
    have after := before.enter (p := p) (i := i) (by rw [loc]; rfl) (by rw [loc]; exact entry.1)
      (by rw [loc]; exact entry.2)
    rw [loc, List.append_assoc, childEvents_split _ _ _ _ (by simp [waiting, Pc.Inside])
      (by simp [Process.at_, Pc.Inside])] at after
    exact become_become (v.consume p _) p _ _ out ▸ after
  next =>
    cases test
    exact before

theorem parent (h : Refined cfg v os) {v' : ProcessView Mux} (frame : ParentFrame v v') :
    Refined cfg v' os := by
  have loc (p : Child cfg.numChildren) : v'.loc p = v.loc p := frame.loc p p.2.ne_parent
  have same : image cfg v' os = image cfg v os := by
    simp only [image, grants_parent own os frame, loc, childChan_parent frame]
  refine ⟨same ▸ h.inv, fun p => ?_, h.entries⟩
  rw [loc, same]
  exact h.counted p

/-- Every step of a child that does not fail is a step or two of Lamport's algorithm. -/
theorem keep (h : Refined cfg v os) (control : Control cfg v) (ready : Ready cfg v p input)
    (step : LocalStep cfg mutex p (v.loc p) input next) :
    Refined cfg ((v.consume p input).become p next)
      (os ++ childEvents own p input (v.loc p) next.1) := by
  have sender {q : Nat} {m : Message} (ready : Ready cfg v p (some (q, m))) :
      ∃ a : Child cfg.numChildren, a.1 = q ∧ a ≠ p := by
    obtain ⟨child, ne⟩ := control.sender_child p.2 ready
    exact ⟨⟨q, child⟩, rfl, fun eq => ne (congrArg Subtype.val eq)⟩
  have standing (active : (v.loc p).pc.phase ≠ .idle) :
      queueLookup (v.loc p).mux.queue p ≠ emptyRequestTime :=
    (h.inv.grants.standing p).mpr active
  cases step.mutex with
  | quiet quiet => exact h.quiet quiet ready
  | request pc requested =>
    have idle : (v.loc p).pc.phase = .idle := by rw [pc]; rfl
    have vacant : queueLookup (v.loc p).locals.mux.queue p = emptyRequestTime :=
      h.inv.request_eq_zero (p := p) idle
    cases (requestCs_of_vacant vacant).symm.trans requested
    exact h.ask idle _ (lt_advanceLamportTime _)
  | served pc taken cs =>
    obtain ⟨a, rfl, ne⟩ := sender ready
    rcases requestCsTake_some taken with ⟨l₁, out₁, serves, test⟩ | ⟨-, nonCs, -, -⟩
    · exact h.round ne pc ready serves test
    · exact absurd nonCs cs
  | @doneServed i q m _ _ _ _ _ pc taken type retried =>
    have waiting : (v.loc p).pc.phase = .waiting := by rw [pc]; rfl
    rcases requestCsTake_some taken with ⟨l₁, out₁, serves, -⟩ | ⟨other, -, rfl, -⟩
    · cases serves <;> simp_all
    · have queued : queueLookup ((v.loc p).locals.received m).mux.queue p ≠ emptyRequestTime :=
        standing (by simp [waiting])
      cases (requestCs_of_queued queued).symm.trans retried
      refine h.quiet ⟨rfl, ?_, by rw [waiting]; rfl, by simp, ?_⟩ ready
      · exact ((lt_synchronizeTime _ _).trans (lt_advanceLamportTime _)).le
      · intro _ _ eq
        cases eq
        exact other
  | idle pc found =>
    cases found
    exact h.quiet ⟨rfl, le_rfl, by rw [pc]; rfl, by simp, by simp⟩ ready
  | release pc released =>
    have inside : (v.loc p).pc.phase = .inside := by rw [pc]; rfl
    obtain ⟨-, rfl, rfl⟩ := releaseCs_some released
    exact h.leave inside _ (lt_advanceLamportTime _)
  | handled pc taken cs =>
    obtain ⟨a, rfl, ne⟩ := sender ready
    rcases @handleCsRequests_some cfg p _ _ _ _ _ _ taken with ⟨serves, -, -⟩ | ⟨-, nonCs, -, -⟩
    · exact h.serves ne ready serves (by rw [pc])
    · exact absurd nonCs cs
  | doneHandled pc finished taken type =>
    rcases @handleCsRequests_some cfg p _ _ _ _ _ _ taken with ⟨-, -, verdict⟩ | ⟨-, -, rfl, -⟩
    · cases verdict
    · refine h.quiet ⟨rfl, (lt_synchronizeTime _ _).le, ?_, by simp, ?_⟩ ready
      · rw [pc]
        exact finished.phase
      · intro _ _ eq
        cases eq
        simp [type, MessageType.IsCs]

/-- No assertion fails, and no CS message comes as a surprise. -/
theorem safe (h : Refined cfg v os) (control : Control cfg v) (ready : Ready cfg v p input) :
    ¬MutexFails cfg mutex p (v.loc p) input := by
  intro fails
  have accepted {q : Nat} {m : Message} (ready : Ready cfg v p (some (q, m))) :
      ¬Rejects (v.loc p).locals q m ∧ ((v.loc p).pc.phase = .idle → m.type ≠ .csReply) := by
    obtain ⟨child, ne⟩ := control.sender_child p.2 ready
    have other : (⟨q, child⟩ : Child cfg.numChildren) ≠ p :=
      fun eq => ne (congrArg Subtype.val eq)
    have known : (image cfg v os).known p ⟨q, child⟩ = queueLookup (v.loc p).mux.queue q :=
      if_neg ne
    refine ⟨?_, fun idle type => ?_⟩
    · rintro (⟨type, queued⟩ | ⟨type, vacant⟩)
      · obtain ⟨-, rest, head⟩ := childChan_taken (q := ⟨q, child⟩) ready (csMessage_request type)
        exact queued (known ▸ h.inv.unknown_of_request other head)
      · obtain ⟨-, rest, head⟩ := childChan_taken (q := ⟨q, child⟩) ready (csMessage_release type)
        exact h.inv.known_of_release other head (known ▸ vacant)
    · obtain ⟨-, rest, head⟩ := childChan_taken (q := ⟨q, child⟩) ready (csMessage_reply type)
      have waiting : (v.loc p).pc.phase = .waiting := h.inv.waiting_of_reply other head
      rw [idle] at waiting
      cases waiting
  cases fails with
  | requestCs pc failed =>
    by_cases vacant : queueLookup (v.loc p).locals.mux.queue p = emptyRequestTime
    · cases (requestCs_of_vacant vacant).symm.trans failed
    · cases (requestCs_of_queued vacant).symm.trans failed
  | take pc failed => exact (accepted ready).1 (requestCsTake_none failed)
  | takeUnexpected pc taken cs =>
    rcases requestCsTake_some taken with ⟨l₁, out₁, -, test⟩ | ⟨other, -, -, -⟩
    · exact enterIf_cs _ _ l₁ out₁ (congrArg Prod.fst test).symm
    · exact other cs
  | @retry i q m l out pc taken type failed =>
    by_cases vacant : queueLookup l.mux.queue p = emptyRequestTime
    · cases (requestCs_of_vacant vacant).symm.trans failed
    · cases (requestCs_of_queued vacant).symm.trans failed
  | empty pc failed => cases failed
  | release pc failed =>
    have vacant := releaseCs_none failed
    refine (h.inv.grants.standing p).mpr ?_ vacant
    have : (v.loc p).pc.phase = .inside := by rw [pc]; rfl
    simp [image, grants, this]
  | handle pc failed => exact (accepted ready).1 (@handleCsRequests_none cfg p _ _ _ failed)
  | handleUnexpected pc taken cs =>
    rcases @handleCsRequests_some cfg p _ _ _ _ _ _ taken with ⟨-, -, verdict⟩ | ⟨other, -, -, -⟩
    · cases verdict
    · rcases other with reply | other
      · exact (accepted ready).2 (by rw [pc]; rfl) reply
      · exact other cs

end Refined

/-! ## Every run -/

/-- The entries of a run of all children, as `(t, id)` with `t` the time of the request. -/
def MutexRun.entries (r : MutexRun cfg mutex) : List (ℕ ×ₗ ℕ) :=
  entryLabels (r.observations own)

theorem refined (r : MutexRun cfg mutex) : Refined cfg r.final.view (r.observations own) := by
  have all := MutexRun.invariant mutex_lawful own Refined.initial
    (fun v os p input control inv child ready => inv.safe (p := ⟨p, child⟩) control ready)
    (fun v os p input next control inv child ready step =>
      inv.keep (p := ⟨p, child⟩) control ready step)
    (fun v v' os inv frame => inv.parent frame) r
  exact all.2.2

/-- At most one child is in its critical section. -/
theorem lamport_mutual_exclusion (r : MutexRun cfg mutex) :
    Set.Subsingleton {p | IsChild cfg.numChildren p ∧ (r.final.loc p).pc.Inside} :=
  grants_exclusive (refined r).inv.grants

/-- Critical sections are entered in the order of their requests. -/
theorem lamport_entries_increasing (r : MutexRun cfg mutex) :
    (MutexRun.entries r).Pairwise (· < ·) :=
  entryLabels_sorted (refined r).entries (refined r).inv.grants.sorted

end Distra.Pa4
