import Distra.Exclusion.RicartAgrawala
import Distra.Pa4.Grants
import Distra.Pa5.MutexSteps

/-!
# `pa5` runs Ricart and Agrawala's algorithm

In the image of a state the slots of other children are the requests put off. A step of a child is
a step or two of the algorithm, the second one being the entry, and no assertion fails.
-/

namespace Distra.Pa5

open Network RequestQueue Exclusion RicartAgrawala Function

variable {cfg : Config}

/-- The time of the own request. -/
def own (p : Nat) (st : Process Mux) : Nat := queueLookup st.mux.queue p

def image (cfg : Config) (v : ProcessView Mux) (os : List Observation) :
    RicartAgrawala.State (Child cfg.numChildren) where
  toGrants := grants cfg own v os
  deferred p := otherSlots p (v.loc p).mux.queue
  chan := childChan csMessage cfg v

/-! ## What a step does to the image -/

section Step

variable {v : ProcessView Mux} {os : List Observation} {p : Child cfg.numChildren}
  {m : Message} {input : Option (Nat × Message)} {next : Next Nat (Process Mux) Message}
  {l l' : Locals} {out : Sends} {pc : Pc}

@[simp] theorem image_chan : (image cfg v os).chan = childChan csMessage cfg v := rfl

/-- The image after a step of `p`. -/
abbrev imageAfter (cfg : Config) (v : ProcessView Mux) (os : List Observation) (p : Nat)
    (input : Option (Nat × Message)) (next : Next Nat (Process Mux) Message) :
    RicartAgrawala.State (Child cfg.numChildren) :=
  image cfg ((v.consume p input).become p next) (os ++ childEvents own p input (v.loc p) next.1)

theorem image_become (v : ProcessView Mux) (os : List Observation) (p : Child cfg.numChildren)
    (input : Option (Nat × Message)) (next : Next Nat (Process Mux) Message) :
    imageAfter cfg v os p input next =
      { clock := update (image cfg v os).clock p next.1.lamportTime
        phase := update (image cfg v os).phase p next.1.pc.phase
        request := update (image cfg v os).request p (own p next.1)
        served := (image cfg v os).served ++
          if (v.loc p).pc.phase ≠ .inside ∧ next.1.pc.phase = .inside then
            [toLex (own p next.1, p)] else []
        deferred := update (image cfg v os).deferred p (otherSlots p next.1.mux.queue)
        chan := Channels.post (childChan csMessage cfg (v.consume p input)) p
          (fun q => (outTo next.2 q.1).filterMap csMessage) } := by
  have deferred := update_child p
    (fun a st => (otherSlots a st.mux.queue : Child cfg.numChildren → ℕ)) v input next
  simp only [image, grants_become, deferred, childChan_become]
  rfl

theorem clock_same :
    update (image cfg v os).clock p (v.loc p).lamportTime = (image cfg v os).clock :=
  update_same rfl

theorem phase_same :
    update (image cfg v os).phase p (v.loc p).pc.phase = (image cfg v os).phase := update_same rfl

theorem request_same :
    update (image cfg v os).request p (queueLookup (v.loc p).mux.queue p) =
      (image cfg v os).request := update_same rfl

theorem deferred_same {queue : RequestQueue}
    (same : otherSlots p queue = (image cfg v os).deferred p) :
    update (image cfg v os).deferred p (otherSlots p queue) = (image cfg v os).deferred :=
  update_same same

theorem image_quiet (quiet : Quiet (v.loc p) input next) (ready : Ready cfg v p input) :
    imageAfter cfg v os p input next = (image cfg v os).tick p next.1.lamportTime := by
  have chan : childChan csMessage cfg (v.consume p input) = (image cfg v os).chan := by
    cases input with
    | none => rfl
    | some x => exact childChan_dropped ready (csMessage_eq_none.mpr (quiet.takes x.1 x.2 rfl))
  rw [image_become, chan, own, quiet.phase, quiet.mux, phase_same, request_same, deferred_same rfl]
  simp [filterMap_outTo_none quiet.sends, State.tick, Grants.tick]

theorem image_ask (i t : Nat) :
    imageAfter cfg v os p none
        ((v.loc p).at_ (.requestCs i)
          ⟨{ (v.loc p).mux with queue := (v.loc p).mux.queue.setSlot p t }, t⟩,
          ipcMulticastToChildren cfg.numChildren p ⟨.csRequest, t⟩) =
      (image cfg v os).ask p t := by
  rw [image_become, filterMap_multicast p rfl]
  simp only [Process.at_, own, queueLookup_setSlot_self]
  rw [deferred_same (otherSlots_own _ t)]
  simp [State.ask, Grants.ask, Pc.phase]

theorem image_leave {i : Nat} {time : Nat → Nat}
    (answered : Answered (List.range' 1 cfg.numChildren)
      ⟨{ (v.loc p).mux with queue := (v.loc p).mux.queue.setSlot p emptyRequestTime },
        (v.loc p).lamportTime⟩ l' out)
    (sends : ∀ a, outTo out a = if a ∈ List.range' 1 cfg.numChildren ∧
      queueLookup ((v.loc p).mux.queue.setSlot p emptyRequestTime) a ≠ emptyRequestTime then
        [⟨.csReply, time a⟩] else []) :
    imageAfter cfg v os p none ((v.loc p).at_ (.iteration i) l', out) =
      (image cfg v os).leave p l'.lamportTime (fun a => time a) := by
  have mem (a : Child cfg.numChildren) : a.1 ∈ List.range' 1 cfg.numChildren := by
    have := a.2
    rw [List.mem_range'_1]
    exact ⟨this.1, by have := this.2; omega⟩
  have cleared (a : Child cfg.numChildren) : queueLookup l'.mux.queue a = 0 := by
    rw [answered.cleared a a.2.1, if_pos (mem a)]
    rfl
  have slots : otherSlots p l'.mux.queue = fun _ : Child cfg.numChildren => 0 := by
    funext a
    unfold otherSlots
    split
    · rfl
    · exact cleared a
  have chan : (fun a : Child cfg.numChildren => (outTo out a.1).filterMap csMessage) =
      (image cfg v os).answers p (fun a => time a) := by
    funext a
    rw [sends a.1, State.answers]
    by_cases eq : a = p
    · subst eq
      simp [image, otherSlots]
    · have apart : a.1 ≠ p.1 := fun k => eq (Subtype.ext k)
      have slot : (image cfg v os).deferred p a = queueLookup (v.loc p).mux.queue a :=
        otherSlots_of_ne eq _
      rw [slot, queueLookup_setSlot_ne _ _ p.2.1 a.2.1 apart]
      by_cases vacant : queueLookup (v.loc p).mux.queue a = 0
      · simp [vacant, emptyRequestTime]
      · simp [vacant, emptyRequestTime, mem a, csMessage]
  rw [image_become, chan]
  simp only [Process.at_, own, cleared, slots]
  simp [State.leave, Grants.leave, Pc.phase]

theorem image_enter {i : Nat} (waiting : (v.loc p).pc.phase = .waiting) (count : Nat) :
    imageAfter cfg v os p none ((v.loc p).at_ (.criticalSection i)
        ⟨{ (v.loc p).mux with lastRequestReplyCount := count }, (v.loc p).lamportTime⟩, []) =
      (image cfg v os).enter p := by
  have phase : Pc.phase (.criticalSection i) = .inside := rfl
  rw [image_become]
  simp only [Process.at_, own, waiting, phase]
  rw [clock_same, request_same, deferred_same rfl]
  simp [State.enter, Grants.enter]
  rfl

section Serves

variable {q : Child cfg.numChildren} (ready : Ready cfg v p (some (q.1, m)))
  (same : pc.phase = (v.loc p).pc.phase)
include ready same

theorem image_answer (type : m.type = .csRequest) (t : Nat) :
    imageAfter cfg v os p (some (q.1, m))
        ((v.loc p).at_ pc ⟨(v.loc p).mux, t⟩, [(q.1, ⟨.csReply, t⟩)]) =
      (image cfg v os).answer p q t := by
  rw [image_become, (childChan_taken ready (csMessage_request type)).1, filterMap_reply]
  simp only [Process.at_, own, same]
  rw [phase_same, request_same, deferred_same rfl]
  simp [State.answer, Grants.tick]

theorem image_defer (ne : q ≠ p) (type : m.type = .csRequest) (t : Nat) :
    imageAfter cfg v os p (some (q.1, m))
        ((v.loc p).at_ pc ⟨{ (v.loc p).mux with
          queue := (v.loc p).mux.queue.setSlot q m.localTime }, t⟩, []) =
      (image cfg v os).defer p q m.localTime t := by
  rw [image_become, (childChan_taken ready (csMessage_request type)).1]
  simp only [Process.at_, otherSlots_setSlot ne, own, queueLookup_setSlot_child ne, same]
  rw [phase_same, request_same]
  simp [State.defer, Grants.tick]
  rfl

theorem image_hearReply (type : m.type = .csReply) (count t : Nat) :
    imageAfter cfg v os p (some (q.1, m))
        ((v.loc p).at_ pc ⟨{ (v.loc p).mux with lastRequestReplyCount := count }, t⟩, []) =
      (image cfg v os).hearReply p q t := by
  rw [image_become, (childChan_taken ready (csMessage_reply type)).1]
  simp only [Process.at_, own, same]
  rw [phase_same, request_same, deferred_same rfl]
  simp [State.hearReply, Grants.tick]

end Serves

end Step

/-! ## The invariant -/

structure Refined (cfg : Config) (v : ProcessView Mux) (os : List Observation) : Prop where
  inv : (image cfg v os).Inv
  counted : ∀ p : Child cfg.numChildren, (v.loc p).mux.lastRequestReplyCount =
    if (v.loc p).pc.phase = .waiting then ((image cfg v os).replied p).card else 0
  entries : ∀ l ∈ entryLabels os, IsChild cfg.numChildren (ofLex l).2

namespace Refined

variable {v : ProcessView Mux} {os : List Observation} {p : Child cfg.numChildren}
  {m : Message} {input : Option (Nat × Message)} {next : Next Nat (Process Mux) Message}
  {l l' : Locals} {out : Sends} {pc : Pc}

theorem initial : Refined cfg (initialState cfg mutex).view [] where
  inv := by
    have phase (p : Child cfg.numChildren) : (initialProcess cfg mutex p).pc.phase = .idle := by
      simp [initialProcess, p.2.ne_parent, Pc.phase]
    refine ⟨.initial phase (fun _ => rfl) rfl, fun p q ne => ?_⟩
    have none_ : otherSlots q.1 (mutexInit cfg q).queue p = 0 := ite_self 0
    have settled : ((image cfg (initialState cfg mutex).view []).link p q).pending = 0 :=
      Link.pending_eq_zero.mpr ⟨rfl, none_, rfl⟩
    refine ⟨settled.trans_le (Nat.zero_le 1), fun _ => settled, ?_, ?_, ?_, ?_, ?_, ?_⟩
    · exact fun _ mem => absurd mem List.not_mem_nil
    · exact fun _ mem => absurd mem List.not_mem_nil
    · exact fun active => absurd (phase p) active
    · exact fun active => absurd (phase p) active
    · exact fun active => absurd (phase p) active
    · exact fun put => absurd none_ put
  counted p := by
    have phase : ((initialState cfg mutex).view.loc p).pc.phase = .idle := by
      simp [initialState, initialProcess, p.2.ne_parent, Pc.phase]
    rw [phase]
    rfl
  entries := by simp [entryLabels]

theorem of_step (h : Refined cfg v os) {s : RicartAgrawala.State (Child cfg.numChildren)}
    (step : imageAfter cfg v os p input next = s) (inv : s.Inv)
    (others : ∀ a, a ≠ p → s.replied a = (image cfg v os).replied a)
    (count : next.1.mux.lastRequestReplyCount =
      if next.1.pc.phase = .waiting then (s.replied p).card else 0) :
    Refined cfg ((v.consume p input).become p next)
      (os ++ childEvents own p input (v.loc p) next.1) := by
  subst step
  refine ⟨inv, fun a => ?_, fun l mem => ?_⟩
  · rw [View.consume_become_loc]
    by_cases eq : a = p
    · subst eq
      rw [if_pos rfl]
      exact count
    · rw [if_neg (fun k => eq (Subtype.ext k)), others a eq]
      exact h.counted a
  · rw [entryLabels_append, entryLabels_childEvents] at mem
    rcases List.mem_append.mp mem with mem | mem
    · exact h.entries l mem
    · split at mem
      · rw [List.mem_singleton.mp mem]
        exact p.2
      · cases mem

theorem quiet (h : Refined cfg v os) (quiet : Quiet (v.loc p) input next)
    (ready : Ready cfg v p input) :
    Refined cfg ((v.consume p input).become p next)
      (os ++ childEvents own p input (v.loc p) next.1) := by
  refine h.of_step (image_quiet quiet ready) (h.inv.tick quiet.later) ?_ ?_
  · intro a _
    exact State.replied_tick a
  · rw [State.replied_tick, quiet.mux, quiet.phase]
    exact h.counted p

theorem ask (h : Refined cfg v os) {i : Nat} (idle : (v.loc p).pc.phase = .idle) (t : Nat)
    (lt : (v.loc p).lamportTime < t) :
    Refined cfg ((v.consume p none).become p
        ((v.loc p).at_ (.requestCs i)
          ⟨{ (v.loc p).mux with queue := (v.loc p).mux.queue.setSlot p t }, t⟩,
          ipcMulticastToChildren cfg.numChildren p ⟨.csRequest, t⟩))
      (os ++ childEvents own p none (v.loc p) ((v.loc p).at_ (.requestCs i)
          ⟨{ (v.loc p).mux with queue := (v.loc p).mux.queue.setSlot p t }, t⟩)) := by
  have zero : (v.loc p).mux.lastRequestReplyCount = 0 := by
    rw [h.counted p, idle]
    rfl
  refine h.of_step (image_ask i t) (h.inv.ask idle lt) ?_ ?_
  · intro a ne
    exact State.replied_ask_ne ne
  · rw [State.replied_ask, Finset.card_empty, ite_self]
    exact zero

theorem leave (h : Refined cfg v os) {i : Nat} (inside : (v.loc p).pc.phase = .inside)
    (answered : Answered (List.range' 1 cfg.numChildren)
      ⟨{ (v.loc p).mux with queue := (v.loc p).mux.queue.setSlot p emptyRequestTime },
        (v.loc p).lamportTime⟩ l' out) :
    Refined cfg ((v.consume p none).become p ((v.loc p).at_ (.iteration i) l', out))
      (os ++ childEvents own p none (v.loc p) ((v.loc p).at_ (.iteration i) l')) := by
  obtain ⟨time, sends⟩ := answered.sends
  refine h.of_step (image_leave answered sends) (h.inv.leave inside answered.later _) ?_ ?_
  · intro a _
    exact State.replied_leave a _
  · have counted := h.counted p
    rw [inside] at counted
    exact answered.count.trans counted

/-- The comparison of `request_cs` is that of the labels. -/
theorem ownFirst_iff {q : Child cfg.numChildren} :
    OwnFirst p (v.loc p).locals q m ↔
      (image cfg v os).label p < toLex (m.localTime, q) := by
  rw [Prod.Lex.lt_iff]
  exact .rfl

theorem second_of_not_ownFirst {q : Child cfg.numChildren} (ne : q ≠ p)
    (second : ¬OwnFirst p (v.loc p).locals q m) :
    toLex (m.localTime, q) < (image cfg v os).label p := by
  rw [ownFirst_iff, not_lt] at second
  refine lt_of_le_of_ne second fun eq => ne ?_
  exact congrArg (fun x => (ofLex x).2) eq

/-- A CS message taken in `request_cs`, before the test for the entry. -/
theorem serves (h : Refined cfg v os) {i : Nat} {q : Child cfg.numChildren} (ne : q ≠ p)
    (ready : Ready cfg v p (some (q.1, m))) (serves : Serves p (v.loc p).locals q m l' out)
    (pc : (v.loc p).pc = .requestCs i) :
    Refined cfg ((v.consume p (some (q.1, m))).become p ((v.loc p).at_ (.requestCs i) l', out))
      (os ++ childEvents own p (some (q.1, m)) (v.loc p) ((v.loc p).at_ (.requestCs i) l')) := by
  have counted := h.counted p
  have same : Pc.phase (.requestCs i) = (v.loc p).pc.phase := by rw [pc]
  have waiting : (v.loc p).pc.phase = .waiting := same.symm
  have active : (image cfg v os).phase p ≠ .idle := by
    simp [image, grants, waiting]
  rw [waiting, if_pos rfl] at counted
  cases serves with
  | reply type =>
    obtain ⟨-, rest, head⟩ := childChan_taken ready (csMessage_reply type)
    refine h.of_step (image_hearReply ready same type _ _)
      (h.inv.hearReply ne head (lt_synchronizeTime _ _).le) ?_ ?_
    · intro a ha
      exact State.replied_hearReply_ne ne head ha
    · rw [State.replied_hearReply ne head (h.inv.link p q ne.symm).single]
      exact congrArg (· + 1) counted
  | defer type first vacant =>
    obtain ⟨-, rest, head⟩ := childChan_taken ready (csMessage_request type)
    obtain ⟨asking, stamp, -⟩ := h.inv.head_request ne head
    have slot : (image cfg v os).deferred p q = 0 := (otherSlots_of_ne ne _).trans vacant
    have pos : m.localTime ≠ 0 := by
      rw [stamp]
      exact (h.inv.grants.standing q).mpr (by simp [asking])
    refine h.of_step (image_defer ready same ne type _) (h.inv.defer ne head
      (lt_synchronizeTime _ _).le (received_lt_synchronizeTime _ _) active
      (ownFirst_iff.mp first)) ?_ ?_
    · intro a _
      exact State.replied_defer ne head pos slot a
    · rw [State.replied_defer ne head pos slot]
      exact counted
  | answer type second =>
    obtain ⟨-, rest, head⟩ := childChan_taken ready (csMessage_request type)
    refine h.of_step (image_answer ready same type _) (h.inv.answer ne head ?_ ?_
      (fun _ => second_of_not_ownFirst ne second)) ?_ ?_
    · exact ((lt_synchronizeTime _ _).trans (lt_advanceLamportTime _)).le
    · exact (received_lt_synchronizeTime _ _).trans (lt_advanceLamportTime _)
    · intro a _
      exact State.replied_answer ne head a
    · rw [State.replied_answer ne head]
      exact counted

/-- A request that is answered outside `request_cs`. -/
theorem answerIdle (h : Refined cfg v os) {q : Child cfg.numChildren} (ne : q ≠ p)
    (ready : Ready cfg v p (some (q.1, m))) (type : m.type = .csRequest)
    (same : pc.phase = (v.loc p).pc.phase) (idle : (v.loc p).pc.phase = .idle) :
    Refined cfg ((v.consume p (some (q.1, m))).become p ((v.loc p).at_ pc ⟨(v.loc p).mux,
          advanceLamportTime (synchronizeTime m.localTime (v.loc p).lamportTime)⟩,
        [(q.1, ⟨.csReply,
          advanceLamportTime (synchronizeTime m.localTime (v.loc p).lamportTime)⟩)]))
      (os ++ childEvents own p (some (q.1, m)) (v.loc p) ((v.loc p).at_ pc ⟨(v.loc p).mux,
          advanceLamportTime (synchronizeTime m.localTime (v.loc p).lamportTime)⟩)) := by
  obtain ⟨-, rest, head⟩ := childChan_taken ready (csMessage_request type)
  refine h.of_step (image_answer ready same type _) (h.inv.answer ne head ?_ ?_
    (fun active => absurd idle active)) ?_ ?_
  · exact ((lt_synchronizeTime _ _).trans (lt_advanceLamportTime _)).le
  · exact (received_lt_synchronizeTime _ _).trans (lt_advanceLamportTime _)
  · intro a _
    exact State.replied_answer ne head a
  · rw [State.replied_answer ne head]
    simp only [Process.at_, same]
    exact h.counted p

theorem enter (h : Refined cfg v os) {i : Nat} (waiting : (v.loc p).pc.phase = .waiting)
    (full : (v.loc p).mux.lastRequestReplyCount = cfg.numChildren - 1) :
    Refined cfg ((v.consume p none).become p ((v.loc p).at_ (.criticalSection i)
        ⟨{ (v.loc p).mux with lastRequestReplyCount := 0 }, (v.loc p).lamportTime⟩, []))
      (os ++ childEvents own p none (v.loc p) ((v.loc p).at_ (.criticalSection i)
        ⟨{ (v.loc p).mux with lastRequestReplyCount := 0 }, (v.loc p).lamportTime⟩)) := by
  have settled : ∀ q, q ≠ p → ((image cfg v os).link p q).pending = 0 := by
    apply State.settled_of_card
    have counted := h.counted p
    rw [waiting, if_pos rfl, full] at counted
    rw [card_child, ← counted]
  refine h.of_step (image_enter waiting 0) (h.inv.enter waiting settled) ?_ rfl
  intro a _
  exact State.replied_enter a

/-- A round of `request_cs` with a CS message. -/
theorem round (h : Refined cfg v os) {i : Nat} {q : Child cfg.numChildren} (ne : q ≠ p)
    (pc : (v.loc p).pc = .requestCs i) (ready : Ready cfg v p (some (q.1, m)))
    (serves : Serves p (v.loc p).locals q m l out) {verdict : Verdict} {l' : Locals}
    {out' : Sends} (test : (verdict, l', out') = entryTest cfg l out) :
    Refined cfg ((v.consume p (some (q.1, m))).become p ((v.loc p).at_ (verdict.pc i) l', out'))
      (os ++ childEvents own p (some (q.1, m)) (v.loc p) ((v.loc p).at_ (verdict.pc i) l')) := by
  have before := h.serves ne ready serves pc
  unfold entryTest enterIf at test
  split at test
  next full =>
    cases test
    have loc :
        ((v.consume p (some (q.1, m))).become p ((v.loc p).at_ (.requestCs i) l, out)).loc p =
          (v.loc p).at_ (.requestCs i) l := by
      rw [View.consume_become_loc, if_pos rfl]
    have after := before.enter (p := p) (i := i) (by rw [loc]; rfl) (by rw [loc]; exact full)
    rw [loc, List.append_assoc, childEvents_split _ _ _ _ (by simp [pc, Pc.Inside])
      (by simp [Process.at_, Pc.Inside])] at after
    exact become_become (v.consume p _) p _ _ out ▸ after
  next =>
    cases test
    exact before

theorem parent (h : Refined cfg v os) {v' : ProcessView Mux} (frame : ParentFrame v v') :
    Refined cfg v' os := by
  have loc (p : Child cfg.numChildren) : v'.loc p = v.loc p := frame.loc p p.2.ne_parent
  have same : image cfg v' os = image cfg v os := by
    simp only [image, grants_parent own os frame, loc, childChan_parent frame]
  refine ⟨same ▸ h.inv, fun p => ?_, h.entries⟩
  rw [loc, same]
  exact h.counted p

theorem sender_child (control : Control cfg v) {q : Nat} {m : Message}
    (ready : Ready cfg v p (some (q, m))) : ∃ a : Child cfg.numChildren, a.1 = q ∧ a ≠ p := by
  obtain ⟨child, ne⟩ := control.sender_child p.2 ready
  exact ⟨⟨q, child⟩, rfl, fun eq => ne (congrArg Subtype.val eq)⟩

/-- Every step of a child that does not fail is a step or two of the algorithm. -/
theorem keep (h : Refined cfg v os) (control : Control cfg v) (ready : Ready cfg v p input)
    (step : LocalStep cfg mutex p (v.loc p) input next) :
    Refined cfg ((v.consume p input).become p next)
      (os ++ childEvents own p input (v.loc p) next.1) := by
  have standing (active : (v.loc p).pc.phase ≠ .idle) :
      queueLookup (v.loc p).mux.queue p ≠ emptyRequestTime :=
    (h.inv.grants.standing p).mpr active
  cases step.mutex with
  | quiet quiet => exact h.quiet quiet ready
  | request pc requested =>
    have idle : (v.loc p).pc.phase = .idle := by rw [pc]; rfl
    have vacant : queueLookup (v.loc p).locals.mux.queue p = emptyRequestTime :=
      h.inv.request_eq_zero (p := p) idle
    cases (requestCs_of_vacant vacant).symm.trans requested
    exact h.ask idle _ (lt_advanceLamportTime _)
  | served pc taken cs =>
    obtain ⟨a, rfl, ne⟩ := sender_child control ready
    rcases requestCsTake_some taken with ⟨l₁, out₁, serves, test⟩ | ⟨-, nonCs, -, -⟩
    · exact h.round ne pc ready serves test
    · exact absurd nonCs cs
  | @doneServed i q m _ _ _ _ _ pc taken type retried =>
    have waiting : (v.loc p).pc.phase = .waiting := by rw [pc]; rfl
    rcases requestCsTake_some taken with ⟨l₁, out₁, serves, -⟩ | ⟨-, -, rfl, -⟩
    · cases serves <;> simp_all
    · have queued : queueLookup ((v.loc p).locals.received m).mux.queue p ≠ emptyRequestTime :=
        standing (by simp [waiting])
      cases (requestCs_of_queued queued).symm.trans retried
      refine h.quiet ⟨rfl, (lt_synchronizeTime _ _).le, by rw [waiting]; rfl, by simp, ?_⟩ ready
      intro _ _ eq
      cases eq
      simp [type, MessageType.IsCs]
  | idle pc found =>
    cases found
    exact h.quiet ⟨rfl, le_rfl, by rw [pc]; rfl, by simp, by simp⟩ ready
  | release pc released =>
    have inside : (v.loc p).pc.phase = .inside := by rw [pc]; rfl
    exact h.leave inside (releaseCs_some released)
  | @handled q m verdict l out pc taken cs =>
    obtain ⟨a, rfl, ne⟩ := sender_child control ready
    have taken := (@handleCsRequests_eq cfg p a.1 m _).symm.trans taken
    split at taken
    next type =>
      cases taken
      exact h.answerIdle ne ready type (by rw [pc]) (by rw [pc]; rfl)
    next =>
      cases taken
      exact absurd rfl cs
  | @doneHandled q m l out pc' k pc finished taken type =>
    have taken := (@handleCsRequests_eq cfg p q m _).symm.trans taken
    rw [if_neg (by simp [type])] at taken
    cases taken
    refine h.quiet ⟨rfl, (lt_synchronizeTime _ _).le, ?_, by simp, ?_⟩ ready
    · rw [pc]
      exact finished.phase
    · intro _ _ eq
      cases eq
      simp [type, MessageType.IsCs]

/-- No assertion fails, and no CS message comes as a surprise. -/
theorem safe (h : Refined cfg v os) (control : Control cfg v) (ready : Ready cfg v p input) :
    ¬MutexFails cfg mutex p (v.loc p) input := by
  intro fails
  have accepted {q : Nat} {m : Message} (ready : Ready cfg v p (some (q, m))) :
      (m.type = .csRequest → queueLookup (v.loc p).mux.queue q = emptyRequestTime) ∧
        ((v.loc p).pc.phase = .idle → m.type ≠ .csReply) ∧ m.type ≠ .csRelease := by
    obtain ⟨a, rfl, ne⟩ := sender_child control ready
    refine ⟨fun type => ?_, fun idle type => ?_, fun type => ?_⟩
    · obtain ⟨-, rest, head⟩ := childChan_taken ready (csMessage_request type)
      rw [← otherSlots_of_ne ne]
      exact (h.inv.head_request ne head).2.2
    · obtain ⟨-, rest, head⟩ := childChan_taken ready (csMessage_reply type)
      have waiting : (v.loc p).pc.phase = .waiting := h.inv.waiting_of_reply ne head
      rw [idle] at waiting
      cases waiting
    · obtain ⟨-, rest, head⟩ := childChan_taken ready (csMessage_release type)
      refine (h.inv.link a p ne).unreleased m.localTime ?_
      change _ ∈ childChan csMessage cfg v a p
      simp [head]
  cases fails with
  | requestCs pc failed =>
    by_cases vacant : queueLookup (v.loc p).locals.mux.queue p = emptyRequestTime
    · cases (requestCs_of_vacant vacant).symm.trans failed
    · cases (requestCs_of_queued vacant).symm.trans failed
  | take pc failed =>
    obtain ⟨type, queued⟩ := requestCsTake_none failed
    exact queued ((accepted ready).1 type)
  | takeUnexpected pc taken cs =>
    rcases requestCsTake_some taken with ⟨l₁, out₁, -, test⟩ | ⟨⟨noReply, noRequest⟩, -, -, -⟩
    · exact enterIf_cs _ _ l₁ out₁ (congrArg Prod.fst test).symm
    · rcases cs with request | reply | release
      · exact noRequest request
      · exact noReply reply
      · exact (accepted ready).2.2 release
  | @retry i q m l out pc taken type failed =>
    by_cases vacant : queueLookup l.mux.queue p = emptyRequestTime
    · cases (requestCs_of_vacant vacant).symm.trans failed
    · cases (requestCs_of_queued vacant).symm.trans failed
  | empty pc failed => cases failed
  | release pc failed =>
    have inside : (image cfg v os).phase p ≠ .idle := by simp [image, grants, pc, Pc.phase]
    have queued : queueLookup (v.loc p).locals.mux.queue p ≠ emptyRequestTime :=
      (h.inv.grants.standing p).mpr inside
    obtain ⟨l', out, run, -⟩ := @releaseCs_of_queued cfg _ _ queued
    cases run.symm.trans failed
  | @handle q m pc failed =>
    have failed := (@handleCsRequests_eq cfg p q m _).symm.trans failed
    split at failed <;> cases failed
  | @handleUnexpected q m l out pc taken cs =>
    have taken := (@handleCsRequests_eq cfg p q m _).symm.trans taken
    split at taken
    next => cases taken
    next noRequest =>
      rcases cs with request | reply | release
      · exact noRequest request
      · exact (accepted ready).2.1 (by rw [pc]; rfl) reply
      · exact (accepted ready).2.2 release

end Refined

/-! ## Every run -/

/-- The entries of a run of all children, as `(t, id)` with `t` the time of the request. -/
def MutexRun.entries (r : MutexRun cfg mutex) : List (ℕ ×ₗ ℕ) :=
  entryLabels (r.observations own)

theorem refined (r : MutexRun cfg mutex) : Refined cfg r.final.view (r.observations own) := by
  have all := MutexRun.invariant mutex_lawful own Refined.initial
    (fun v os p input control inv child ready => inv.safe (p := ⟨p, child⟩) control ready)
    (fun v os p input next control inv child ready step =>
      inv.keep (p := ⟨p, child⟩) control ready step)
    (fun v v' os inv frame => inv.parent frame) r
  exact all.2.2

/-- At most one child is in its critical section. -/
theorem ricart_mutual_exclusion (r : MutexRun cfg mutex) :
    Set.Subsingleton {p | IsChild cfg.numChildren p ∧ (r.final.loc p).pc.Inside} :=
  grants_exclusive (refined r).inv.grants

/-- Critical sections are entered in the order of their requests. -/
theorem ricart_entries_increasing (r : MutexRun cfg mutex) :
    (MutexRun.entries r).Pairwise (· < ·) :=
  entryLabels_sorted (refined r).entries (refined r).inv.grants.sorted

end Distra.Pa5
