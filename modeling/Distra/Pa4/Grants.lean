import Distra.Exclusion.Messages
import Distra.Exclusion.Order
import Distra.Pa4.RequestQueue
import Distra.Pa4.Runs
import Mathlib.Data.Fintype.Card
import Mathlib.Order.Interval.Finset.Nat

/-!
# The children as processes that are granted requests

The part of a state that `pa4` and `pa5` share: clocks, program points and the time of the request
that every child has in its own slot of the queue.
-/

namespace Distra

open Network Exclusion Function RequestQueue

variable {μ : Type} {cfg : Config}

abbrev Child (n : Nat) := {p : Nat // IsChild n p}

instance (n : Nat) : Fintype (Child n) :=
  Fintype.subtype (Finset.Icc 1 n) (fun _ => Finset.mem_Icc)

theorem card_child (n : Nat) : Fintype.card (Child n) = n :=
  (Fintype.subtype_card (Finset.Icc 1 n) _).trans (by simp)

/-- The phase that `request_cs` and `release_cs` give to a child. -/
def Pc.phase : Pc → Phase
  | .requestCs _ => .waiting
  | .criticalSection _ => .inside
  | _ => .idle

theorem Pc.phase_eq_inside {pc : Pc} : pc.phase = .inside ↔ pc.Inside := by
  cases pc <;> simp [Pc.phase, Pc.Inside]

theorem Pc.Finished.phase {pc : Pc} (h : pc.Finished) : pc.phase = .idle := by
  rcases h with rfl | rfl <;> rfl

/-- The critical sections entered, by the time of the request and the child. -/
def entryLabels (os : List Observation) : List (ℕ ×ₗ ℕ) :=
  os.filterMap fun
    | .entered p t => some (toLex (t, p))
    | _ => none

def served (n : Nat) (os : List Observation) : List (Label (Child n)) :=
  (entryLabels os).filterMap fun l =>
    if h : IsChild n (ofLex l).2 then some (toLex ((ofLex l).1, ⟨(ofLex l).2, h⟩)) else none

/-- `own` reads the time of a child's request. -/
def grants (cfg : Config) (own : Nat → Process μ → Nat) (v : ProcessView μ)
    (os : List Observation) : Grants (Child cfg.numChildren) where
  clock p := (v.loc p).lamportTime
  phase p := (v.loc p).pc.phase
  request p := own p (v.loc p)
  served := served cfg.numChildren os

/-- Requests are granted to one child at a time. -/
theorem grants_exclusive {own : Nat → Process μ → Nat} {v : ProcessView μ} {os : List Observation}
    (inv : (grants cfg own v os).Inv) :
    Set.Subsingleton {p | IsChild cfg.numChildren p ∧ (v.loc p).pc.Inside} := by
  intro p hp q hq
  have inside (a : Child cfg.numChildren) (ha : (v.loc a).pc.Inside) :
      a ∈ {a | (grants cfg own v os).phase a = .inside} := Pc.phase_eq_inside.mpr ha
  exact congrArg Subtype.val (inv.exclusive (inside ⟨p, hp.1⟩ hp.2) (inside ⟨q, hq.1⟩ hq.2))

theorem entryLabels_append (os os' : List Observation) :
    entryLabels (os ++ os') = entryLabels os ++ entryLabels os' := List.filterMap_append

theorem entryLabels_childEvents (stamp : Nat → Process μ → Nat) (p : Nat)
    (input : Option (Nat × Message)) (st st' : Process μ) :
    entryLabels (childEvents stamp p input st st') =
      if ¬st.pc.Inside ∧ st'.pc.Inside then [toLex (stamp p st', p)] else [] := by
  have took : entryLabels (input.toList.map fun x => .took p x.1 x.2) = [] := by
    cases input <;> rfl
  rw [childEvents, entryLabels_append, took]
  split <;> rfl

theorem served_append (n : Nat) (os os' : List Observation) :
    served n (os ++ os') = served n os ++ served n os' := by
  rw [served, entryLabels_append, List.filterMap_append]
  rfl

theorem served_childEvents {n : Nat} (stamp : Nat → Process μ → Nat) (p : Child n)
    (input : Option (Nat × Message)) (st st' : Process μ) :
    served n (childEvents stamp p input st st') =
      if st.pc.phase ≠ .inside ∧ st'.pc.phase = .inside then [toLex (stamp p st', p)] else [] := by
  rw [served, entryLabels_childEvents]
  simp only [ne_eq, Pc.phase_eq_inside]
  split
  · simp [p.2]
  · rfl

theorem entryLabels_sorted {n : Nat} {os : List Observation}
    (children : ∀ l ∈ entryLabels os, IsChild n (ofLex l).2)
    (sorted : (served n os).Pairwise (· < ·)) : (entryLabels os).Pairwise (· < ·) := by
  rw [served, List.pairwise_filterMap] at sorted
  apply sorted.imp_of_mem
  intro l l' mem mem' lt
  rcases Prod.Lex.lt_iff.mp (lt _ (dif_pos (children l mem)) _ (dif_pos (children l' mem')))
    with earlier | ⟨same, before⟩
  · exact Prod.Lex.lt_iff.mpr (.inl earlier)
  · exact Prod.Lex.lt_iff.mpr (.inr ⟨same, before⟩)

/-- A function of the local states of the children, after a step of `p`. -/
theorem update_child {α : Type} {n : Nat} (p : Child n) (f : Nat → Process μ → α)
    (v : ProcessView μ) (input : Option (Nat × Message)) (next : Next Nat (Process μ) Message) :
    (fun a : Child n => f a (((v.consume p input).become p next).loc a)) =
      update (fun a : Child n => f a (v.loc a)) p (f p next.1) := by
  funext a
  rw [View.consume_become_loc]
  by_cases eq : a = p
  · subst eq
    simp
  · have : a.1 ≠ p.1 := fun k => eq (Subtype.ext k)
    simp [eq, this]

theorem grants_become (own : Nat → Process μ → Nat) (v : ProcessView μ) (os : List Observation)
    (p : Child cfg.numChildren) (input : Option (Nat × Message))
    (next : Next Nat (Process μ) Message) :
    grants cfg own ((v.consume p input).become p next)
        (os ++ childEvents own p input (v.loc p) next.1) =
      { clock := update (grants cfg own v os).clock p next.1.lamportTime
        phase := update (grants cfg own v os).phase p next.1.pc.phase
        request := update (grants cfg own v os).request p (own p next.1)
        served := served cfg.numChildren os ++
          if (v.loc p).pc.phase ≠ .inside ∧ next.1.pc.phase = .inside then
            [toLex (own p next.1, p)] else [] } := by
  unfold grants
  rw [update_child p (fun _ st => st.lamportTime), update_child p (fun _ st => st.pc.phase),
    update_child p own, served_append, served_childEvents]

theorem grants_parent (own : Nat → Process μ → Nat) {v v' : ProcessView μ}
    (os : List Observation) (frame : ParentFrame v v') :
    grants cfg own v' os = grants cfg own v os := by
  have loc (p : Child cfg.numChildren) : v'.loc p = v.loc p := frame.loc p p.2.ne_parent
  simp only [grants, loc]

theorem update_same {α β : Type} [DecidableEq α] {f : α → β} {a : α} {b : β} (h : b = f a) :
    update f a b = f := h ▸ update_eq_self a f

/-! ## The slots of a queue -/

/-- The slots of `queue` but that of its owner `p`. -/
def otherSlots (p : Nat) (queue : RequestQueue) (q : Child cfg.numChildren) : ℕ :=
  if q.1 = p then 0 else queueLookup queue q

section Slots

variable {p q : Child cfg.numChildren}

theorem otherSlots_of_ne (ne : q ≠ p) (queue : RequestQueue) :
    otherSlots p queue q = queueLookup queue q :=
  if_neg fun k => ne (Subtype.ext k)

theorem otherSlots_own (queue : RequestQueue) (t : Nat) :
    otherSlots p (queue.setSlot p t) = (otherSlots p queue : Child cfg.numChildren → ℕ) := by
  funext a
  by_cases eq : a.1 = p.1
  · simp [otherSlots, eq]
  · simp [otherSlots, eq, queueLookup_setSlot_ne _ _ p.2.1 a.2.1 eq]

theorem otherSlots_setSlot (ne : q ≠ p) (queue : RequestQueue) (t : Nat) :
    otherSlots p (queue.setSlot q t) =
      update (otherSlots p queue : Child cfg.numChildren → ℕ) q t := by
  funext a
  by_cases eq : a = q
  · subst eq
    have : a.1 ≠ p.1 := fun k => ne (Subtype.ext k)
    simp [otherSlots, this]
  · have : a.1 ≠ q.1 := fun k => eq (Subtype.ext k)
    simp [otherSlots, eq, queueLookup_setSlot_ne _ _ q.2.1 a.2.1 this]

theorem queueLookup_setSlot_child (ne : q ≠ p) (queue : RequestQueue) (t : Nat) :
    queueLookup (queue.setSlot q t) p = queueLookup queue p :=
  queueLookup_setSlot_ne _ _ q.2.1 p.2.1 (fun k => ne (Subtype.ext k.symm))

end Slots

/-! ## CS messages in transit -/

def csMessage (m : Message) : Option Msg :=
  match m.type with
  | .csRequest => some (.request m.localTime)
  | .csReply => some (.reply m.localTime)
  | .csRelease => some (.release m.localTime)
  | _ => none

theorem csMessage_eq_none {m : Message} : csMessage m = none ↔ ¬m.type.IsCs := by
  obtain ⟨type, t⟩ := m
  cases type <;> simp [csMessage, MessageType.IsCs]

/-- What `f` keeps of the messages in transit between the children. -/
def childChan {N : Type} (f : Message → Option N) (cfg : Config) (v : ProcessView μ) :
    Channels (Child cfg.numChildren) N :=
  fun a b => (v.chan a b).filterMap f

section Traffic

variable {N : Type} {f : Message → Option N} {v : ProcessView μ} {p : Child cfg.numChildren}
  {m : Message} {input : Option (Nat × Message)}

@[simp] theorem childChan_none (p : Nat) :
    childChan f cfg (v.consume p none) = childChan f cfg v := rfl

theorem childChan_dropped {q : Nat} (ready : Ready cfg v p (some (q, m))) (dropped : f m = none) :
    childChan f cfg (v.consume p (some (q, m))) = childChan f cfg v := by
  obtain ⟨-, -, rest, head⟩ := ready
  have := Channels.filterMap_pop_none f v.chan head dropped
  funext a b
  exact congrFun (congrFun this a) b

theorem childChan_taken {q : Child cfg.numChildren} (ready : Ready cfg v p (some (q.1, m))) {x : N}
    (kept : f m = some x) :
    childChan f cfg (v.consume p (some (q.1, m))) = (childChan f cfg v).pop q p ∧
      ∃ rest, childChan f cfg v q p = x :: rest := by
  obtain ⟨-, -, rest, head⟩ := ready
  refine ⟨?_, rest.filterMap f, by simp [childChan, head, kept]⟩
  have := Channels.filterMap_pop_some f v.chan head kept
  funext a b
  have at_ := congrFun (congrFun this a.1) b.1
  simp only [Channels.filterMap_apply, Channels.pop] at at_
  simp only [childChan, View.consume, View.pop, Channels.pop, at_, Subtype.ext_iff]

theorem childChan_parent {v' : ProcessView μ} (frame : ParentFrame v v') :
    childChan f cfg v' = childChan f cfg v := by
  funext a b
  simp only [childChan, frame.chan a b b.2.ne_parent]

theorem childChan_become (next : Next Nat (Process μ) Message) :
    childChan f cfg ((v.consume p input).become p next) =
      Channels.post (childChan f cfg (v.consume p input)) p
        (fun q => (outTo next.2 q.1).filterMap f) := by
  funext a b
  rw [childChan, View.consume_become_chan]
  by_cases eq : a = p
  · subst eq
    simp [childChan]
  · have : a.1 ≠ p.1 := fun k => eq (Subtype.ext k)
    simp [this, Channels.post_ne _ eq, childChan]

theorem csMessage_request (type : m.type = .csRequest) :
    csMessage m = some (.request m.localTime) := by simp only [csMessage, type]

theorem csMessage_reply (type : m.type = .csReply) :
    csMessage m = some (.reply m.localTime) := by simp only [csMessage, type]

theorem csMessage_release (type : m.type = .csRelease) :
    csMessage m = some (.release m.localTime) := by simp only [csMessage, type]

theorem filterMap_outTo_none {out : Sends} (other : ∀ x ∈ out, ¬x.2.type.IsCs) (a : Nat) :
    (outTo out a).filterMap csMessage = [] :=
  List.filterMap_eq_nil_iff.mpr fun _ mem => csMessage_eq_none.mpr (other _ (mem_outTo.mp mem))

theorem outTo_multicastToChildren {n p a : Nat} (child : IsChild n a) (m : Message) :
    outTo (ipcMulticastToChildren n p m) a = if a = p then [] else [m] := by
  rw [ipcMulticastToChildren, outTo_multicast _ (otherChildren_nodup n p)]
  by_cases eq : a = p <;> simp [eq, child.1, child.2]

theorem filterMap_multicast (p : Child cfg.numChildren) {m : Message} {x : Msg}
    (cs : csMessage m = some x) :
    (fun a : Child cfg.numChildren =>
        (outTo (ipcMulticastToChildren cfg.numChildren p m) a.1).filterMap csMessage) =
      toPeers p x := by
  funext a
  rw [outTo_multicastToChildren a.2, toPeers]
  by_cases eq : a = p
  · simp [eq]
  · have : a.1 ≠ p.1 := fun k => eq (Subtype.ext k)
    simp [eq, this, cs]

theorem filterMap_reply (q : Child cfg.numChildren) (t : Nat) :
    (fun a : Child cfg.numChildren =>
        (outTo [(q.1, (⟨.csReply, t⟩ : Message))] a.1).filterMap csMessage) =
      only q (.reply t) := by
  funext a
  rw [outTo_cons, only]
  by_cases eq : a = q
  · simp [eq, csMessage]
  · have : q.1 ≠ a.1 := fun k => eq (Subtype.ext k.symm)
    simp [eq, this]

end Traffic

/-! ## An entry as a step of its own -/

theorem become_append (v : ProcessView μ) (p : Nat) (st st' : Process μ) (out out' : Sends) :
    (v.become p (st, out)).become p (st', out') = v.become p (st', out ++ out') := by
  have outs : outTo (out ++ out') = fun b => outTo out b ++ outTo out' b :=
    funext (outTo_append out out')
  simp [View.become, Channels.post_post, outs]

theorem become_become (v : ProcessView μ) (p : Nat) (st st' : Process μ) (out : Sends) :
    (v.become p (st, out)).become p (st', []) = v.become p (st', out) := by
  rw [become_append, List.append_nil]

theorem childEvents_split (stamp : Nat → Process μ → Nat) (p : Nat)
    (input : Option (Nat × Message)) {st mid : Process μ} (st' : Process μ)
    (before : ¬st.pc.Inside) (between : ¬mid.pc.Inside) :
    childEvents stamp p input st mid ++ childEvents stamp p none mid st' =
      childEvents stamp p input st st' := by
  simp [childEvents, before, between]

/-! ## Steps outside the mutex -/

/-- A step that has no effect but on the clock and the traffic other than CS messages. -/
structure Quiet (st : Process μ) (input : Option (Nat × Message))
    (next : Next Nat (Process μ) Message) : Prop where
  mux : next.1.mux = st.mux
  later : st.lamportTime ≤ next.1.lamportTime
  phase : next.1.pc.phase = st.pc.phase
  sends : ∀ x ∈ next.2, ¬x.2.type.IsCs
  takes : ∀ q m, input = some (q, m) → ¬m.type.IsCs

/-- The steps of a child, those outside the mutex being of one kind. -/
inductive MutexStep (cfg : Config) (M : MutexCode μ) (p : Nat) (st : Process μ) :
    Option (Nat × Message) → Next Nat (Process μ) Message → Prop
  | quiet {input next} : Quiet st input next → MutexStep cfg M p st input next
  | request {i l out} : st.pc = .iteration i → M.requestCs cfg p st.locals = some (l, out) →
      MutexStep cfg M p st none (st.at_ (.requestCs i) l, out)
  | served {i q m verdict l out} : st.pc = .requestCs i →
      M.requestCsTake cfg p st.locals q m = some (verdict, l, out) →
      verdict ≠ .nonCsMessageReceived →
      MutexStep cfg M p st (some (q, m)) (st.at_ (verdict.pc i) l, out)
  | doneServed {i q m l out l' out' k} : st.pc = .requestCs i →
      M.requestCsTake cfg p st.locals q m = some (.nonCsMessageReceived, l, out) →
      m.type = .done → M.requestCs cfg p l = some (l', out') →
      MutexStep cfg M p st (some (q, m))
        ({ st.at_ (.requestCs i) l' with awaitingChildren := k }, out')
  | idle {i verdict l out} : st.pc = .requestCs i →
      M.requestCsEmpty cfg p st.locals = some (verdict, l, out) →
      MutexStep cfg M p st none (st.at_ (verdict.pc i) l, out)
  | release {i l out} : st.pc = .criticalSection i →
      M.releaseCs cfg p st.locals = some (l, out) →
      MutexStep cfg M p st none (st.at_ (.iteration (i + 1)) l, out)
  | handled {q m verdict l out} : st.pc = .handleCsRequests →
      M.handleCsRequests cfg p st.locals q m = some (verdict, l, out) →
      verdict ≠ .nonCsMessageReceived →
      MutexStep cfg M p st (some (q, m)) (st.at_ .handleCsRequests l, out)
  | doneHandled {q m l out pc k} : st.pc = .handleCsRequests → pc.Finished →
      M.handleCsRequests cfg p st.locals q m = some (.nonCsMessageReceived, l, out) →
      m.type = .done →
      MutexStep cfg M p st (some (q, m))
        ({ st.at_ pc l with awaitingChildren := k }, [])

/-- Nothing comes after `child_send_done` but the last loop. -/
theorem LocalStep.finished {M : MutexCode μ} {p : Nat} {st : Process μ}
    {input : Option (Nat × Message)} {next : Next Nat (Process μ) Message}
    (h : LocalStep cfg M p st input next) (finished : st.pc.Finished) : next.1.pc.Finished := by
  cases h with
  | handled => exact .inl rfl
  | doneHandled => exact finalLoop_finished _
  | handleWait => exact finished
  | syncStarted pc | barrier pc | barrierWait pc | barrierEnd pc | request pc | finish pc
  | served pc | doneServed pc | idle pc | release pc => simp [pc, Pc.Finished] at finished

theorem LocalStep.mutex {M : MutexCode μ} {p : Nat} {st : Process μ}
    {input : Option (Nat × Message)} {next : Next Nat (Process μ) Message}
    (h : LocalStep cfg M p st input next) : MutexStep cfg M p st input next := by
  have multicast {type : MessageType} {t : Nat} (other : ¬type.IsCs) :
      ∀ x ∈ sendMulticast cfg.numChildren p (⟨type, t⟩ : Message), ¬x.2.type.IsCs := by
    intro x hx
    obtain ⟨_, _, rfl⟩ := List.mem_map.mp hx
    exact other
  cases h with
  | syncStarted pc =>
    refine .quiet ⟨rfl, (lt_advanceLamportTime _).le, by simp [childSyncStarted, pc, Pc.phase], ?_,
      by simp⟩
    exact multicast (by simp [MessageType.IsCs])
  | barrier pc next type =>
    refine .quiet ⟨rfl, (lt_synchronizeTime _ _).le, by simp [pc, Pc.phase], by simp, ?_⟩
    intro _ _ eq
    cases eq
    simp [type, MessageType.IsCs]
  | barrierWait pc =>
    exact .quiet ⟨rfl, le_rfl, rfl, by simp, by simp⟩
  | barrierEnd pc =>
    exact .quiet ⟨rfl, le_rfl, by simp [pc, Pc.phase], by simp, by simp⟩
  | request pc _ requested => exact .request pc requested
  | finish pc =>
    refine .quiet ⟨rfl, (lt_advanceLamportTime _).le, ?_, ?_, by simp⟩
    · exact (finalLoop_finished _).phase.trans (by simp [pc, Pc.phase])
    · exact multicast (by simp [MessageType.IsCs])
  | served pc taken cs => exact .served pc taken cs
  | doneServed pc taken type retried => exact .doneServed pc taken type retried
  | idle pc found => exact .idle pc found
  | release pc released => exact .release pc released
  | handled pc taken cs => exact .handled pc taken cs
  | doneHandled pc taken type => exact .doneHandled pc (finalLoop_finished _) taken type
  | handleWait pc =>
    exact .quiet ⟨rfl, le_rfl, rfl, by simp, by simp⟩

end Distra
