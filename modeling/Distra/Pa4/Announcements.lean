import Distra.Pa4.Parent
import Distra.Pa4.Shutdown

/-!
# `STARTED` and `DONE`, as the parent gets them

Every child announces its start and its end to all the others. The parent takes the two messages of
each child in this order, and so never meets a message of an unexpected type.
-/

namespace Distra

open Network

variable {μ : Type} {cfg : Config} {M : MutexCode μ}

/-- The messages of a mutex go to children. -/
structure MutexCode.Among (M : MutexCode μ) : Prop where
  requestCs : ∀ {cfg p l l' out}, M.requestCs cfg p l = some (l', out) →
    ∀ x ∈ out, IsChild cfg.numChildren x.1
  take : ∀ {cfg p l q m verdict l' out}, IsChild cfg.numChildren q →
    M.requestCsTake cfg p l q m = some (verdict, l', out) →
      ∀ x ∈ out, IsChild cfg.numChildren x.1
  empty : ∀ {cfg p l verdict l' out}, M.requestCsEmpty cfg p l = some (verdict, l', out) →
    ∀ x ∈ out, IsChild cfg.numChildren x.1
  release : ∀ {cfg p l l' out}, M.releaseCs cfg p l = some (l', out) →
    ∀ x ∈ out, IsChild cfg.numChildren x.1
  handle : ∀ {cfg p l q m verdict l' out}, IsChild cfg.numChildren q →
    M.handleCsRequests cfg p l q m = some (verdict, l', out) →
      ∀ x ∈ out, IsChild cfg.numChildren x.1

instance : DecidablePred MessageType.IsCs :=
  fun _ => inferInstanceAs (Decidable (_ ∨ _ ∨ _))

/-- The types of the messages that are not CS messages. -/
def announcements (l : List Message) : List MessageType :=
  (l.map Message.type).filter fun t => ¬t.IsCs

/-- What a child at this point has announced to every other process. -/
def Pc.announced (pc : Pc) : List MessageType :=
  if pc = .childSyncStarted then [] else if pc.Finished then [.started, .done] else [.started]

@[simp] theorem announcements_append (l l' : List Message) :
    announcements (l ++ l') = announcements l ++ announcements l' := by
  simp [announcements]

theorem announcements_of_cs {l : List Message} (cs : ∀ m ∈ l, m.type.IsCs) :
    announcements l = [] := by
  refine List.filter_eq_nil_iff.mpr fun t mem => ?_
  obtain ⟨m, member, rfl⟩ := List.mem_map.mp mem
  simpa using cs m member

/-- Without CS messages the announcements are all there is. -/
theorem announcements_eq_map {l : List Message} (other : ∀ m ∈ l, ¬m.type.IsCs) :
    announcements l = l.map Message.type := by
  refine List.filter_eq_self.mpr fun t mem => ?_
  obtain ⟨m, member, rfl⟩ := List.mem_map.mp mem
  simpa using other m member

theorem Pc.Finished.announced {pc : Pc} (h : pc.Finished) : pc.announced = [.started, .done] := by
  rw [Pc.announced, if_neg h.not_start, if_pos h]

section Step

variable {p q : Nat} {st : Process μ} {v : ProcessView μ} {input : Option (Nat × Message)}
  {next : Next Nat (Process μ) Message} {t : Traffic Nat (Process μ) Message}

theorem multicastToChildren_child {n p : Nat} {m : Message} :
    ∀ x ∈ ipcMulticastToChildren n p m, IsChild n x.1 := by
  intro x mem
  obtain ⟨dst, other, rfl⟩ := List.mem_map.mp mem
  exact (mem_otherChildren.mp other).1

/-- A child announces, or it talks to children about the critical section. -/
theorem LocalStep.dests (step : LocalStep cfg M p st input next) (among : M.Among)
    (senders : ∀ x ∈ input, IsChild cfg.numChildren x.1) :
    ∀ x ∈ next.2, x.1 ≤ cfg.numChildren ∧ (x.2.type.IsCs → x.1 ≠ parentId) := by
  have multicast {type : MessageType} {t : Nat} (other : ¬type.IsCs) :
      ∀ x ∈ sendMulticast cfg.numChildren p (⟨type, t⟩ : Message),
        x.1 ≤ cfg.numChildren ∧ (x.2.type.IsCs → x.1 ≠ parentId) := by
    intro x mem
    obtain ⟨dst, member, rfl⟩ := List.mem_map.mp mem
    exact ⟨(mem_otherProcesses.mp member).1, fun cs => absurd cs other⟩
  have children {out : Sends} (h : ∀ x ∈ out, IsChild cfg.numChildren x.1) :
      ∀ x ∈ out, x.1 ≤ cfg.numChildren ∧ (x.2.type.IsCs → x.1 ≠ parentId) :=
    fun x mem => ⟨(h x mem).2, fun _ => (h x mem).ne_parent⟩
  cases step with
  | syncStarted | finish => exact multicast (by decide)
  | barrier | barrierWait | barrierEnd | doneHandled | handleWait => exact nofun
  | request _ _ requested => exact children (among.requestCs requested)
  | served _ taken => exact children (among.take (senders _ rfl) taken)
  | doneServed _ _ _ retried => exact children (among.requestCs retried)
  | idle _ found => exact children (among.empty found)
  | release _ released => exact children (among.release released)
  | handled _ taken => exact children (among.handle (senders _ rfl) taken)

theorem ControlStep.announced {n : Nat} {pc pc' : Pc} {awaiting awaiting' : Int} {out : Sends}
    (step : ControlStep n p pc awaiting input pc' awaiting' out) (le : q ≤ n) (ne : q ≠ p) :
    pc'.announced = pc.announced ++ announcements (outTo out q) := by
  have same (sent : pc ≠ .childSyncStarted) (running : pc' ≠ .childSyncStarted)
      (finished : pc'.Finished ↔ pc.Finished) (cs : CsSends out) :
      pc'.announced = pc.announced ++ announcements (outTo out q) := by
    rw [announcements_of_cs (outTo_cs cs q), List.append_nil, Pc.announced, Pc.announced,
      if_neg sent, if_neg running]
    simp only [finished]
  cases step with
  | syncStarted start =>
    subst start
    rw [outTo_sendMulticast le ne]
    rfl
  | barrier start =>
    subst start
    rfl
  | finish start =>
    subst start
    rw [outTo_sendMulticast le ne, (finalLoop_finished awaiting).announced]
    rfl
  | work sent running _ _ finished _ _ cs => exact same sent running finished cs
  | done past past' _ _ finished _ _ cs =>
    exact same (fun start => past (.inl start)) (fun start => past' (.inl start)) finished cs

/-- What every child has sent, as far as it does not concern the critical section. -/
structure Announced (cfg : Config) (v : ProcessView μ)
    (t : Traffic Nat (Process μ) Message) : Prop where
  sent : ∀ p q, IsChild cfg.numChildren p → q ≤ cfg.numChildren → q ≠ p →
    announcements ((t.sent p q).map Prod.snd) = (v.loc p).pc.announced
  parent : ∀ p, ∀ x ∈ t.sent p parentId, ¬x.2.type.IsCs
  silent : ∀ p q, ¬IsChild cfg.numChildren p → t.sent p q = []
  within : ∀ p q, cfg.numChildren < q → t.sent p q = []
  own : ∀ p, t.sent p p = []

theorem Announced.initial (cfg : Config) (M : MutexCode μ) :
    Announced cfg (initialState cfg M).view .none where
  sent p q child _ _ := by
    have pc : ((initialState cfg M).view.loc p).pc = .childSyncStarted := by
      simp [initialState, initialProcess, child.ne_parent]
    rw [pc]
    rfl
  parent _ _ mem := absurd mem List.not_mem_nil
  silent _ _ _ := rfl
  within _ _ _ := rfl
  own _ := rfl

theorem Announced.step (h : Announced cfg v t) (lawful : M.Lawful) (outward : M.Outward)
    (among : M.Among) (child : IsChild cfg.numChildren p) (ready : Ready cfg v p input)
    (senders : ∀ x ∈ input, IsChild cfg.numChildren x.1)
    (step : LocalStep cfg M p (v.loc p) input next) :
    Announced cfg ((v.consume p input).become p next) (t.step p input next) := by
  have sent (a b : Nat) : (t.step p input next).sent a b =
      t.sent a b ++ if a = p then (outTo next.2 b).map (next.1, ·) else [] := rfl
  have dests := step.dests among senders
  refine ⟨fun a b ha le ne => ?_, fun a x mem => ?_, fun a b out => ?_, fun a b far => ?_,
    fun a => ?_⟩
  · have before := h.sent a b ha le ne
    rw [sent, View.consume_become_loc, List.map_append, announcements_append, before]
    split
    next actor =>
      subst actor
      rw [(step.control lawful).announced le ne]
      simp [Function.comp_def]
    next => exact List.append_nil _
  · rw [sent] at mem
    rcases List.mem_append.mp mem with mem | mem
    · exact h.parent a x mem
    · split at mem
      · obtain ⟨m, member, rfl⟩ := List.mem_map.mp mem
        exact fun cs => (dests _ (mem_outTo.mp member)).2 cs rfl
      · cases mem
  · have other : a ≠ p := fun eq => out (eq ▸ child)
    rw [sent, if_neg other, h.silent a b out]
    rfl
  · have none_ : outTo next.2 b = [] := List.eq_nil_iff_forall_not_mem.mpr fun m mem =>
      Nat.not_le.mpr far (dests _ (mem_outTo.mp mem)).1
    rw [sent, h.within a b far, none_, List.map_nil, ite_self]
    rfl
  · rw [sent, h.own]
    split
    next actor =>
      have none_ : outTo next.2 a = [] := List.eq_nil_iff_forall_not_mem.mpr fun m mem =>
        step.outward outward ready _ (mem_outTo.mp mem) actor
      rw [none_]
      rfl
    next => rfl

theorem Announced.parentStep (h : Announced cfg v t) (input : Option (Nat × Message))
    (st : Process μ) : Announced cfg ((v.consume parentId input).become parentId (st, []))
      (t.step parentId input (st, [])) := by
  have sent (a b : Nat) : (t.step parentId input (st, [])).sent a b = t.sent a b := by
    simp [Traffic.step]
  refine ⟨fun a b ha le ne => ?_, fun a x mem => ?_, fun a b out => ?_, fun a b far => ?_,
    fun a => ?_⟩
  · rw [sent, View.consume_become_loc, if_neg ha.ne_parent]
    exact h.sent a b ha le ne
  · rw [sent] at mem
    exact h.parent a x mem
  · rw [sent, h.silent a b out]
  · rw [sent, h.within a b far]
  · rw [sent, h.own]

end Step

/-! ## The barriers of the parent -/

/-- What the parent at this point has taken from child `q`. -/
def Pc.heard (q : Nat) : Pc → List MessageType
  | .awaitAllStarted fr => if q ≤ fr then [.started] else []
  | .awaitAllDone fr => if q ≤ fr then [.started, .done] else [.started]
  | .exited => [.started, .done]
  | _ => []

theorem heard_started {fr : Nat} {m : Message} (type : m.type = .started) (q : Nat) :
    (Pc.awaitAllStarted (fr + 1)).heard q =
      (Pc.awaitAllStarted fr).heard q ++ (outTo [(fr + 1, m)] q).map Message.type := by
  rw [outTo_cons, outTo_nil, List.append_nil]
  simp only [Pc.heard]
  by_cases now : fr + 1 = q
  · subst now
    simp [type]
  · have same : q ≤ fr + 1 ↔ q ≤ fr := by omega
    simp [now, same]

theorem heard_done {fr : Nat} {m : Message} (type : m.type = .done) (q : Nat) :
    (Pc.awaitAllDone (fr + 1)).heard q =
      (Pc.awaitAllDone fr).heard q ++ (outTo [(fr + 1, m)] q).map Message.type := by
  rw [outTo_cons, outTo_nil, List.append_nil]
  simp only [Pc.heard]
  by_cases now : fr + 1 = q
  · subst now
    simp [type]
  · have same : q ≤ fr + 1 ↔ q ≤ fr := by omega
    simp [now, same]

/-- The parent stands at one of its barriers, or behind them. -/
def Pc.Oversees (pc : Pc) : Prop :=
  (∃ fr, pc = .awaitAllStarted fr) ∨ (∃ fr, pc = .awaitAllDone fr) ∨ pc = .exited

/-- The parent, and what it has taken from every child. -/
structure Overseen (cfg : Config) (v : ProcessView μ)
    (t : Traffic Nat (Process μ) Message) : Prop where
  announced : Announced cfg v t
  oversees : (v.loc parentId).pc.Oversees
  heard : ∀ q, IsChild cfg.numChildren q →
    (t.taken parentId q).map Message.type = (v.loc parentId).pc.heard q

section Overseen

variable {v : ProcessView μ} {t : Traffic Nat (Process μ) Message} {q : Nat}

/-- The channel from a child to the parent holds what the parent has not taken yet. -/
theorem Overseen.chan (h : Overseen cfg v t)
    (fifo : ∀ a b, (t.sent a b).map Prod.snd = t.taken b a ++ v.chan a b)
    (child : IsChild cfg.numChildren q) :
    (v.loc q).pc.announced =
      (v.loc parentId).pc.heard q ++ (v.chan q parentId).map Message.type := by
  have sent := h.announced.sent q parentId child (parent_le _) child.ne_parent.symm
  rw [announcements_eq_map, fifo, List.map_append, h.heard q child] at sent
  · exact sent.symm
  · intro m mem
    obtain ⟨x, member, rfl⟩ := List.mem_map.mp mem
    exact h.announced.parent q x member

theorem Pc.announced_prefix (pc : Pc) : pc.announced <+: [.started, .done] := by
  unfold Pc.announced
  split
  · exact List.nil_prefix
  · split
    · exact List.prefix_refl _
    · exact ⟨[.done], rfl⟩

/-- A message to the parent is the one that the parent waits for. -/
theorem Overseen.expected (h : Overseen cfg v t)
    (fifo : ∀ a b, (t.sent a b).map Prod.snd = t.taken b a ++ v.chan a b)
    (child : IsChild cfg.numChildren q) {m : Message} {rest : List Message}
    (head : v.chan q parentId = m :: rest) :
    (v.loc parentId).pc.heard q ++ [m.type] <+: [.started, .done] := by
  have chan := h.chan fifo child
  refine List.IsPrefix.trans ⟨rest.map Message.type, ?_⟩ (v.loc q).pc.announced_prefix
  rw [chan, head, List.map_cons, List.append_assoc, List.singleton_append]

theorem Overseen.parentStep (h : Overseen cfg v t)
    (fifo : ∀ a b, (t.sent a b).map Prod.snd = t.taken b a ++ v.chan a b)
    {input : Option (Nat × Message)} {st : Process μ} (offers : v.Offers parentId input)
    (step : ParentStep cfg.numChildren (v.loc parentId) input st) :
    Overseen cfg ((v.consume parentId input).become parentId (st, []))
      (t.step parentId input (st, [])) := by
  have announced := h.announced.parentStep input st
  have loc : ((v.consume parentId input).become parentId (st, [])).loc parentId = st := by
    rw [View.consume_become_loc, if_pos rfl]
  have taken (q : Nat) : (t.step parentId input (st, [])).taken parentId q =
      t.taken parentId q ++ outTo input.toList q := congrArg (_ ++ ·) (if_pos rfl)
  have heard (grown : ∀ q, IsChild cfg.numChildren q →
      st.pc.heard q = (v.loc parentId).pc.heard q ++ (outTo input.toList q).map Message.type) :
      ∀ q, IsChild cfg.numChildren q →
        ((t.step parentId input (st, [])).taken parentId q).map Message.type =
          (((v.consume parentId input).become parentId (st, [])).loc parentId).pc.heard q := by
    intro q child
    rw [taken, loc, List.map_append, h.heard q child, grown q child]
  have source {fr q : Nat} (found : ipcReceiveAllNext cfg.numChildren parentId fr = some q) :
      q = fr + 1 ∧ IsChild cfg.numChildren q :=
    ⟨ipcReceiveAllNext_parent found, Nat.zero_lt_of_lt (ipcReceiveAllNext_eq_some found).1,
      (ipcReceiveAllNext_eq_some found).2.1⟩
  have last {fr q : Nat} (found : ipcReceiveAllNext cfg.numChildren parentId fr = none)
      (child : IsChild cfg.numChildren q) : q ≤ fr :=
    Nat.not_lt.mp (ipcReceiveAllNext_last found child.2 child.ne_parent)
  cases step with
  | @started fr q m pc found type =>
    obtain ⟨rfl, -⟩ := source found
    refine ⟨announced, loc ▸ .inl ⟨_, rfl⟩, heard fun a _ => ?_⟩
    rw [pc]
    exact heard_started type a
  | @allStarted fr pc found =>
    refine ⟨announced, loc ▸ .inr (.inl ⟨_, rfl⟩), heard fun a child => ?_⟩
    have unread : ¬a ≤ parentId := Nat.not_le.mpr child.1
    rw [pc]
    simp [Pc.heard, last found child, unread]
  | @done fr q m pc found type =>
    obtain ⟨rfl, -⟩ := source found
    refine ⟨announced, loc ▸ .inr (.inl ⟨_, rfl⟩), heard fun a _ => ?_⟩
    rw [pc]
    exact heard_done type a
  | @allDone fr pc found =>
    refine ⟨announced, loc ▸ .inr (.inr rfl), heard fun a child => ?_⟩
    rw [pc]
    simp [Pc.heard, last found child]
  | @unexpected fr q m pc found =>
    obtain ⟨rfl, child⟩ := source found
    obtain ⟨rest, head⟩ := offers
    have expected := h.expected fifo child head
    rcases pc with ⟨pc, other⟩ | ⟨pc, other⟩
    · rw [pc] at expected
      simp [Pc.heard, other] at expected
    · rw [pc] at expected
      simp [Pc.heard, other] at expected
  | blocked =>
    refine ⟨announced, loc ▸ h.oversees, heard fun a _ => (List.append_nil _).symm⟩

end Overseen

/-! ## Every run -/

theorem ParentFrame.consume (v : ProcessView μ) (input : Option (Nat × Message)) :
    ParentFrame v (v.consume parentId input) := by
  cases input with
  | none => exact ⟨fun _ _ => rfl, fun _ _ _ => rfl⟩
  | some x => exact .pop v x.1

section Runs

variable (lawful : M.Lawful) (unfailing : ∀ r : MutexRun cfg M, Unfailing cfg M r.final)
include lawful unfailing

omit lawful unfailing in
/-- What has been sent has been taken, or it is in transit. -/
theorem MutexRun.sent_eq (r : MutexRun cfg M) (a b : Nat) :
    (r.traffic.sent a b).map Prod.snd = r.traffic.taken b a ++ r.final.view.chan a b :=
  r.run.sent_eq rfl

theorem MutexRun.control (r : MutexRun cfg M) : Control cfg r.final.view := by
  refine MutexRun.induction unfailing (.initial cfg M)
    (fun r p input next control child ready step =>
      control.keep child ready (step.control lawful)) (fun r input st control _ _ _ => ?_) r
  exact control.parent (.trans (.consume _ input) (.become rfl))

variable (outward : M.Outward) (among : M.Among)
include outward among

theorem MutexRun.overseen (r : MutexRun cfg M) : Overseen cfg r.final.view r.traffic := by
  have initial : Overseen cfg (initialState cfg M).view .none :=
    ⟨.initial cfg M, .inl ⟨parentId, rfl⟩,
      fun q child => (if_neg (Nat.not_le.mpr child.1)).symm⟩
  refine MutexRun.induction_traffic unfailing initial ?_ ?_ r
  · intro r p input next inv child ready step
    have senders : ∀ x ∈ input, IsChild cfg.numChildren x.1 := by
      rintro x rfl
      exact ((r.control lawful unfailing).sender_child child ready).1
    have loc : ((r.final.view.consume p input).become p next).loc parentId =
        r.final.loc parentId := by
      rw [View.consume_become_loc, if_neg child.ne_parent.symm]
      rfl
    refine ⟨inv.announced.step lawful outward among child ready senders step, ?_, fun q hq => ?_⟩
    · rw [loc]
      exact inv.oversees
    · have heard := inv.heard q hq
      rw [State.view_loc, ← loc] at heard
      have untaken : (r.traffic.step p input next).taken parentId q =
          r.traffic.taken parentId q := by
        simp [Traffic.step, child.ne_parent.symm]
      rw [untaken, heard]
  · intro r input st inv offers sources step
    exact inv.parentStep r.sent_eq offers step

end Runs

end Distra
