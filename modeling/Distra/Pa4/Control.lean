import Distra.Pa4.Steps
import Mathlib.Data.Finset.Card

/-!
# Barriers and shutdown of `child_entry`

What holds for every `mutex.c` that sends nothing but CS messages and hands every `DONE` back to
`child_entry`: every child takes exactly one `STARTED` from every other child before anything else,
and `awaiting_children` counts the children whose `DONE` it has not taken.
-/

namespace Distra

open Network

variable {μ : Type}

def MessageType.IsCs (t : MessageType) : Prop := t = .csRequest ∨ t = .csReply ∨ t = .csRelease

def CsSends (out : Sends) : Prop := ∀ x ∈ out, x.2.type.IsCs

/-- What `child_entry` expects of the mutex it is linked with. -/
structure MutexCode.Lawful (M : MutexCode μ) : Prop where
  requestCs_sends : ∀ {cfg p l l' out}, M.requestCs cfg p l = some (l', out) → CsSends out
  take_sends : ∀ {cfg p l q m verdict l' out},
    M.requestCsTake cfg p l q m = some (verdict, l', out) → CsSends out
  empty_sends : ∀ {cfg p l verdict l' out},
    M.requestCsEmpty cfg p l = some (verdict, l', out) → CsSends out
  release_sends : ∀ {cfg p l l' out}, M.releaseCs cfg p l = some (l', out) → CsSends out
  handle_sends : ∀ {cfg p l q m verdict l' out},
    M.handleCsRequests cfg p l q m = some (verdict, l', out) → CsSends out
  take_done : ∀ {cfg p l q m verdict l' out}, m.type = .done →
    M.requestCsTake cfg p l q m = some (verdict, l', out) → verdict = .nonCsMessageReceived
  handle_done : ∀ {cfg p l q m verdict l' out}, m.type = .done →
    M.handleCsRequests cfg p l q m = some (verdict, l', out) → verdict = .nonCsMessageReceived

/-- `child_send_done` has run. -/
def Pc.Finished (pc : Pc) : Prop := pc = .handleCsRequests ∨ pc = .exited

instance (pc : Pc) : Decidable pc.Finished := inferInstanceAs (Decidable (_ ∨ _))

/-- The `STARTED` of `q` is still to be taken. -/
def Pc.Awaits (pc : Pc) (q : Nat) : Prop :=
  pc = .childSyncStarted ∨ ∃ fr, pc = .awaitAllStarted fr ∧ fr < q

def Pc.Healthy (pc : Pc) : Prop := ¬pc.Failed ∧ ∀ fr, pc ≠ .awaitAllDone fr

theorem finalLoop_finished (awaiting : Int) : (finalLoop awaiting).Finished := by
  unfold finalLoop
  split <;> simp [Pc.Finished]

theorem finalLoop_healthy (awaiting : Int) : (finalLoop awaiting).Healthy := by
  unfold finalLoop
  split <;> simp [Pc.Healthy, Pc.Failed]

theorem Pc.Finished.not_awaits {pc : Pc} (h : pc.Finished) (q : Nat) : ¬pc.Awaits q := by
  rcases h with rfl | rfl <;> simp [Pc.Awaits]

theorem Pc.Finished.not_start {pc : Pc} (h : pc.Finished) : pc ≠ .childSyncStarted := by
  rcases h with rfl | rfl <;> simp

/-! ## One channel between two children -/

/-- The channel `l` to a child at `pc` from the child `q` at `pcq`. -/
structure Incoming (pc : Pc) (q : Nat) (pcq : Pc) (l : List Message) : Prop where
  unsent : pcq = .childSyncStarted → l = []
  awaited : pc.Awaits q → pcq ≠ .childSyncStarted →
    ∃ m rest, l = m :: rest ∧ m.type = .started ∧ ∀ x ∈ rest, x.type ≠ .started
  passed : ¬pc.Awaits q → pcq ≠ .childSyncStarted ∧ ∀ x ∈ l, x.type ≠ .started
  quiet : ¬pcq.Finished → ∀ x ∈ l, x.type ≠ .done
  once : l.countP (fun x => x.type = .done) ≤ 1
  typed : ∀ x ∈ l, x.type.IsCs ∨ x.type = .started ∨ x.type = .done

namespace Incoming

variable {pc pc' pcq pcq' : Pc} {q : Nat} {l rest out : List Message} {m : Message}

theorem move (h : Incoming pc q pcq l) (same : pc'.Awaits q ↔ pc.Awaits q) :
    Incoming pc' q pcq l :=
  ⟨h.unsent, fun aw => h.awaited (same.mp aw), fun aw => h.passed (fun k => aw (same.mpr k)),
    h.quiet, h.once, h.typed⟩

theorem take (h : Incoming pc q pcq (m :: rest)) (past : ¬pc.Awaits q) :
    Incoming pc q pcq rest where
  unsent start := absurd start (h.passed past).1
  awaited aw := absurd aw past
  passed _ := ⟨(h.passed past).1, fun x hx => (h.passed past).2 x (List.mem_cons_of_mem _ hx)⟩
  quiet unfinished x hx := h.quiet unfinished x (List.mem_cons_of_mem _ hx)
  once := by
    have := h.once
    rw [List.countP_cons] at this
    omega
  typed x hx := h.typed x (List.mem_cons_of_mem _ hx)

/-- The receiver takes the `STARTED` of `q`. -/
theorem takeStarted (h : Incoming pc q pcq (m :: rest)) (aw : pc.Awaits q)
    (past : ¬pc'.Awaits q) : Incoming pc' q pcq rest := by
  have sent : pcq ≠ .childSyncStarted := fun start => by simpa using h.unsent start
  obtain ⟨_, _, eq, _, clean⟩ := h.awaited aw sent
  cases eq
  refine ⟨fun start => absurd start sent, fun k => absurd k past, fun _ => ⟨sent, clean⟩,
    fun unfinished x hx => h.quiet unfinished x (List.mem_cons_of_mem _ hx), ?_,
    fun x hx => h.typed x (List.mem_cons_of_mem _ hx)⟩
  have := h.once
  rw [List.countP_cons] at this
  omega

theorem sendStarted (h : Incoming pc q .childSyncStarted l) (running : pcq' ≠ .childSyncStarted)
    (t : Nat) : Incoming pc q pcq' (l ++ [⟨.started, t⟩]) := by
  obtain rfl := h.unsent rfl
  have aw : pc.Awaits q := by
    by_contra past
    exact (h.passed past).1 rfl
  refine ⟨fun start => absurd start running, fun _ _ => ⟨_, _, rfl, rfl, by simp⟩,
    fun past => absurd aw past, by simp, by simp, by simp⟩

theorem sendCs (h : Incoming pc q pcq l) (sent : pcq ≠ .childSyncStarted)
    (running : pcq' ≠ .childSyncStarted) (same : pcq'.Finished ↔ pcq.Finished)
    (cs : ∀ x ∈ out, x.type.IsCs) : Incoming pc q pcq' (l ++ out) := by
  have other (t : MessageType) (ht : ¬t.IsCs) : ∀ x ∈ out, x.type ≠ t := by
    intro x hx eq
    exact ht (eq ▸ cs x hx)
  refine ⟨fun start => absurd start running, fun aw _ => ?_, fun past => ⟨running, ?_⟩, ?_, ?_, ?_⟩
  · obtain ⟨m, rest, rfl, type, clean⟩ := h.awaited aw sent
    refine ⟨m, rest ++ out, rfl, type, fun x hx => ?_⟩
    rcases List.mem_append.mp hx with hx | hx
    · exact clean x hx
    · exact other .started (by simp [MessageType.IsCs]) x hx
  · intro x hx
    rcases List.mem_append.mp hx with hx | hx
    · exact (h.passed past).2 x hx
    · exact other .started (by simp [MessageType.IsCs]) x hx
  · intro unfinished x hx
    rcases List.mem_append.mp hx with hx | hx
    · exact h.quiet (fun k => unfinished (same.mpr k)) x hx
    · exact other .done (by simp [MessageType.IsCs]) x hx
  · have none_ : out.countP (fun x => x.type = .done) = 0 := by
      rw [List.countP_eq_zero]
      intro x hx
      simpa using other .done (by simp [MessageType.IsCs]) x hx
    rw [List.countP_append, none_]
    exact h.once
  · intro x hx
    rcases List.mem_append.mp hx with hx | hx
    · exact h.typed x hx
    · exact .inl (cs x hx)

theorem sendDone (h : Incoming pc q pcq l) (sent : pcq ≠ .childSyncStarted)
    (unfinished : ¬pcq.Finished) (finished : pcq'.Finished) (t : Nat) :
    Incoming pc q pcq' (l ++ [⟨.done, t⟩]) := by
  refine ⟨fun start => absurd start finished.not_start, fun aw _ => ?_,
    fun past => ⟨finished.not_start, ?_⟩, fun k => absurd finished k, ?_, ?_⟩
  · obtain ⟨m, rest, rfl, type, clean⟩ := h.awaited aw sent
    refine ⟨m, rest ++ [⟨.done, t⟩], rfl, type, fun x hx => ?_⟩
    rcases List.mem_append.mp hx with hx | hx
    · exact clean x hx
    · simp only [List.mem_singleton] at hx
      simp [hx]
  · intro x hx
    rcases List.mem_append.mp hx with hx | hx
    · exact (h.passed past).2 x hx
    · simp only [List.mem_singleton] at hx
      simp [hx]
  · have none_ : l.countP (fun x => x.type = .done) = 0 := by
      rw [List.countP_eq_zero]
      intro x hx
      simpa using h.quiet unfinished x hx
    simp [none_]
  · intro x hx
    rcases List.mem_append.mp hx with hx | hx
    · exact h.typed x hx
    · exact .inr (.inr (by rw [List.mem_singleton.mp hx]))

/-- What is left to take after the barrier. -/
theorem cs_or_done (h : Incoming pc q pcq l) (past : ¬pc.Awaits q) :
    ∀ x ∈ l, x.type.IsCs ∨ x.type = .done := by
  intro x hx
  rcases h.typed x hx with cs | started | isDone
  · exact .inl cs
  · exact absurd started ((h.passed past).2 x hx)
  · exact .inr isDone

end Incoming

/-! ## All children -/

def peers (n p : Nat) : Finset Nat := (Finset.Icc 1 n).erase p

@[simp] theorem mem_peers {n p q : Nat} : q ∈ peers n p ↔ q ≠ p ∧ IsChild n q := by
  simp [peers, IsChild]

theorem card_peers {n p : Nat} (child : IsChild n p) : (peers n p).card = n - 1 := by
  rw [peers, Finset.card_erase_of_mem (Finset.mem_Icc.mpr child), Nat.card_Icc]
  rfl

/-- `p` has not taken the `DONE` of `q`. -/
def Pending (v : ProcessView μ) (p q : Nat) : Prop :=
  ¬(v.loc q).pc.Finished ∨ ∃ x ∈ v.chan q p, x.type = .done

instance (v : ProcessView μ) (p : Nat) : DecidablePred (Pending v p) :=
  fun _ => inferInstanceAs (Decidable (¬_ ∨ ∃ x ∈ _, _))

structure Control (cfg : Config) (v : ProcessView μ) : Prop where
  healthy : ∀ p, IsChild cfg.numChildren p → (v.loc p).pc.Healthy
  parentSilent : ∀ p, p ≠ parentId → v.chan parentId p = []
  incoming : ∀ p q, IsChild cfg.numChildren p → IsChild cfg.numChildren q → p ≠ q →
    Incoming (v.loc p).pc q (v.loc q).pc (v.chan q p)
  awaiting : ∀ p, IsChild cfg.numChildren p →
    (v.loc p).awaitingChildren = ((peers cfg.numChildren p).filter (Pending v p)).card
  final : ∀ p, IsChild cfg.numChildren p →
    ((v.loc p).pc = .handleCsRequests → 0 < (v.loc p).awaitingChildren) ∧
      ((v.loc p).pc = .exited → (v.loc p).awaitingChildren ≤ 0)

/-- A step of child `p` as the barriers and the shutdown see it. -/
inductive ControlStep (n p : Nat) (pc : Pc) (awaiting : Int) :
    Option (Nat × Message) → Pc → Int → Sends → Prop
  | syncStarted {t} : pc = .childSyncStarted →
      ControlStep n p pc awaiting none (.awaitAllStarted parentId) awaiting
        (sendMulticast n p ⟨.started, t⟩)
  | barrier {fr q m} : pc = .awaitAllStarted fr → ipcReceiveAllNext n p fr = some q →
      m.type = .started →
      ControlStep n p pc awaiting (some (q, m)) (.awaitAllStarted q) awaiting []
  | finish {i t} : pc = .iteration i →
      ControlStep n p pc awaiting none (finalLoop awaiting) awaiting (sendMulticast n p ⟨.done, t⟩)
  | work {input pc' out} : pc ≠ .childSyncStarted → pc' ≠ .childSyncStarted → pc'.Healthy →
      (∀ q, IsChild n q → q ≠ p → (pc'.Awaits q ↔ pc.Awaits q)) →
      (pc'.Finished ↔ pc.Finished) → (pc'.Finished → pc' = pc) →
      (∀ q m, input = some (q, m) → m.type ≠ .done ∧ ¬pc.Awaits q) → CsSends out →
      ControlStep n p pc awaiting input pc' awaiting out
  | done {q m pc' out} : ¬pc.Awaits q → ¬pc'.Awaits q → pc'.Healthy →
      (∀ q, IsChild n q → q ≠ p → (pc'.Awaits q ↔ pc.Awaits q)) →
      (pc'.Finished ↔ pc.Finished) → (pc'.Finished → pc' = finalLoop (awaiting - 1)) →
      m.type = .done → CsSends out →
      ControlStep n p pc awaiting (some (q, m)) pc' (awaiting - 1) out

theorem Verdict.pc_healthy (verdict : Verdict) (i : Nat) : (verdict.pc i).Healthy := by
  cases verdict <;> simp [Verdict.pc, Pc.Healthy, Pc.Failed]

theorem Verdict.pc_not_finished (verdict : Verdict) (i : Nat) : ¬(verdict.pc i).Finished := by
  cases verdict <;> simp [Verdict.pc, Pc.Finished]

theorem Verdict.pc_not_awaits (verdict : Verdict) (i q : Nat) : ¬(verdict.pc i).Awaits q := by
  cases verdict <;> simp [Verdict.pc, Pc.Awaits]

theorem Verdict.pc_not_start (verdict : Verdict) (i : Nat) :
    verdict.pc i ≠ .childSyncStarted := by
  cases verdict <;> simp [Verdict.pc]

theorem awaits_of_awaitAllStarted {fr q : Nat} : (Pc.awaitAllStarted fr).Awaits q ↔ fr < q := by
  simp [Pc.Awaits]

theorem LocalStep.control {cfg : Config} {M : MutexCode μ} (lawful : M.Lawful) {p : Nat}
    {st : Process μ} {input : Option (Nat × Message)} {next : Next Nat (Process μ) Message}
    (h : LocalStep cfg M p st input next) :
    ControlStep cfg.numChildren p st.pc st.awaitingChildren input next.1.pc
      next.1.awaitingChildren next.2 := by
  have nothing : CsSends [] := by simp [CsSends]
  cases h with
  | syncStarted pc => exact .syncStarted pc
  | barrier pc next type => exact .barrier pc next type
  | barrierWait pc =>
    exact .work (by simp [pc]) (by simp [pc]) (by simp [pc, Pc.Healthy, Pc.Failed])
      (fun _ _ _ => .rfl) .rfl (fun _ => rfl) (by simp) nothing
  | barrierEnd pc last =>
    refine .work (by simp [pc]) (by simp) (by simp [Pc.Healthy, Pc.Failed]) ?_
      (by simp [pc, Pc.Finished]) (by simp [Pc.Finished]) (by simp) nothing
    intro q child ne
    rw [pc, awaits_of_awaitAllStarted]
    have := ipcReceiveAllNext_eq_none last q
    have := child.2
    simp only [Pc.Awaits, reduceCtorEq, false_and, exists_false, or_self, false_iff]
    omega
  | request pc _ requested =>
    exact .work (by simp [pc]) (by simp [Process.at_])
      (by simp [Process.at_, Pc.Healthy, Pc.Failed])
      (by simp [pc, Process.at_, Pc.Awaits]) (by simp [pc, Process.at_, Pc.Finished])
      (by simp [Process.at_, Pc.Finished]) (by simp) (lawful.requestCs_sends requested)
  | finish pc => exact .finish pc
  | @served i q m verdict l out pc taken cs =>
    refine .work (by simp [pc]) (verdict.pc_not_start i) (verdict.pc_healthy i) ?_ ?_ ?_ ?_
      (lawful.take_sends taken)
    · intro q _ _
      exact iff_of_false (verdict.pc_not_awaits i q) (by simp [pc, Pc.Awaits])
    · exact iff_of_false (verdict.pc_not_finished i) (by simp [pc, Pc.Finished])
    · exact fun k => absurd k (verdict.pc_not_finished i)
    · intro _ _ eq
      cases eq
      exact ⟨fun isDone => cs (lawful.take_done isDone taken), by simp [pc, Pc.Awaits]⟩
  | doneServed pc taken type retried =>
    exact .done (by simp [pc, Pc.Awaits]) (by simp [Process.at_, Pc.Awaits])
      (by simp [Process.at_, Pc.Healthy, Pc.Failed]) (by simp [pc, Process.at_, Pc.Awaits])
      (by simp [pc, Process.at_, Pc.Finished]) (by simp [Process.at_, Pc.Finished]) type
      (lawful.requestCs_sends retried)
  | @idle i verdict l out pc found =>
    refine .work (by simp [pc]) (verdict.pc_not_start i) (verdict.pc_healthy i) ?_ ?_ ?_ (by simp)
      (lawful.empty_sends found)
    · intro q _ _
      exact iff_of_false (verdict.pc_not_awaits i q) (by simp [pc, Pc.Awaits])
    · exact iff_of_false (verdict.pc_not_finished i) (by simp [pc, Pc.Finished])
    · exact fun k => absurd k (verdict.pc_not_finished i)
  | release pc released =>
    exact .work (by simp [pc]) (by simp [Process.at_])
      (by simp [Process.at_, Pc.Healthy, Pc.Failed])
      (by simp [pc, Process.at_, Pc.Awaits]) (by simp [pc, Process.at_, Pc.Finished])
      (by simp [Process.at_, Pc.Finished]) (by simp) (lawful.release_sends released)
  | handled pc taken cs =>
    refine .work (by simp [pc]) (by simp [Process.at_])
      (by simp [Process.at_, Pc.Healthy, Pc.Failed])
      (by simp [pc, Process.at_]) (by simp [pc, Process.at_]) (by simp [pc, Process.at_]) ?_
      (lawful.handle_sends taken)
    intro _ _ eq
    cases eq
    exact ⟨fun isDone => cs (lawful.handle_done isDone taken), by simp [pc, Pc.Awaits]⟩
  | doneHandled pc taken type =>
    have finished := finalLoop_finished (st.awaitingChildren - 1)
    refine .done (by simp [pc, Pc.Awaits]) (finished.not_awaits _) (finalLoop_healthy _) ?_ ?_
      (fun _ => rfl) type nothing
    · intro q _ _
      exact iff_of_false (finished.not_awaits q) (by simp [pc, Pc.Awaits])
    · exact iff_of_true finished (by simp [pc, Pc.Finished])
  | handleWait pc =>
    exact .work (by simp [pc]) (by simp [pc]) (by simp [pc, Pc.Healthy, Pc.Failed])
      (fun _ _ _ => .rfl) .rfl (fun _ => rfl) (by simp) nothing

theorem outTo_cs {out : Sends} (cs : CsSends out) (a : Nat) : ∀ x ∈ outTo out a, x.type.IsCs :=
  fun x hx => cs (a, x) (mem_outTo.mp hx)

section Keep

variable {cfg : Config} {v : ProcessView μ} {p : Nat} {pc pc' : Pc} {awaiting awaiting' : Int}
  {input : Option (Nat × Message)} {out : Sends} {n : Nat}

theorem consume_chan_self (ready : Ready cfg v p input) (b : Nat) :
    (∃ m, input = some (b, m) ∧ v.chan b p = m :: (v.consume p input).chan b p) ∨
      ((∀ m, input ≠ some (b, m)) ∧ (v.consume p input).chan b p = v.chan b p) := by
  cases input with
  | none => exact .inr ⟨by simp, rfl⟩
  | some x =>
    obtain ⟨q, m⟩ := x
    obtain ⟨-, -, rest, head⟩ := ready
    by_cases h : b = q
    · subst h
      exact .inl ⟨m, rfl, by simp [View.consume, View.pop, Channels.pop_head, head]⟩
    · exact .inr ⟨fun m' eq => h (by cases eq; rfl), Channels.pop_ne _ (fun k => h k.1)⟩

/-- The channel from `b` as its receiver `p` goes on. -/
theorem ControlStep.receiver (step : ControlStep n p pc awaiting input pc' awaiting' out)
    (ready : Ready cfg v p input) {b : Nat} {pcb : Pc} (child : IsChild n b) (ne : b ≠ p)
    (h : Incoming pc b pcb (v.chan b p)) :
    Incoming pc' b pcb ((v.consume p input).chan b p) := by
  have untaken := consume_chan_self ready b
  cases step with
  | syncStarted start =>
    refine h.move ?_
    rw [awaits_of_awaitAllStarted]
    exact iff_of_true child.1 (.inl start)
  | @barrier fr q m start next type =>
    obtain ⟨lt, le, neq, between⟩ := ipcReceiveAllNext_eq_some next
    rcases untaken with ⟨m', eq, head⟩ | ⟨other, same⟩
    · cases eq
      rw [head] at h
      exact h.takeStarted (.inr ⟨fr, start, lt⟩) (by simp [awaits_of_awaitAllStarted])
    · rw [same]
      refine h.move ?_
      rw [start, awaits_of_awaitAllStarted, awaits_of_awaitAllStarted]
      have : b ≠ q := fun eq => other m (by rw [eq])
      have := between b
      omega
  | finish start =>
    refine h.move (iff_of_false ((finalLoop_finished _).not_awaits b) ?_)
    simp [start, Pc.Awaits]
  | work _ _ _ awaits _ _ taken _ =>
    refine Incoming.move ?_ (awaits b child ne)
    rcases untaken with ⟨m, eq, head⟩ | ⟨other, same⟩
    · rw [head] at h
      exact h.take (taken b m eq).2
    · rw [same]
      exact h
  | done past _ _ awaits _ _ _ _ =>
    refine Incoming.move ?_ (awaits b child ne)
    rcases untaken with ⟨m, eq, head⟩ | ⟨other, same⟩
    · cases eq
      rw [head] at h
      exact h.take past
    · rw [same]
      exact h

/-- The channel to `a` as its sender `p` goes on. -/
theorem ControlStep.sender (step : ControlStep n p pc awaiting input pc' awaiting' out) {a : Nat}
    {pca : Pc} {l : List Message} (child : IsChild n a) (ne : a ≠ p) (h : Incoming pca p pc l) :
    Incoming pca p pc' (l ++ outTo out a) := by
  cases step with
  | syncStarted start =>
    rw [outTo_sendMulticast child.2 ne]
    exact (start ▸ h).sendStarted (by simp) _
  | barrier start =>
    exact h.sendCs (by simp [start]) (by simp) (by simp [start, Pc.Finished]) (by simp)
  | finish start =>
    rw [outTo_sendMulticast child.2 ne]
    exact h.sendDone (by simp [start]) (by simp [start, Pc.Finished]) (finalLoop_finished _) _
  | work sent running _ _ same _ _ cs => exact h.sendCs sent running same (outTo_cs cs a)
  | done past past' _ _ same _ _ cs =>
    exact h.sendCs (fun start => past (.inl start)) (fun start => past' (.inl start)) same
      (outTo_cs cs a)

/-- Whether the `DONE` of `p` is still to be taken by `a`, as `p` goes on. -/
theorem ControlStep.pending_sender (step : ControlStep n p pc awaiting input pc' awaiting' out)
    {a : Nat} {l : List Message} (child : IsChild n a) (ne : a ≠ p) :
    (¬pc'.Finished ∨ ∃ x ∈ l ++ outTo out a, x.type = .done) ↔
      (¬pc.Finished ∨ ∃ x ∈ l, x.type = .done) := by
  have quiet (cs : CsSends out) : ¬∃ x ∈ outTo out a, x.type = .done := by
    rintro ⟨x, hx, isDone⟩
    have := outTo_cs cs a x hx
    simp [isDone, MessageType.IsCs] at this
  cases step with
  | syncStarted start =>
    rw [outTo_sendMulticast child.2 ne]
    simp [start, Pc.Finished]
  | barrier start => simp [start, Pc.Finished]
  | finish start =>
    rw [outTo_sendMulticast child.2 ne]
    simp [start, Pc.Finished]
  | work _ _ _ _ same _ _ cs =>
    simp only [same, List.mem_append, or_and_right, exists_or, quiet cs, or_false]
  | done _ _ _ _ same _ _ cs =>
    simp only [same, List.mem_append, or_and_right, exists_or, quiet cs, or_false]

/-- Only the receipt of a `DONE` from `b` removes one from its channel. -/
theorem consume_done (ready : Ready cfg v p input) {b : Nat}
    (other : ∀ m, input = some (b, m) → m.type ≠ .done) :
    (∃ x ∈ (v.consume p input).chan b p, x.type = .done) ↔ ∃ x ∈ v.chan b p, x.type = .done := by
  rcases consume_chan_self ready b with ⟨m, eq, head⟩ | ⟨-, same⟩
  · rw [head]
    simp [other m eq]
  · rw [same]

/-- Steps other than the receipt of a `DONE` leave the counter alone, and take no `DONE`. -/
theorem ControlStep.awaiting_eq (step : ControlStep n p pc awaiting input pc' awaiting' out) :
    (awaiting' = awaiting ∧ ∀ q m, input = some (q, m) → m.type ≠ .done) ∨
      ∃ q m, input = some (q, m) ∧ m.type = .done ∧ awaiting' = awaiting - 1 := by
  cases step with
  | syncStarted => exact .inl ⟨rfl, by simp⟩
  | barrier _ _ type =>
    refine .inl ⟨rfl, fun q m eq => ?_⟩
    cases eq
    simp [type]
  | finish => exact .inl ⟨rfl, by simp⟩
  | work _ _ _ _ _ _ taken _ => exact .inl ⟨rfl, fun q m eq => (taken q m eq).1⟩
  | done _ _ _ _ _ _ type _ => exact .inr ⟨_, _, rfl, type, rfl⟩

theorem ControlStep.final (step : ControlStep n p pc awaiting input pc' awaiting' out)
    (h : (pc = .handleCsRequests → 0 < awaiting) ∧ (pc = .exited → awaiting ≤ 0)) :
    (pc' = .handleCsRequests → 0 < awaiting') ∧ (pc' = .exited → awaiting' ≤ 0) := by
  have loop (k : Int) : (finalLoop k = .handleCsRequests → 0 < k) ∧
      (finalLoop k = .exited → k ≤ 0) := by
    unfold finalLoop
    split <;> simp <;> omega
  cases step with
  | syncStarted => simp
  | barrier => simp
  | finish => exact loop awaiting
  | work _ _ _ _ _ same _ _ =>
    constructor
    · exact fun k => h.1 ((same (.inl k)).symm.trans k)
    · exact fun k => h.2 ((same (.inr k)).symm.trans k)
  | done _ _ _ _ _ eq _ _ =>
    constructor
    · exact fun k => (loop _).1 ((eq (.inl k)).symm.trans k)
    · exact fun k => (loop _).2 ((eq (.inr k)).symm.trans k)

theorem ControlStep.healthy (step : ControlStep n p pc awaiting input pc' awaiting' out) :
    pc'.Healthy := by
  cases step with
  | syncStarted => simp [Pc.Healthy, Pc.Failed]
  | barrier => simp [Pc.Healthy, Pc.Failed]
  | finish => exact finalLoop_healthy _
  | work _ _ healthy => exact healthy
  | done _ _ healthy => exact healthy

end Keep

/-- A message comes from a child: the parent sends nothing. -/
theorem Control.sender_child {cfg : Config} {v : ProcessView μ} (h : Control cfg v) {p q : Nat}
    {m : Message} (child : IsChild cfg.numChildren p) (ready : Ready cfg v p (some (q, m))) :
    IsChild cfg.numChildren q ∧ q ≠ p := by
  obtain ⟨le, ne, rest, head⟩ := ready
  refine ⟨⟨Nat.pos_of_ne_zero fun eq => ?_, le⟩, ne⟩
  rw [eq, ← parentId, h.parentSilent p child.ne_parent] at head
  cases head

/-- Taking the `DONE` of `q` takes `q` off the children waited for. -/
theorem Control.take_done {cfg : Config} {v : ProcessView μ} (h : Control cfg v) {p q : Nat}
    {m : Message} (child : IsChild cfg.numChildren p) (ready : Ready cfg v p (some (q, m)))
    (isDone : m.type = .done) {w : ProcessView μ}
    (pc : ∀ b, b ≠ p → (w.loc b).pc = (v.loc b).pc)
    (chan : ∀ b, b ≠ p → w.chan b p = (v.consume p (some (q, m))).chan b p) :
    ((peers cfg.numChildren p).filter (Pending w p)).card + 1 =
      ((peers cfg.numChildren p).filter (Pending v p)).card := by
  obtain ⟨qchild, ne⟩ := h.sender_child child ready
  have link := h.incoming p q child qchild (Ne.symm ne)
  rcases consume_chan_self ready q with ⟨m', eq, head⟩ | ⟨other, -⟩
  swap
  · exact absurd rfl (other m)
  cases eq
  rw [head] at link
  have was : q ∈ (peers cfg.numChildren p).filter (Pending v p) := by
    refine Finset.mem_filter.mpr ⟨mem_peers.mpr ⟨ne, qchild⟩, .inr ⟨m, ?_, isDone⟩⟩
    simp [head]
  have erased : (peers cfg.numChildren p).filter (Pending w p) =
      ((peers cfg.numChildren p).filter (Pending v p)).erase q := by
    ext b
    simp only [Finset.mem_filter, Finset.mem_erase, mem_peers, Pending]
    by_cases hb : b = q
    · subst hb
      have finished : (v.loc b).pc.Finished := by
        by_contra unfinished
        exact link.quiet unfinished m (by simp) isDone
      have last : ¬∃ x ∈ (v.consume p (some (b, m))).chan b p, x.type = .done := by
        rintro ⟨x, hx, k⟩
        have once := link.once
        rw [List.countP_cons_of_pos (by simpa using isDone)] at once
        have : 0 < ((v.consume p (some (b, m))).chan b p).countP (fun x => x.type = .done) :=
          List.countP_pos_iff.mpr ⟨x, hx, by simpa using k⟩
        omega
      by_cases hbp : b = p
      · exact absurd hbp ne
      · rw [pc b hbp, chan b hbp]
        simp [finished, last]
    · by_cases hbp : b = p
      · simp [hbp]
      · rw [pc b hbp, chan b hbp, consume_done ready (fun m eq => by cases eq; exact absurd rfl hb)]
        simp [hb]
  rw [erased, Finset.card_erase_add_one was]

/-- Every step of a child that does not fail keeps `Control`. -/
theorem Control.keep {cfg : Config} {v : ProcessView μ} (h : Control cfg v) {p : Nat}
    (child : IsChild cfg.numChildren p) {input : Option (Nat × Message)}
    (ready : Ready cfg v p input) {next : Next Nat (Process μ) Message}
    (step : ControlStep cfg.numChildren p (v.loc p).pc (v.loc p).awaitingChildren input next.1.pc
      next.1.awaitingChildren next.2) :
    Control cfg ((v.consume p input).become p next) := by
  refine ⟨?_, ?_, ?_, ?_, ?_⟩
  · intro a ha
    rw [View.consume_become_loc]
    split
    next => exact step.healthy
    next => exact h.healthy a ha
  · intro a ha
    rw [View.consume_become_chan, if_neg child.ne_parent.symm, List.append_nil]
    by_cases hap : a = p
    · subst hap
      rcases consume_chan_self ready parentId with ⟨m, eq, head⟩ | ⟨-, same⟩
      · rw [h.parentSilent a ha] at head
        cases head
      · rw [same, h.parentSilent a ha]
    · rw [View.consume_chan_ne v input hap, h.parentSilent a ha]
  · intro a b ha hb ne
    rw [View.consume_become_loc, View.consume_become_loc, View.consume_become_chan]
    by_cases hap : a = p
    · subst hap
      rw [if_pos rfl, if_neg (Ne.symm ne), if_neg (Ne.symm ne), List.append_nil]
      exact step.receiver ready hb (Ne.symm ne) (h.incoming a b ha hb ne)
    · rw [if_neg hap, View.consume_chan_ne v input hap]
      by_cases hbp : b = p
      · subst hbp
        rw [if_pos rfl, if_pos rfl]
        exact step.sender ha ne (h.incoming a b ha hb ne)
      · rw [if_neg hbp, if_neg hbp, List.append_nil]
        exact h.incoming a b ha hb ne
  · intro a ha
    rw [View.consume_become_loc]
    by_cases hap : a = p
    · subst hap
      have frame (b : Nat) (ne : b ≠ a) : ((v.consume a input).become a next).chan b a =
          (v.consume a input).chan b a := by
        rw [View.consume_become_chan, if_neg ne, List.append_nil]
      have pcs (b : Nat) (ne : b ≠ a) :
          (((v.consume a input).become a next).loc b).pc = (v.loc b).pc := by
        rw [View.consume_become_loc, if_neg ne]
      rw [if_pos rfl]
      rcases step.awaiting_eq with ⟨same, untaken⟩ | ⟨q, m, eq, isDone, dec⟩
      · rw [same, h.awaiting a ha]
        congr 2
        refine Finset.filter_congr fun b hb => ?_
        have ne := (mem_peers.mp hb).1
        rw [Pending, Pending, pcs b ne, frame b ne, consume_done ready (untaken b)]
      · subst eq
        have := h.take_done child ready isDone pcs frame
        rw [dec, h.awaiting a ha]
        omega
    · rw [if_neg hap, h.awaiting a ha]
      congr 2
      refine Finset.filter_congr fun b hb => ?_
      rw [Pending, Pending, View.consume_become_loc, View.consume_become_chan,
        View.consume_chan_ne v input hap]
      by_cases hbp : b = p
      · subst hbp
        rw [if_pos rfl, if_pos rfl]
        exact (step.pending_sender ha hap).symm
      · rw [if_neg hbp, if_neg hbp, List.append_nil]
  · intro a ha
    rw [View.consume_become_loc]
    split
    next eq => exact step.final (h.final p child)
    next => exact h.final a ha

end Distra
