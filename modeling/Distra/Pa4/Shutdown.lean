import Distra.Pa4.Taken
import Distra.Pa4.Refinement

/-!
# The shutdown of `child_entry`

The last message of a child but for the replies that it still owes is its `DONE`. A child that has
taken all of them, and has nothing to be replied to, is left alone.
-/

namespace Distra

open Network

variable {μ : Type} {cfg : Config} {M : MutexCode μ}

/-- What a mutex does not send: nothing to its own process, and only replies after the last
iteration. -/
structure MutexCode.Outward (M : MutexCode μ) : Prop where
  requestCs_ne : ∀ {cfg p l l' out}, M.requestCs cfg p l = some (l', out) → ∀ x ∈ out, x.1 ≠ p
  take_ne : ∀ {cfg p l q m verdict l' out}, q ≠ p →
    M.requestCsTake cfg p l q m = some (verdict, l', out) → ∀ x ∈ out, x.1 ≠ p
  empty_ne : ∀ {cfg p l verdict l' out},
    M.requestCsEmpty cfg p l = some (verdict, l', out) → ∀ x ∈ out, x.1 ≠ p
  release_ne : ∀ {cfg p l l' out}, M.releaseCs cfg p l = some (l', out) → ∀ x ∈ out, x.1 ≠ p
  handle_ne : ∀ {cfg p l q m verdict l' out}, q ≠ p →
    M.handleCsRequests cfg p l q m = some (verdict, l', out) → ∀ x ∈ out, x.1 ≠ p
  handle_reply : ∀ {cfg p l q m verdict l' out},
    M.handleCsRequests cfg p l q m = some (verdict, l', out) → ∀ x ∈ out, x.2.type = .csReply

section Step

variable {p : Nat} {st : Process μ} {v : ProcessView μ} {input : Option (Nat × Message)}
  {next : Next Nat (Process μ) Message}

theorem sendMulticast_ne {n p : Nat} {m : Message} : ∀ x ∈ sendMulticast n p m, x.1 ≠ p := by
  intro x mem
  obtain ⟨dst, other, rfl⟩ := List.mem_map.mp mem
  exact (mem_otherProcesses.mp other).2

theorem LocalStep.outward (step : LocalStep cfg M p st input next) (law : M.Outward)
    (ready : Ready cfg v p input) : ∀ x ∈ next.2, x.1 ≠ p := by
  cases step with
  | syncStarted | finish => exact sendMulticast_ne
  | barrier | barrierWait | barrierEnd | doneHandled | handleWait => exact nofun
  | request _ _ requested => exact law.requestCs_ne requested
  | served _ taken => exact law.take_ne ready.2.1 taken
  | doneServed _ _ _ retried => exact law.requestCs_ne retried
  | idle _ found => exact law.empty_ne found
  | release _ released => exact law.release_ne released
  | handled _ taken => exact law.handle_ne ready.2.1 taken

theorem LocalStep.replies (step : LocalStep cfg M p st input next) (law : M.Outward)
    (finished : st.pc.Finished) : ∀ x ∈ next.2, x.2.type = .csReply := by
  cases step with
  | syncStarted pc | barrier pc | barrierWait pc | barrierEnd pc | request pc | finish pc
  | served pc | doneServed pc | idle pc | release pc =>
    rcases finished with k | k <;> cases pc.symm.trans k
  | handled _ taken => exact law.handle_reply taken
  | doneHandled | handleWait => exact nofun

end Step

/-! ## The end of a channel -/

/-- The channel `l` of a child at `pcq`: only replies follow its `DONE`. -/
structure Closing (pcq : Pc) (l : List Message) : Prop where
  order : l.Pairwise (fun m m' => m.type = .done → m'.type = .csReply)
  closed : pcq.Finished → (∀ m ∈ l, m.type ≠ .done) → ∀ m ∈ l, m.type = .csReply

namespace Closing

variable {pcq pcq' : Pc} {l out : List Message} {m : Message}

theorem pairwise_of_none (none_ : ∀ m ∈ l, m.type ≠ .done) :
    l.Pairwise (fun m m' => m.type = .done → m'.type = .csReply) :=
  List.pairwise_of_forall_mem_list fun m mem _ _ isDone => absurd isDone (none_ m mem)

/-- Before the `DONE`. -/
theorem before (none_ : ∀ m ∈ l, m.type ≠ .done) (unfinished : ¬pcq.Finished) :
    Closing pcq l := ⟨pairwise_of_none none_, fun k => absurd k unfinished⟩

/-- The `DONE`. -/
theorem last (none_ : ∀ m ∈ l, m.type ≠ .done) (t : Nat) : Closing pcq (l ++ [⟨.done, t⟩]) := by
  refine ⟨List.pairwise_append.mpr ⟨pairwise_of_none none_, List.pairwise_singleton _ _, ?_⟩, ?_⟩
  · intro m mem _ _ isDone
    exact absurd isDone (none_ m mem)
  · intro _ clean
    exact absurd rfl (clean ⟨.done, t⟩ (by simp))

/-- After the `DONE`. -/
theorem after (h : Closing pcq l) (finished : pcq.Finished)
    (replies : ∀ m ∈ out, m.type = .csReply) : Closing pcq' (l ++ out) := by
  refine ⟨List.pairwise_append.mpr ⟨h.order, ?_, fun m _ m' mem _ => replies m' mem⟩, ?_⟩
  · exact List.pairwise_of_forall_mem_list fun m _ m' mem _ => replies m' mem
  · intro _ clean m mem
    rcases List.mem_append.mp mem with mem | mem
    · refine h.closed finished (fun x hx => clean x (List.mem_append_left _ hx)) m mem
    · exact replies m mem

theorem rest (h : Closing pcq (m :: l)) : Closing pcq l := by
  obtain ⟨follow, order⟩ := List.pairwise_cons.mp h.order
  refine ⟨order, fun finished clean => ?_⟩
  by_cases isDone : m.type = .done
  · exact fun x mem => follow x mem isDone
  · have none_ : ∀ x ∈ m :: l, x.type ≠ .done := by
      intro x mem
      rcases List.mem_cons.mp mem with rfl | mem
      · exact isDone
      · exact clean x mem
    exact fun x mem => h.closed finished none_ x (List.mem_cons_of_mem _ mem)

theorem congr (h : Closing pcq l) (same : pcq'.Finished → pcq.Finished) : Closing pcq' l :=
  ⟨h.order, fun finished => h.closed (same finished)⟩

end Closing

/-- The channel to `a` as its sender `p` goes on. -/
theorem ControlStep.closing {n p : Nat} {pc pc' : Pc} {awaiting awaiting' : Int}
    {input : Option (Nat × Message)} {out : Sends}
    (step : ControlStep n p pc awaiting input pc' awaiting' out) {a : Nat} {l : List Message}
    (child : IsChild n a) (ne : a ≠ p) (quiet : ¬pc.Finished → ∀ m ∈ l, m.type ≠ .done)
    (replies : pc.Finished → ∀ m ∈ outTo out a, m.type = .csReply) (h : Closing pc l) :
    Closing pc' (l ++ outTo out a) := by
  have cs (same : pc'.Finished ↔ pc.Finished) (sends : CsSends out) :
      Closing pc' (l ++ outTo out a) := by
    by_cases finished : pc.Finished
    · exact h.after finished (replies finished)
    · refine .before (fun m mem => ?_) (fun k => finished (same.mp k))
      rcases List.mem_append.mp mem with mem | mem
      · exact quiet finished m mem
      · intro isDone
        have := outTo_cs sends a m mem
        simp [isDone, MessageType.IsCs] at this
  cases step with
  | syncStarted start =>
    have unfinished : ¬pc.Finished := by simp [start, Pc.Finished]
    rw [outTo_sendMulticast child.2 ne]
    refine .before (fun m mem => ?_) (by simp [Pc.Finished])
    rcases List.mem_append.mp mem with mem | mem
    · exact quiet unfinished m mem
    · rw [List.mem_singleton.mp mem]
      simp
  | barrier start =>
    rw [outTo_nil, List.append_nil]
    exact h.congr (by simp [Pc.Finished])
  | finish start =>
    rw [outTo_sendMulticast child.2 ne]
    exact .last (quiet (by simp [start, Pc.Finished])) _
  | work _ _ _ _ same _ _ sends => exact cs same sends
  | done _ _ _ _ same _ _ sends => exact cs same sends

def Closed (cfg : Config) (v : ProcessView μ) : Prop :=
  ∀ p q, IsChild cfg.numChildren p → IsChild cfg.numChildren q → q ≠ p →
    Closing (v.loc q).pc (v.chan q p)

section Keep

variable {v v' : ProcessView μ} {p : Nat} {input : Option (Nat × Message)}
  {next : Next Nat (Process μ) Message}

theorem Closed.initial (cfg : Config) (M : MutexCode μ) : Closed cfg (initialState cfg M).view := by
  intro p q _ _ _
  exact ⟨.nil, fun _ _ _ mem => absurd mem List.not_mem_nil⟩

theorem Closed.parent (h : Closed cfg v) (frame : ParentFrame v v') : Closed cfg v' := by
  intro p q child qchild ne
  rw [frame.loc q qchild.ne_parent, frame.chan q p child.ne_parent]
  exact h p q child qchild ne

theorem Closed.keep (h : Closed cfg v) (control : Control cfg v) (lawful : M.Lawful)
    (law : M.Outward) (ready : Ready cfg v p input)
    (step : LocalStep cfg M p (v.loc p) input next) :
    Closed cfg ((v.consume p input).become p next) := by
  intro a b child bchild ne
  rw [View.consume_become_loc, View.consume_become_chan]
  by_cases sender : b = p
  · subst sender
    have receiver : a ≠ b := fun k => ne k.symm
    rw [if_pos rfl, if_pos rfl, View.consume_chan_ne v input receiver]
    refine (step.control lawful).closing child receiver ?_ ?_ (h a b child bchild ne)
    · exact (control.incoming a b child bchild receiver).quiet
    · exact fun finished m mem => step.replies law finished (a, m) (mem_outTo.mp mem)
  · rw [if_neg sender, if_neg sender, List.append_nil]
    have closing := h a b child bchild ne
    by_cases receiver : a = p
    · subst receiver
      rcases consume_chan_self ready b with ⟨m, -, head⟩ | ⟨-, same⟩
      · rw [head] at closing
        exact closing.rest
      · rw [same]
        exact closing
    · rw [View.consume_chan_ne v input receiver]
      exact closing

/-- No child writes to itself, and nobody outside the group writes to a child. -/
def Posted (cfg : Config) (v : ProcessView μ) : Prop :=
  ∀ a b, b ≠ parentId → a = b ∨ cfg.numChildren < a → v.chan a b = []

theorem Posted.parent (h : Posted cfg v) (frame : ParentFrame v v') : Posted cfg v' := by
  intro a b ne stray
  rw [frame.chan a b ne]
  exact h a b ne stray

theorem Posted.keep (h : Posted cfg v) (law : M.Outward) (child : IsChild cfg.numChildren p)
    (ready : Ready cfg v p input) (step : LocalStep cfg M p (v.loc p) input next) :
    Posted cfg ((v.consume p input).become p next) := by
  intro a b ne stray
  have before := h a b ne stray
  have consumed : (v.consume p input).chan a b = [] := by
    by_cases receiver : b = p
    · subst receiver
      rcases consume_chan_self ready a with ⟨m, -, head⟩ | ⟨-, same⟩
      · rw [before] at head
        cases head
      · rw [same, before]
    · rw [View.consume_chan_ne v input receiver, before]
  rw [View.consume_become_chan, consumed, List.nil_append]
  split
  next sender =>
    subst sender
    rw [List.eq_nil_iff_forall_not_mem]
    intro m mem
    have apart := step.outward law ready (b, m) (mem_outTo.mp mem)
    rcases stray with rfl | out
    · exact apart rfl
    · exact absurd child.2 (Nat.not_le.mpr out)
  next => rfl

end Keep

/-! ## Children that have left -/

/-- Nothing changes in a process that has ended, but for what it still has to write. -/
theorem Step.loc_of_exited {s s' : ProcessState μ} {e : Event Nat Message} {p : Nat}
    (step : Step (spawnChildren cfg M true) s e s') (child : p ≠ parentId)
    (exited : (s.loc p).pc = .exited) : (s'.loc p).pc = .exited := by
  have stopped : spawnChildren cfg M true p (s.loc p) = .stop := by
    rw [spawnChildren, if_neg child]
    split
    · rw [childEntry, exited]
    · rfl
  have other {a : Nat} {next : Next Nat (Process μ) Message} (ne : a ≠ p) :
      (Function.update s.loc a next.1 p).pc = .exited := by
    rw [Function.update_of_ne (Ne.symm ne)]
    exact exited
  cases step with
  | send => exact exited
  | @act a _ _ code | @poll a _ _ _ _ _ _ _ code | @pollEmpty a _ _ _ _ code
  | @receive a _ _ _ _ _ _ code | @receiveEmpty a _ _ _ _ code =>
    refine other fun eq => ?_
    subst eq
    cases stopped.symm.trans code

theorem Run.loc_of_exited {s s' : ProcessState μ} {ts : List (Transition Nat (Process μ) Message)}
    {p : Nat} (run : Run (spawnChildren cfg M true) s ts s') (child : p ≠ parentId)
    (exited : (s.loc p).pc = .exited) : (s'.loc p).pc = .exited := by
  induction run with
  | nil => exact exited
  | snoc _ step ih => exact Step.loc_of_exited step child ih

end Distra

namespace Distra.Pa4

open Network RequestQueue Exclusion

variable {cfg : Config}

theorem Serves.outward {fr : Nat} {m : Message} {l l' : Locals} {out : Sends}
    (serves : Serves l fr m l' out) : ∀ x ∈ out, x.1 = fr ∧ x.2.type = .csReply := by
  cases serves with
  | reply | release => exact nofun
  | request =>
    intro x mem
    rw [List.mem_singleton.mp mem]
    exact ⟨rfl, rfl⟩

theorem multicastToChildren_ne {n p : Nat} {m : Message} :
    ∀ x ∈ ipcMulticastToChildren n p m, x.1 ≠ p := by
  intro x mem
  obtain ⟨dst, other, rfl⟩ := List.mem_map.mp mem
  exact (mem_otherChildren.mp other).2

theorem mutex_outward : mutex.Outward where
  requestCs_ne {cfg p l l' out} h := by
    change requestCs cfg p l = _ at h
    by_cases vacant : queueLookup l.mux.queue p = emptyRequestTime
    · rw [requestCs_of_vacant vacant] at h
      cases h
      exact multicastToChildren_ne
    · rw [requestCs_of_queued vacant] at h
      cases h
      exact nofun
  take_ne ne h := by
    rcases requestCsTake_some h with ⟨l₁, out₁, serves, eq⟩ | ⟨-, -, -, rfl⟩
    · obtain rfl : _ = out₁ := (congrArg (fun x => x.2.2) eq).trans (enterIf_sends _ _ l₁ out₁)
      intro x mem
      rw [(serves.outward x mem).1]
      exact ne
    · exact nofun
  empty_ne h := by
    cases h
    exact nofun
  release_ne h := by
    obtain ⟨-, -, rfl⟩ := releaseCs_some h
    exact multicastToChildren_ne
  handle_ne {cfg p _ _ _ _ _ _} ne h := by
    rcases @handleCsRequests_some cfg p _ _ _ _ _ _ h with ⟨serves, -, -⟩ | ⟨-, -, -, rfl⟩
    · intro x mem
      rw [(serves.outward x mem).1]
      exact ne
    · exact nofun
  handle_reply {cfg p _ _ _ _ _ _} h := by
    rcases @handleCsRequests_some cfg p _ _ _ _ _ _ h with ⟨serves, -, -⟩ | ⟨-, -, -, rfl⟩
    · exact fun x mem => (serves.outward x mem).2
    · exact nofun

/-- What holds in every reachable state. -/
structure Reached (cfg : Config) (v : ProcessView Mux) (os : List Observation) : Prop where
  control : Control cfg v
  counted : Counted cfg v os
  refined : Refined cfg v os
  notified : Notified cfg v os
  closed : Closed cfg v
  posted : Posted cfg v

theorem reached (r : MutexRun cfg mutex) : Reached cfg r.final.view (r.observations own) := by
  have all := MutexRun.invariant
    (J := fun v os => Refined cfg v os ∧ Notified cfg v os ∧ Closed cfg v ∧ Posted cfg v)
    mutex_lawful own ⟨.initial, .initial cfg mutex, .initial cfg mutex, fun _ _ _ _ => rfl⟩
    (fun v os p input control inv child ready => inv.1.safe (p := ⟨p, child⟩) control ready)
    ?_ ?_ r
  · obtain ⟨control, counted, refined, notified, closed, posted⟩ := all
    exact ⟨control, counted, refined, notified, closed, posted⟩
  · rintro v os p input next control ⟨refined, notified, closed, posted⟩ child ready step
    refine ⟨refined.keep (p := ⟨p, child⟩) control ready step, ?_, ?_, ?_⟩
    · exact notified.keep control own child ready (step.control mutex_lawful)
    · exact closed.keep control mutex_lawful mutex_outward ready step
    · exact posted.keep mutex_outward child ready step
  · rintro v v' os ⟨refined, notified, closed, posted⟩ frame
    exact ⟨refined.parent frame, notified.parent frame, closed.parent frame, posted.parent frame⟩

section Exited

variable {v : ProcessView Mux} {os : List Observation} {p q : Nat}

/-- A child that has left its last loop has taken every `DONE`. -/
theorem Reached.not_pending (h : Reached cfg v os) (child : IsChild cfg.numChildren p)
    (exited : (v.loc p).pc = .exited) (qchild : IsChild cfg.numChildren q) (ne : q ≠ p) :
    ¬Pending v p q := by
  intro pending
  have none_ := (h.control.final p child).2 exited
  rw [h.control.awaiting p child] at none_
  have mem : q ∈ (peers cfg.numChildren p).filter (Pending v p) :=
    Finset.mem_filter.mpr ⟨mem_peers.mpr ⟨ne, qchild⟩, pending⟩
  have := Finset.card_pos.mpr ⟨q, mem⟩
  omega

/-- It gets nothing more from the others. -/
theorem Reached.chan_eq_nil (h : Reached cfg v os) (child : IsChild cfg.numChildren p)
    (exited : (v.loc p).pc = .exited) (qchild : IsChild cfg.numChildren q) (ne : q ≠ p) :
    v.chan q p = [] := by
  have taken := h.not_pending child exited qchild ne
  rw [Pending, not_or, not_not] at taken
  obtain ⟨finished, clean⟩ := taken
  have replies := (h.closed p q child qchild ne).closed finished
    (fun m mem isDone => clean ⟨m, mem, isDone⟩)
  have apart : (⟨p, child⟩ : Child cfg.numChildren) ≠ ⟨q, qchild⟩ :=
    fun eq => ne (congrArg Subtype.val eq).symm
  have idle : (image cfg v os).phase ⟨p, child⟩ ≠ .waiting := by
    have phase : (v.loc p).pc.phase = .idle := by rw [exited]; rfl
    simp [image, grants, phase]
  have settled : Exclusion.replies ((v.chan q p).filterMap csMessage) = 0 :=
    ((h.refined.inv.link ⟨p, child⟩ ⟨q, qchild⟩ apart).settled idle).2
  rw [replies_csMessage, ofType_eq_zero] at settled
  rw [List.eq_nil_iff_forall_not_mem]
  exact fun m mem => settled m mem (replies m mem)

theorem Reached.transit_eq_nil (h : Reached cfg v os) (child : IsChild cfg.numChildren p)
    (exited : (v.loc p).pc = .exited) (q : Nat) : v.chan q p = [] := by
  by_cases stray : q = p ∨ cfg.numChildren < q
  · exact h.posted q p child.ne_parent stray
  · by_cases parent : q = parentId
    · rw [parent]
      exact h.control.parentSilent p child.ne_parent
    · have ne : q ≠ p := fun eq => stray (.inl eq)
      have le : q ≤ cfg.numChildren := Nat.not_lt.mp (fun out => stray (.inr out))
      exact h.chan_eq_nil child exited ⟨Nat.pos_of_ne_zero parent, le⟩ ne

end Exited

/-- No child fails. A child leaves its last loop after all the others have gone through all their
critical sections and it has taken the one `DONE` of each; and then its channels are empty, and
stay so. -/
theorem lamport_shutdown (r : MutexRun cfg mutex) :
    Unfailing cfg mutex r.final ∧
      ∀ p, IsChild cfg.numChildren p → (r.final.loc p).pc = .exited →
        (∀ q, IsChild cfg.numChildren q → q ≠ p →
          entriesBy q (r.observations own) = 5 * q ∧ (r.final.loc q).pc.Finished ∧
            ofType .done (taken r.transitions p q) = 1 ∧ r.final.chan q p = []) ∧
        ∀ ts s, Run (spawnChildren cfg mutex true) r.final ts s →
          ∀ t ∈ ts, ∀ q m, t.event ≠ .send q p m := by
  have inv := reached r
  refine ⟨.of_mutex inv.control fun p child input ready =>
    inv.refined.safe (p := ⟨p, child⟩) inv.control ready, fun p child exited => ⟨?_, ?_⟩⟩
  · intro q qchild ne
    have taken := inv.not_pending child exited qchild ne
    have finished : (r.final.loc q).pc.Finished := by
      by_contra unfinished
      exact taken (.inl unfinished)
    refine ⟨?_, finished, ?_, ?_⟩
    · rw [(inv.counted q qchild).2, State.view_loc]
      rcases finished with pc | pc <;> rw [pc, Pc.entries]
    · rw [← tookFrom_observations own r child.ne_parent, inv.notified p q child qchild ne,
        if_neg taken]
    · exact (List.append_eq_nil_iff.mp (inv.chan_eq_nil child exited qchild ne)).1
  · intro ts s run
    induction run with
    | nil => simp
    | @snoc ts s e s' run step ih =>
      intro t mem q m event
      rcases List.mem_append.mp mem with mem | mem
      · exact ih t mem q m event
      · rw [List.mem_singleton.mp mem] at event
        have later := reached ⟨r.transitions ++ ts, s, r.run.trans run⟩
        have empty := later.transit_eq_nil child (Run.loc_of_exited run child.ne_parent exited) q
        subst event
        have := step.send_transit
        rw [State.view_chan] at empty
        rw [empty] at this
        cases this

end Distra.Pa4
