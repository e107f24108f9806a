import Distra.Pa23.ShapeSteps

/-!
# After a lost `DONE`

A child that has taken a `DONE` in its main loop never ends its last barrier. So its history is
never sent, and the parent never prints.
-/

namespace Distra.Pa23

open Network

variable {δ : Type} {cfg : BankConfig} {B : BankCode δ} {v : BankView δ}

/-- Process `q` has sent its `DONE`. -/
def Pc.SentDone : Pc → Prop
  | .awaitAllDone _ | .exited | .panicked | .aborted => True
  | _ => False

/-- A child that still waits for the `DONE` of `q`, or will. -/
def Pc.MissesDone (q : Nat) : Pc → Prop
  | .receiveAny _ | .childSyncDone | .panicked | .aborted => True
  | .awaitAllDone fr => fr < q
  | _ => False

/-- The parent still waits for the history of `p`, or will. -/
def Pc.MissesHistory (p : Nat) : Pc → Prop
  | .awaitAllStarted _ | .bankRobbery _ | .awaitAck _ _ | .awaitAllDone _ => True
  | .panicked | .aborted => True
  | .receiveHistories fr => fr < p
  | _ => False

/-- The `DONE` of `q` is lost for `p`. -/
structure Lost (cfg : BankConfig) (v : BankView δ) (p q : Nat) : Prop where
  child : IsChild cfg.numChildren p
  sender : IsChild cfg.numChildren q
  ne : q ≠ p
  sent : (v.loc q).pc.SentDone
  gone : v.chan q p = []
  misses : (v.loc p).pc.MissesDone q
  untold : ∀ m ∈ v.chan p parentId, m.body.type ≠ .balanceHistory
  lacks : (v.loc parentId).pc.MissesHistory p
  unprinted : (v.loc parentId).printed = none

section Steps

variable {p q r : Nat} {input : Option (Nat × BankMessage)} {next : ProcessNext δ} {st : Process δ}

theorem outTo_childSyncDone (lawful : B.Lawful) (n p : Nat) (d : δ) :
    ∀ x ∈ (B.childSyncDone n p d).2, x.2.body.type ≠ .balanceHistory := by
  obtain ⟨t, sends⟩ := lawful.childSyncDone n p d
  intro x mem
  rw [sends] at mem
  obtain ⟨_, _, rfl⟩ := List.mem_map.mp mem
  nofun

/-- A child that has sent its `DONE` sends no other child anything. -/
theorem LocalStep.sentDone (lawful : B.Lawful) (step : LocalStep cfg B q st input next)
    (child : q ≠ parentId) (sent : st.pc.SentDone) :
    next.1.pc.SentDone ∧ ∀ p ≠ parentId, outTo next.2 p = [] := by
  cases step with
  | done => exact ⟨trivial, fun _ _ => rfl⟩
  | childDone =>
    refine ⟨trivial, fun p ne => ?_⟩
    obtain ⟨history, t, sends⟩ := lawful.sendHistory st.data
    rw [Process.goTo_sends, sends, outTo_cons, if_neg ne.symm]
    rfl
  | blocked => exact ⟨sent, fun _ _ => rfl⟩
  | parentStarted parent | parentDone parent | transfer parent | ack parent | sendStop parent
  | history parent | printHistory parent => exact absurd parent child
  | childSyncStarted _ pc | started pc | childStarted _ pc | goesOn _ pc | breaks _ pc
  | looked _ pc | childSyncDone _ pc =>
    rw [pc] at sent
    exact sent.elim

/-- A child does not get past a `DONE` that does not come. -/
theorem LocalStep.missesDone (lawful : B.Lawful) (step : LocalStep cfg B p st input next)
    (child : p ≠ parentId) (sender : IsChild cfg.numChildren q) (ne : q ≠ p)
    (gone : ∀ m, input ≠ some (q, m)) (misses : st.pc.MissesDone q) :
    next.1.pc.MissesDone q ∧ ∀ x ∈ next.2, x.2.body.type ≠ .balanceHistory := by
  cases step with
  | goesOn _ _ loop =>
    refine ⟨trivial, fun x mem => ?_⟩
    apply lawful.childLoop p st.data
    rw [loop]
    exact mem
  | breaks _ _ loop =>
    refine ⟨trivial, fun x mem => ?_⟩
    apply lawful.childLoop p st.data
    rw [loop]
    exact mem
  | looked => exact ⟨trivial, nofun⟩
  | childSyncDone => exact ⟨sender.1, outTo_childSyncDone lawful _ _ _⟩
  | @done fr q' m pc found expected =>
    rw [pc] at misses
    have misses : fr < q := misses
    have other : q' ≠ q := fun eq => gone m (eq ▸ rfl)
    have ahead := (ipcReceiveAllNext_ahead found ne).mp misses
    exact ⟨lt_of_le_of_ne ahead other, nofun⟩
  | childDone _ pc last =>
    rw [pc] at misses
    exact absurd misses (ipcReceiveAllNext_last last sender.2 ne)
  | blocked => exact ⟨misses, nofun⟩
  | parentStarted parent | parentDone parent | transfer parent | ack parent | sendStop parent
  | history parent | printHistory parent => exact absurd parent child
  | childSyncStarted _ pc | started pc | childStarted _ pc =>
    rw [pc] at misses
    exact misses.elim

/-- The parent does not get past a history that does not come. -/
theorem LocalStep.missesHistory (step : LocalStep cfg B parentId st input next)
    (child : IsChild cfg.numChildren p)
    (untold : ∀ m, input = some (p, m) → m.body.type ≠ .balanceHistory)
    (misses : st.pc.MissesHistory p) (unprinted : st.printed = none) :
    next.1.pc.MissesHistory p ∧ next.1.printed = none := by
  cases step with
  | started | done | parentStarted | transfer | ack | sendStop => exact ⟨trivial, unprinted⟩
  | parentDone => exact ⟨child.1, unprinted⟩
  | @history fr q m history _ pc found body =>
    rw [pc] at misses
    have misses : fr < p := misses
    have other : q ≠ p := fun eq => untold m (eq ▸ rfl) (congrArg Body.type body)
    have ahead := (ipcReceiveAllNext_ahead found child.ne_parent).mp misses
    exact ⟨lt_of_le_of_ne ahead other, unprinted⟩
  | printHistory _ pc last =>
    rw [pc] at misses
    exact absurd misses (ipcReceiveAllNext_last last child.2 child.ne_parent)
  | blocked => exact ⟨misses, unprinted⟩
  | childSyncStarted ne | childStarted ne | goesOn ne | breaks ne | looked ne | childSyncDone ne
  | childDone ne => exact absurd rfl ne

end Steps

theorem Lost.step (lawful : B.Lawful) {p q r : Nat} (h : Lost cfg v p q)
    {input : Option (Nat × BankMessage)} {next : ProcessNext δ} (ready : Ready v r input)
    (step : Stepped cfg B r (v.loc r) input next) :
    Lost cfg ((v.consume r input).become r next) p q := by
  have taken {a : Nat} {m : BankMessage} (eq : input = some (a, m)) : m ∈ v.chan a r := by
    rw [eq] at ready
    obtain ⟨rest, head⟩ := ready
    rw [head]
    exact List.mem_cons_self
  have at_sender (eq : r = q) : next.1.pc.SentDone ∧ outTo next.2 p = [] := by
    subst eq
    rcases step with step | ⟨x, -, -, failed⟩
    · obtain ⟨sent, silent⟩ := step.sentDone lawful h.sender.ne_parent h.sent
      exact ⟨sent, silent p h.child.ne_parent⟩
    · rw [failed.silent]
      rcases failed.pc with pc | pc <;> rw [pc] <;> exact ⟨trivial, rfl⟩
  have at_child (eq : r = p) : next.1.pc.MissesDone q ∧
      ∀ x ∈ next.2, x.2.body.type ≠ .balanceHistory := by
    subst eq
    rcases step with step | ⟨x, -, -, failed⟩
    · refine step.missesDone lawful h.child.ne_parent h.sender h.ne (fun m eq => ?_) h.misses
      have := taken eq
      rw [h.gone] at this
      cases this
    · rw [failed.silent]
      rcases failed.pc with pc | pc <;> rw [pc] <;> exact ⟨trivial, nofun⟩
  have at_parent (eq : r = parentId) :
      next.1.pc.MissesHistory p ∧ next.1.printed = none := by
    subst eq
    rcases step with step | ⟨x, -, -, failed⟩
    · exact step.missesHistory h.child (fun m eq => h.untold m (taken eq)) h.lacks h.unprinted
    · rw [failed.printed]
      rcases failed.pc with pc | pc <;> rw [pc] <;> exact ⟨trivial, h.unprinted⟩
  refine ⟨h.child, h.sender, h.ne, ?_, ?_, ?_, fun m mem => ?_, ?_, ?_⟩
  · rw [View.consume_become_loc]
    split
    next eq => exact (at_sender eq.symm).1
    next => exact h.sent
  · have rest : (v.consume r input).chan q p = [] := by
      apply List.eq_nil_iff_forall_not_mem.mpr
      intro m mem
      have := mem_consume mem
      rw [h.gone] at this
      cases this
    rw [View.consume_become_chan, rest, List.nil_append]
    split
    next eq => exact (at_sender eq.symm).2
    next => rfl
  · rw [View.consume_become_loc]
    split
    next eq => exact (at_child eq.symm).1
    next => exact h.misses
  · rw [View.consume_become_chan] at mem
    rcases List.mem_append.mp mem with mem | mem
    · exact h.untold m (mem_consume mem)
    · split at mem
      next eq => exact (at_child eq.symm).2 (parentId, m) (mem_outTo.mp mem)
      next => cases mem
  · rw [View.consume_become_loc]
    split
    next eq => exact (at_parent eq.symm).1
    next => exact h.lacks
  · rw [View.consume_become_loc]
    split
    next eq => exact (at_parent eq.symm).2
    next => exact h.unprinted

theorem Pc.sentDone_of_sent {pc : Pc} {q : Nat} (child : q ≠ parentId) (sent : 2 ≤ pc.sent q) :
    pc.SentDone := by
  cases pc <;> simp_all [Pc.sent, Pc.SentDone]

theorem Pc.missesHistory_of_taken {n p : Nat} {pc : Pc} (role : pc.Role n parentId)
    (child : p ≠ parentId) (taken : pc.taken parentId p ≤ 1) : pc.MissesHistory p := by
  cases pc with
  | receiveHistories fr =>
    rw [Pc.taken] at taken
    split at taken <;> omega
  | exited =>
    rw [Pc.taken, if_neg child, if_pos rfl] at taken
    omega
  | childSyncStarted | childSyncDone => exact absurd rfl role
  | receiveAny => exact absurd rfl role.1
  | _ => trivial

/-- A `DONE` that reaches a main loop is the last message to another child. -/
theorem Shape.loop_done {flight : Flight} (h : Shape cfg v flight) {p fr : Nat}
    (le : p ≤ cfg.numChildren) (child : p ≠ parentId) (pc : (v.loc p).pc = .receiveAny fr)
    {m : BankMessage} {rest : List BankMessage} (head : v.chan fr p = m :: rest)
    (done : m.body = .done) :
    IsChild cfg.numChildren fr ∧ fr ≠ p ∧ 1 < (v.loc fr).pc.sent fr ∧ flight = .none ∧
      rest = [] := by
  have role := h.role p le
  rw [pc] at role
  obtain ⟨-, hq, ne⟩ := role
  obtain ⟨sender, waits⟩ : fr ≠ parentId ∧ (v.loc p).pc.taken p fr < (v.loc fr).pc.sent fr := by
    have found := h.loop_head le child pc ⟨rest, head⟩
    rw [done] at found
    cases found with
    | done sender waits => exact ⟨sender, waits⟩
  have taken : (v.loc p).pc.taken p fr = 1 := by
    rw [pc]
    exact if_neg sender
  rw [taken] at waits
  have settled : flight = .none := h.none_of_stopped hq sender (Pc.taken_of_sent sender waits)
  refine ⟨⟨Nat.pos_of_ne_zero sender, hq⟩, ne, waits, settled, ?_⟩
  have eq := (h.fits fr hq p le ne).eq
  rw [settled, typesIn, head, taken, Flight.types, List.append_nil] at eq
  have short := congrArg List.length eq
  rw [List.map_cons, List.length_cons, List.length_map, List.length_drop, List.length_take,
    script, if_neg sender, if_neg child, List.length_cons, List.length_singleton] at short
  exact List.length_eq_zero_iff.mp (by omega)

/-- A `DONE` taken in a main loop is lost. -/
theorem Shape.lost {flight : Flight} (h : Shape cfg v flight) {p fr : Nat}
    (le : p ≤ cfg.numChildren) (child : p ≠ parentId) (pc : (v.loc p).pc = .receiveAny fr)
    (unprinted : (v.loc parentId).pc ≠ .exited → (v.loc parentId).printed = none)
    {m : BankMessage} (head : ∃ rest, v.chan fr p = m :: rest) (done : m.body = .done)
    {next : ProcessNext δ} (pc' : next.1.pc = .receiveAny 0 ∨ next.1.pc = .childSyncDone)
    (silent : ∀ x ∈ next.2, x.2.body.type ≠ .balanceHistory) :
    Lost cfg ((v.consume p (some (fr, m))).become p next) p fr := by
  obtain ⟨rest, head⟩ := head
  obtain ⟨sender, ne, waits, settled, last⟩ := h.loop_done le child pc head done
  have p_child : IsChild cfg.numChildren p := ⟨Nat.pos_of_ne_zero child, le⟩
  have loc (a : Nat) (other : a ≠ p) :
      ((v.consume p (some (fr, m))).become p next).loc a = v.loc a := by
    rw [View.consume_become_loc, if_neg other]
  have own : ((v.consume p (some (fr, m))).become p next).loc p = next.1 := by
    rw [View.consume_become_loc, if_pos rfl]
  have kept : (v.loc parentId).pc.taken parentId p ≤ 1 := by
    have := (h.fits p le parentId (parent_le _) child).le
    rw [pc] at this
    exact this
  have lacks := Pc.missesHistory_of_taken (h.role parentId (parent_le _)) child kept
  refine ⟨p_child, sender, ne, ?_, ?_, ?_, fun m' mem => ?_, ?_, ?_⟩
  · rw [loc fr ne]
    exact Pc.sentDone_of_sent sender.ne_parent waits
  · have popped : (v.consume p (some (fr, m))).chan fr p = (v.chan fr p).tail :=
      Channels.pop_head v.chan fr p
    rw [View.consume_become_chan, if_neg ne, popped, head, last]
    rfl
  · rw [own]
    rcases pc' with pc' | pc' <;> rw [pc'] <;> trivial
  · rw [View.consume_become_chan] at mem
    rcases List.mem_append.mp mem with mem | mem
    · have listed : m'.body.type ∈ typesIn v p parentId := List.mem_map_of_mem (mem_consume mem)
      rw [(h.fits p le parentId (parent_le _) child).eq, settled, Flight.types, List.append_nil,
        pc] at listed
      have := List.mem_of_mem_drop listed
      rw [script, if_neg child, if_pos rfl] at this
      rw [List.mem_singleton.mp this]
      simp
    · rw [if_pos rfl] at mem
      exact silent (parentId, m') (mem_outTo.mp mem)
  · rw [loc parentId child.symm]
    exact lacks
  · rw [loc parentId child.symm]
    apply unprinted
    intro exited
    rw [exited] at lacks
    exact lacks

end Distra.Pa23
