import Distra.Pa23.Completion

/-!
# `DONE`s that come early

A single child has no peer whose `DONE` it could lose. With two children or more there is always a
run in which a `DONE` gets lost, whatever the transfers: when these are over and nothing is left in
the channels, child 2 passes the channel of the parent, and child 1 gets its `STOP` and sends its
`DONE` before child 2 gets there again.
-/

namespace Distra.Pa23

open Network

variable {δ : Type} {cfg : BankConfig} {B : BankCode δ} {s s' : BankState δ}
  {e : Event Nat BankMessage} {ts : List (Transition Nat (Process δ) BankMessage)} {flight : Flight}
  {p : Nat}

/-! ## Main loops that look at a `DONE` -/

section Quiet

variable (lawful : B.Lawful) (drops : B.Drops)
include lawful drops

/-- A main loop finds a `DONE` only in the channel of another child. -/
theorem BankRun.peer_of_pollsDone (r : BankRun cfg B) (shape : Shape cfg r.final.view flight)
    (polls : PollsDone r.final p) : ∃ q, (r.final.loc p).pc = .receiveAny q ∧
      IsChild cfg.numChildren p ∧ IsChild cfg.numChildren q ∧ q ≠ p ∧
        ∃ m ∈ r.final.chan q p, m.body.type = .done := by
  obtain ⟨-, q, looks, m, mem, done⟩ := polls
  have pc := Pc.receiveAny_of_looksAt looks
  have inTransit : m ∈ r.final.transit q p := List.mem_append_left _ mem
  obtain ⟨⟨hq, le⟩, ne⟩ := r.within lawful drops (List.ne_nil_of_mem inTransit)
  have child : p ≠ parentId := by
    have role := shape.role p le
    rw [State.view_loc, pc] at role
    exact role.1
  refine ⟨q, pc, ⟨Nat.pos_of_ne_zero child, le⟩, ⟨Nat.pos_of_ne_zero ?_, hq⟩, ne, m, mem, done⟩
  rintro rfl
  exact shape.not_done_of_parent le child.symm inTransit done

/-- What a main loop looks at, it takes. -/
theorem not_pollsDone_of_awaits (r : BankRun cfg B) (awaits : Awaits r.transitions)
    (step : Step (start cfg B) r.final e s')
    (last : ∀ p q m, e = .take p q m → m.body.type = .done →
      ∃ fr, (r.final.loc p).pc = .awaitAllDone fr) : ¬PollsDone r.final e.actor := by
  intro polls
  obtain ⟨flight, shape⟩ := shape_of_awaits lawful r.run awaits
  obtain ⟨q, pc, child, peer, ne, m, mem, done⟩ := r.peer_of_pollsDone lawful drops shape polls
  have stopped := shape.stopped_of_done peer child ne (List.mem_append_left _ mem) done
  obtain ⟨onMessage, code⟩ := start_receiveAny (B := B) child.2 child.ne_parent pc
  cases step with
  | send pending => cases polls.1.symm.trans pending
  | act _ code' | poll _ code' | pollEmpty _ code' => cases code.symm.trans code'
  | @receive a b m' rest _ _ _ code' head =>
    cases code.symm.trans code'
    have head : ∃ rest, r.final.view.chan q a = m' :: rest :=
      ⟨_, by rw [State.view_chan, State.transit, head]; rfl⟩
    obtain ⟨fr, pc'⟩ := last a q m' rfl
      (shape.done_of_head child.2 child.ne_parent pc peer.ne_parent stopped head)
    cases pc.symm.trans pc'
  | receiveEmpty _ code' empty =>
    cases code.symm.trans code'
    rw [Event.actor, empty] at mem
    cases mem

theorem quiet_of_awaits (run : Run (start cfg B) (initialState cfg B) ts s) (awaits : Awaits ts) :
    Quiet ts := by
  induction run with
  | nil => exact fun _ mem => absurd mem List.not_mem_nil
  | @snoc ts s e s' run step ih =>
    obtain ⟨before, last⟩ := awaits_snoc.mp awaits
    refine List.forall_mem_append.mpr ⟨ih before, List.forall_mem_singleton.mpr ?_⟩
    exact not_pollsDone_of_awaits lawful drops ⟨ts, s, run⟩ before step last

/-- Nothing but a main loop that looks at a `DONE` disturbs the shutdown. -/
theorem shutsDown_iff_quiet (r : BankRun cfg B) : ShutsDown r ↔ Quiet r.transitions := by
  constructor
  · exact fun shutsDown => quiet_of_awaits lawful drops r.run shutsDown.consumes
  · exact shutsDown_of_quiet lawful r

theorem quiet_of_alone (alone : cfg.numChildren = 1)
    (run : Run (start cfg B) (initialState cfg B) ts s) : Quiet ts := by
  induction run with
  | nil => exact fun _ mem => absurd mem List.not_mem_nil
  | @snoc ts s e s' run step ih =>
    refine List.forall_mem_append.mpr ⟨ih, List.forall_mem_singleton.mpr fun polls => ?_⟩
    obtain ⟨⟨flight, shape⟩, -⟩ := shape_of_run lawful run ih
    obtain ⟨q, -, ⟨pos, le⟩, ⟨pos', le'⟩, ne, -⟩ :=
      BankRun.peer_of_pollsDone lawful drops ⟨ts, s, run⟩ shape polls
    omega

end Quiet

/-! ## Before the `STOP`s -/

/-- The transfers are over, all children are in their main loops, and nothing is in a buffer. -/
structure Gathered (cfg : BankConfig) (s : BankState δ) : Prop where
  parent : (s.loc parentId).pc = .bankRobbery []
  loops : ∀ p, IsChild cfg.numChildren p → ∃ fr, (s.loc p).pc = .receiveAny fr
  idle : ∀ p, s.outbox p = []

/-- A step of the parent that is none to its `STOP`s. -/
theorem Stepped.early {st : Process δ} {input : Option (Nat × BankMessage)} {next : ProcessNext δ}
    (step : Stepped cfg B parentId st input next) (early : ¬1 ≤ st.pc.sent parentId)
    (waits : st.pc ≠ .bankRobbery []) : ¬1 ≤ next.1.pc.sent parentId := by
  rcases step with step | ⟨-, -, -, failed⟩
  · cases step with
    | sendStop _ pc => exact absurd pc waits
    | done pc | parentDone _ pc | history _ pc | printHistory _ pc =>
      rw [pc] at early
      exact absurd (by simp [Pc.sent]) early
    | goesOn child | breaks child | childSyncStarted child | childStarted child | looked child
    | childSyncDone child | childDone child => exact absurd rfl child
    | blocked => exact early
    | started | parentStarted | transfer | ack => simp [Pc.sent]
  · rcases failed.pc with pc | pc <;> simp [pc, Pc.sent]

section Before

variable (h : Shape cfg s.view flight) (parent : (s.loc parentId).pc = .bankRobbery [])
include h parent

/-- All children have sent their `STARTED`s. -/
theorem Shape.started_of_bankRobbery (child : IsChild cfg.numChildren p) :
    1 ≤ (s.loc p).pc.sent p := by
  have taken := (h.fits p child.2 parentId (parent_le _) child.ne_parent).le
  rw [State.view_loc, parent] at taken
  exact taken

/-- No child has got its `STOP`. -/
theorem Shape.not_stopped_of_bankRobbery (child : IsChild cfg.numChildren p) :
    (s.loc p).pc.taken p parentId = 0 := by
  have taken := (h.fits parentId (parent_le _) p child.2 child.ne_parent.symm).le
  rw [State.view_loc, parent] at taken
  exact Nat.le_zero.mp taken

/-- A child that has not come to its main loop can go on, if nothing is in a buffer. -/
theorem Shape.step_to_loop (idle : ∀ p, s.outbox p = []) (child : IsChild cfg.numChildren p)
    (outside : ∀ fr, (s.loc p).pc ≠ .receiveAny fr) :
    ∃ e s', Step (start cfg B) s e s' ∧ e.actor = p ∧ ∀ a, e ≠ .empty a := by
  have role := h.role p child.2
  have taken := h.not_stopped_of_bankRobbery parent child
  rw [State.view_loc] at role
  cases pc : (s.loc p).pc with
  | receiveAny fr => exact absurd pc (outside fr)
  | childSyncStarted =>
    have acts : Acts cfg B p (s.loc p) := by
      rw [Acts, start_child child.ne_parent child.2]
      simp only [childEntry, pc]
      exact ⟨_, rfl⟩
    obtain ⟨next, code⟩ := acts
    exact ⟨_, _, .act (idle p) code, rfl, by simp⟩
  | awaitAllStarted fr =>
    have at_ : (s.loc p).pc.AtBarrier p fr := pc ▸ .started
    obtain ⟨_, _, _, _, code⟩ := at_.code (B := B) child.2
    cases found : ipcReceiveAllNext cfg.numChildren p fr with
    | none =>
      obtain ⟨next, code⟩ := ipcExtReceiveAll_acts code found
      exact ⟨_, _, .act (idle p) code, rfl, by simp⟩
    | some q =>
      obtain ⟨onMessage, code⟩ := ipcExtReceiveAll_waits code found
      obtain ⟨lt, hq, ne, -⟩ := ipcReceiveAllNext_eq_some found
      have peer : IsChild cfg.numChildren q := ⟨Nat.zero_lt_of_lt lt, hq⟩
      have none_ : (s.view.loc p).pc.taken p q = 0 := by
        rw [State.view_loc, pc]
        exact if_pos lt
      have some_ := (h.fits q hq p child.2 ne).nonempty
        (none_ ▸ h.started_of_bankRobbery parent peer)
        (by rw [none_, script, if_neg peer.ne_parent]; split <;> exact Nat.zero_lt_succ _)
      rw [typesIn, State.view_chan, State.transit_of_idle (idle q)] at some_
      obtain ⟨m, rest, head⟩ :=
        List.exists_cons_of_ne_nil fun empty => some_ (List.map_eq_nil_iff.mpr empty)
      exact ⟨_, _, .receive (idle p) code head, rfl, by simp⟩
  | childSyncDone | awaitAllDone | exited =>
    rw [pc] at taken
    simp [Pc.taken] at taken
  | bankRobbery | awaitAck =>
    rw [pc] at role
    exact absurd role.1 child.ne_parent
  | receiveHistories fr =>
    rw [pc] at role
    exact absurd role child.ne_parent
  | panicked | aborted =>
    rw [pc] at role
    exact role.elim

/-- When the transfers are over, all children can come to their main loops. -/
theorem Shape.gathers (apart : ¬Gathered cfg s) :
    ∃ e s', Step (start cfg B) s e s' ∧ s'.loc parentId = s.loc parentId ∧ ∀ a, e ≠ .empty a := by
  by_cases idle : ∀ p, s.outbox p = []
  · have outside : ∃ p, IsChild cfg.numChildren p ∧ ∀ fr, (s.loc p).pc ≠ .receiveAny fr := by
      by_contra inside
      push Not at inside
      exact apart ⟨parent, inside, idle⟩
    obtain ⟨p, child, outside⟩ := outside
    obtain ⟨e, s', step, rfl, busy⟩ := h.step_to_loop (B := B) parent idle child outside
    exact ⟨e, s', step, step.loc_of_ne child.ne_parent.symm, busy⟩
  · obtain ⟨p, pending⟩ := not_forall.mp idle
    obtain ⟨⟨q, m⟩, rest, pending⟩ := List.exists_cons_of_ne_nil pending
    exact ⟨_, _, .send pending, rfl, by simp⟩

end Before

section Gathered

variable (lawful : B.Lawful) (drops : B.Drops)
include lawful drops

/-- Before the `STOP`s the processes can go on without them. -/
theorem Safe.gathers (h : Safe cfg B s) (early : ¬1 ≤ (s.loc parentId).pc.sent parentId)
    (apart : ¬Gathered cfg s) :
    ∃ ts s', Run (start cfg B) s ts s' ∧ (∃ t ∈ ts, ¬Polling t) ∧ Safe cfg B s' ∧
      ¬1 ≤ (s'.loc parentId).pc.sent parentId := by
  obtain ⟨flight, shape⟩ := h.shape
  by_cases parent : (s.loc parentId).pc = .bankRobbery []
  · obtain ⟨e, s', step, top, busy⟩ := shape.gathers (B := B) parent apart
    refine ⟨_, s', Run.nil.snoc step, ⟨_, List.mem_singleton_self _, fun ⟨a, eq⟩ => busy a eq⟩,
      h.early_step lawful drops early step, ?_⟩
    rw [top]
    exact early
  · have running : (s.loc parentId).pc ≠ .exited := fun exited => early (by rw [exited]; rfl)
    obtain ⟨p, le, s₁, e, s₂, polls, step, actor, busy⟩ := shape.canStep (B := B) running
    obtain ⟨ts, run, safe, top⟩ := h.polls lawful drops early le polls
    rw [← top] at early parent
    refine ⟨_, s₂, run.snoc step, ⟨_, List.mem_append_right _ (List.mem_singleton_self _), ?_⟩,
      safe.early_step lawful drops early step, ?_⟩
    · rintro ⟨a, rfl⟩
      exact busy (actor ▸ rfl)
    · rcases step.view with ⟨same, -⟩ | move
      · have loc : s₂.loc = s₁.loc := congrArg View.loc same
        rw [loc]
        exact early
      · obtain ⟨-, -, next, after, stepped⟩ := bank_move move
        have loc : s₂.loc parentId = if parentId = e.actor then next.1 else s₁.loc parentId :=
          (congrArg (fun v => v.loc parentId) after).trans (View.consume_become_loc _ _ _ _ _)
        rw [loc]
        split
        next own =>
          rw [← own] at stepped
          exact stepped.early early parent
        next => exact early

theorem exists_gathered (cfg : BankConfig) :
    ∃ ts s, Run (start cfg B) (initialState cfg B) ts s ∧ Safe cfg B s ∧ Gathered cfg s := by
  obtain ⟨ts, s, run, ⟨safe, -⟩, gathered⟩ := (bank_climbs lawful drops).exists_stopped
    (fun _ _ run => bank_measure_le lawful drops run)
    (fun s => Safe cfg B s ∧ ¬1 ≤ (s.loc parentId).pc.sent parentId) (Gathered cfg)
    (fun _ _ _ good apart => good.1.gathers lawful drops good.2 apart) .nil
    ⟨⟨⟨[], .nil⟩, ⟨.none, shape_initial⟩, fun p _ => not_doomed_initial p⟩, Nat.not_succ_le_zero 0⟩
  exact ⟨ts, s, run, safe, gathered⟩

/-- There is nothing in the channels. -/
theorem Gathered.empty (gathered : Gathered cfg s) (safe : Safe cfg B s) (a b : Nat) :
    s.chan a b = [] := by
  obtain ⟨flight, shape⟩ := safe.shape
  by_contra some_
  rw [← State.transit_of_idle (gathered.idle a)] at some_
  obtain ⟨⟨ha, hb⟩, ne⟩ := safe.within lawful drops some_
  have under := shape.under
  rw [State.view_loc, gathered.parent] at under
  obtain rfl : flight = .none := under
  have eq := (shape.fits a ha b hb ne).eq
  have sent : (s.loc a).pc.sent a ≤ (s.loc b).pc.taken b a := by
    by_cases sender : a = parentId
    · rw [sender, gathered.parent]
      exact Nat.zero_le _
    · obtain ⟨fr, pc⟩ := gathered.loops a ⟨Nat.pos_of_ne_zero sender, ha⟩
      rw [pc]
      by_cases receiver : b = parentId
      · rw [receiver, gathered.parent]
        exact le_rfl
      · obtain ⟨fr, pc⟩ := gathered.loops b ⟨Nat.pos_of_ne_zero receiver, hb⟩
        rw [pc, Pc.taken, if_neg sender]
        exact le_rfl
  rw [Flight.types, List.append_nil, List.drop_eq_nil_of_le] at eq
  · exact some_ (List.map_eq_nil_iff.mp eq)
  · exact (List.length_take_le _ _).trans sent

end Gathered

/-! ## Two children -/

/-- While nothing is in its channels, a child in its main loop comes to every one of them. -/
theorem run_receiveAny {fr q : Nat} (le : p ≤ cfg.numChildren) (child : p ≠ parentId)
    (idle : s.outbox p = []) (empty : ∀ a, s.chan a p = []) (pc : (s.loc p).pc = .receiveAny fr)
    (hfr : fr ≤ cfg.numChildren) (hq : q ≤ cfg.numChildren) (ne : q ≠ p) :
    ∃ ts, Run (start cfg B) s ts (s.become p ({ s.loc p with pc := .receiveAny q }, [])) := by
  -- Induction on the channels between the one looked at and that of `q`.
  generalize distance : scanDistance cfg.numChildren fr q = d
  induction d using Nat.strong_induction_on generalizing s fr with
  | _ d ih =>
    by_cases there : fr = q
    · subst there
      rw [← pc, State.become_self idle]
      exact ⟨[], .nil⟩
    · obtain ⟨onMessage, code⟩ := start_receiveAny (B := B) le child pc
      have step := Step.receiveEmpty idle code (empty fr)
      have next_le : receiveAnyNext cfg.numChildren p fr ≤ cfg.numChildren := by
        rw [receiveAnyNext]
        cases found : ipcReceiveAllNext cfg.numChildren p fr with
        | none => exact Nat.zero_le _
        | some next => exact (ipcReceiveAllNext_eq_some found).2.1
      obtain ⟨ts, run⟩ := ih _ (distance ▸ scanDistance_receiveAnyNext hfr hq ne there)
        (s := s.become p
          ({ s.loc p with pc := .receiveAny (receiveAnyNext cfg.numChildren p fr) }, []))
        (by simp [State.become]) empty (by simp [State.become]) next_le rfl
      refine ⟨_, (Run.nil.snoc step).trans (?_ : Run _ _ ts _)⟩
      simpa only [State.become, Function.update_self, Function.update_idem] using run

section Code

variable (lawful : B.Lawful)
include lawful

theorem step_sendStop (idle : s.outbox parentId = []) (pc : (s.loc parentId).pc = .bankRobbery []) :
    ∃ d t, Step (start cfg B) s (.act parentId)
      (s.become parentId ((s.loc parentId).goTo (.awaitAllDone parentId)
        (d, sendMulticast cfg.numChildren parentId ⟨.stop, t⟩))) := by
  obtain ⟨t, sends⟩ := lawful.sendStop cfg.numChildren (s.loc parentId).data
  refine ⟨(B.sendStop cfg.numChildren (s.loc parentId).data).1, t, .act idle ?_⟩
  rw [start_parent, ← sends]
  simp only [parentEntry, pc]

variable (idle : s.outbox p = [])
include idle

theorem step_childSyncDone (child : IsChild cfg.numChildren p)
    (pc : (s.loc p).pc = .childSyncDone) :
    ∃ d t, Step (start cfg B) s (.act p) (s.become p ((s.loc p).goTo (.awaitAllDone parentId)
      (d, sendMulticast cfg.numChildren p ⟨.done, t⟩))) := by
  obtain ⟨t, sends⟩ := lawful.childSyncDone cfg.numChildren p (s.loc p).data
  refine ⟨(B.childSyncDone cfg.numChildren p (s.loc p).data).1, t, .act idle ?_⟩
  rw [start_child child.ne_parent child.2, ← sends]
  simp only [childEntry, pc]

theorem step_stop (child : IsChild cfg.numChildren p) (pc : (s.loc p).pc = .receiveAny parentId)
    {t : Nat} {rest : List BankMessage} (head : s.chan parentId p = ⟨.stop, t⟩ :: rest) :
    ∃ d, Step (start cfg B) s (.take p parentId ⟨.stop, t⟩)
      ((s.pop parentId p).become p ((s.loc p).goTo .childSyncDone (d, []))) := by
  obtain ⟨d, loops⟩ := lawful.stop p (s.loc p).data t
  obtain ⟨onMessage, code⟩ := start_receiveAny (B := B) child.2 child.ne_parent pc
  have next : onMessage ⟨.stop, t⟩ = (s.loc p).goTo .childSyncDone (d, []) := by
    rw [start_child child.ne_parent child.2] at code
    simp only [childEntry, pc, Action.receive.injEq, true_and, and_true] at code
    rw [← code]
    simp only [loops]
  exact ⟨d, next ▸ .receive idle code head⟩

end Code

/-- Child 2 has passed the channel of the parent, and child 1 is about to look at it. -/
structure Aimed (s : BankState δ) : Prop where
  parent : (s.loc parentId).pc = .bankRobbery []
  first : (s.loc 1).pc = .receiveAny parentId
  second : (s.loc 2).pc = .receiveAny 1
  idle : ∀ p, s.outbox p = []
  empty : ∀ a b, s.chan a b = []

/-- Child 1 has its `STOP`, and child 2 is about to look at the channel of child 1. -/
structure Ahead (s : BankState δ) : Prop where
  first : (s.loc 1).pc = .childSyncDone
  second : (s.loc 2).pc = .receiveAny 1
  idle : s.outbox 1 = [] ∧ s.outbox 2 = []
  empty : s.chan 1 2 = []

section Two

variable (two : 2 ≤ cfg.numChildren)
include two

theorem Gathered.aims (lawful : B.Lawful) (drops : B.Drops) (gathered : Gathered cfg s)
    (safe : Safe cfg B s) : ∃ ts s', Run (start cfg B) s ts s' ∧ Aimed s' := by
  obtain ⟨flight, shape⟩ := safe.shape
  have empty := gathered.empty lawful drops safe
  have scans {p fr : Nat} (le : p ≤ cfg.numChildren) (pc : (s.loc p).pc = .receiveAny fr) :
      fr ≤ cfg.numChildren := by
    have role := shape.role p le
    rw [State.view_loc, pc] at role
    exact role.2.1
  have one := Nat.one_le_of_lt two
  obtain ⟨fr, pc⟩ := gathered.loops 1 ⟨Nat.one_pos, one⟩
  obtain ⟨ts, run⟩ := run_receiveAny (B := B) one Nat.one_ne_zero (gathered.idle 1)
    (fun a => empty a 1) pc (scans one pc) (parent_le _) Nat.zero_ne_one
  obtain ⟨fr', pc'⟩ := gathered.loops 2 ⟨Nat.two_pos, two⟩
  obtain ⟨ts', run'⟩ := run_receiveAny (B := B) two two_ne_zero
    (s := s.become 1 ({ s.loc 1 with pc := .receiveAny parentId }, []))
    (by simp [State.become, gathered.idle]) (fun a => empty a 2)
    (by simpa [State.become] using pc') (scans two pc') one (by decide)
  refine ⟨_, _, run.trans run', ?_, ?_, ?_, fun p => ?_, empty⟩
  · simpa [State.become, parentId] using gathered.parent
  · simp [State.become]
  · simp [State.become]
  · simp [State.become, Function.update_apply, gathered.idle]

theorem sendMulticast_parent (m : BankMessage) :
    ∃ rest, sendMulticast cfg.numChildren parentId m = (1, m) :: rest := by
  obtain ⟨k, eq⟩ := Nat.exists_eq_add_of_le two
  rw [eq, Nat.add_comm]
  simp [sendMulticast, otherProcesses, List.range_succ_eq_map, parentId]

theorem sendMulticast_first (m : BankMessage) :
    ∃ rest, sendMulticast cfg.numChildren 1 m = (parentId, m) :: (2, m) :: rest := by
  obtain ⟨k, eq⟩ := Nat.exists_eq_add_of_le two
  rw [eq, Nat.add_comm]
  simp [sendMulticast, otherProcesses, List.range_succ_eq_map, parentId]

theorem Aimed.stops (lawful : B.Lawful) (aimed : Aimed s) :
    ∃ ts s', Run (start cfg B) s ts s' ∧ Ahead s' := by
  have first : IsChild cfg.numChildren 1 := ⟨Nat.one_pos, Nat.one_le_of_lt two⟩
  obtain ⟨d, t, acts⟩ := step_sendStop lawful (aimed.idle parentId) aimed.parent
  obtain ⟨rest, sends⟩ := sendMulticast_parent two ⟨.stop, t⟩
  rw [sends] at acts
  generalize acted : s.become parentId _ = s₁ at acts
  have pending : s₁.outbox parentId = (1, ⟨.stop, t⟩) :: rest := by
    simp [← acted, State.become, Process.goTo]
  have send : Step (start cfg B) s₁ (.send parentId 1 ⟨.stop, t⟩) _ := .send pending
  generalize sent : s₁.flush parentId 1 _ rest = s₂ at send
  have idle : s₂.outbox 1 = [] := by
    simp [← sent, ← acted, State.become, State.flush, aimed.idle, parentId]
  have pc : (s₂.loc 1).pc = .receiveAny parentId := by
    simp [← sent, ← acted, State.become, State.flush, aimed.first, parentId]
  have head : s₂.chan parentId 1 = [⟨.stop, t⟩] := by
    simp [← sent, ← acted, State.become, State.flush, aimed.empty, outTo]
  obtain ⟨d', takes⟩ := step_stop lawful idle first pc head
  refine ⟨_, _, ((Run.nil.snoc acts).snoc send).snoc takes, ?_, ?_, ⟨?_, ?_⟩, ?_⟩
  all_goals simp [← sent, ← acted, State.become, State.flush, State.pop, aimed.idle, aimed.empty,
    aimed.second, parentId, Process.goTo, Channels.pop, Channels.post]

/-- Child 1 sends its `DONE`, and child 2 takes it in its main loop. -/
theorem Ahead.loses (lawful : B.Lawful) (ahead : Ahead s) :
    ∃ ts s', Run (start cfg B) s ts s' ∧ ∃ t ∈ ts, ∃ m, t.event = .take 2 1 m ∧
      m.body.type = .done ∧ (t.before.loc 2).pc = .receiveAny 1 := by
  obtain ⟨d, t, acts⟩ := step_childSyncDone lawful ahead.idle.1
    ⟨Nat.one_pos, Nat.one_le_of_lt two⟩ ahead.first
  obtain ⟨rest, sends⟩ := sendMulticast_first two ⟨.done, t⟩
  rw [sends] at acts
  generalize acted : s.become 1 _ = s₁ at acts
  have pending : s₁.outbox 1 = (parentId, ⟨.done, t⟩) :: (2, ⟨.done, t⟩) :: rest := by
    simp [← acted, State.become, Process.goTo]
  have send : Step (start cfg B) s₁ (.send 1 parentId ⟨.done, t⟩) _ := .send pending
  generalize sent : s₁.flush 1 parentId _ _ = s₂ at send
  have pending' : s₂.outbox 1 = (2, ⟨.done, t⟩) :: rest := by simp [← sent, State.flush]
  have send' : Step (start cfg B) s₂ (.send 1 2 ⟨.done, t⟩) _ := .send pending'
  generalize sent' : s₂.flush 1 2 _ rest = s₃ at send'
  have pc : (s₃.loc 2).pc = .receiveAny 1 := by
    simp [← sent', ← sent, ← acted, State.become, State.flush, ahead.second]
  have idle : s₃.outbox 2 = [] := by
    simp [← sent', ← sent, ← acted, State.become, State.flush, ahead.idle.2]
  have head : s₃.chan 1 2 = [⟨.done, t⟩] := by
    simp [← sent', ← sent, ← acted, State.become, State.flush, ahead.empty, outTo, parentId]
  obtain ⟨onMessage, code⟩ := start_receiveAny (B := B) two two_ne_zero pc
  exact ⟨_, _, (((Run.nil.snoc acts).snoc send).snoc send').snoc (.receive idle code head), _,
    List.mem_append_right _ (List.mem_singleton_self _), _, rfl, rfl, pc⟩

/-- Whatever the transfers, there is a run that loses a `DONE`, and then everybody waits. -/
theorem exists_deadlocks (lawful : B.Lawful) (drops : B.Drops) :
    ∃ r : BankRun cfg B, Deadlocks r := by
  obtain ⟨ts₀, s₀, run₀, safe, gathered⟩ := exists_gathered lawful drops cfg
  obtain ⟨ts₁, s₁, run₁, aimed⟩ := gathered.aims two lawful drops safe
  obtain ⟨ts₂, s₂, run₂, ahead⟩ := aimed.stops two lawful
  obtain ⟨ts₃, s₃, run₃, t, mem, m, take, done, pc⟩ := ahead.loses two lawful
  have run := ((run₀.trans run₁).trans run₂).trans run₃
  obtain ⟨ts₄, s₄, run₄, still⟩ := (BankRun.terminates lawful drops ⟨_, s₃, run⟩).continues
  have mem : t ∈ ts₀ ++ ts₁ ++ ts₂ ++ ts₃ ++ ts₄ := by simp [mem]
  refine ⟨⟨_, s₄, run.trans run₄⟩, ⟨t, mem, 2, 1, m, 1, take, done, pc⟩, fun exited => ?_, still⟩
  obtain ⟨fr, pc'⟩ :=
    awaits_of_exited lawful drops ⟨_, s₄, run.trans run₄⟩ exited t mem 2 1 m take done
  cases pc.symm.trans pc'

end Two

/-! ## Every number of children -/

theorem shutsDown_iff_alone (lawful : B.Lawful) (drops : B.Drops) :
    (∀ r : BankRun cfg B, ShutsDown r) ↔ cfg.numChildren = 1 := by
  constructor
  · intro shutsDown
    by_contra more
    have pos := cfg.pos
    have two : 2 ≤ cfg.numChildren := by omega
    obtain ⟨r, deadlocks⟩ := exists_deadlocks two lawful drops
    exact deadlocks.stuck ((shutsDown r).goesOn deadlocks.running)
  · exact fun alone r =>
      (shutsDown_iff_quiet lawful drops r).mpr (quiet_of_alone lawful drops alone r.run)

/-- Every `DONE` is taken where it is awaited and nobody deadlocks, in every run, if and only if
there is one child. -/
theorem shutdown_iff_alone (cfg : BankConfig) (physical : Pa2.Physical) :
    ((∀ r : BankRun cfg Pa3.bank, ShutsDown r) ↔ cfg.numChildren = 1) ∧
      ((∀ r : BankRun cfg (Pa2.bank physical), ShutsDown r) ↔ cfg.numChildren = 1) := by
  constructor
  · exact shutsDown_iff_alone Pa3.bank_lawful Pa3.bank_drops
  · exact shutsDown_iff_alone (Pa2.bank_lawful physical) (Pa2.bank_drops physical)

end Distra.Pa23
