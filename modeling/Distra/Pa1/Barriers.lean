import Distra.Network.History
import Distra.Network.Script
import Distra.Pa1.Processes

/-!
# The barriers of `pa1`

Every child writes the same two messages to every other process. A program point says how many of
them have been written, and how many of another child's have been taken, so that the head of a
channel is always the message that its receiver waits for.
-/

namespace Distra.Pa1

open Network

abbrev BarrierView := View Nat Process MessageType

/-- A step of process `p`. -/
inductive LocalStep (n p : Nat) (st : Process) :
    Option (Nat × MessageType) → ProcessNext → Prop
  | childBroadcastStarted : p ≠ parentId → st.pc = .childBroadcastStarted →
      LocalStep n p st none (st.goTo .logStarted (sendMulticast n p .started))
  | logStarted : p ≠ parentId → st.pc = .logStarted →
      LocalStep n p st none (st.logEvent .started (.awaitAllStarted parentId))
  | started {fr q m} : st.pc = .awaitAllStarted fr → ipcReceiveAllNext n p fr = some q →
      LocalStep n p st (some (q, m))
        (st.goTo (if m = .started then .awaitAllStarted q else .panicked) [])
  | allStarted {fr} : st.pc = .awaitAllStarted fr → ipcReceiveAllNext n p fr = none →
      LocalStep n p st none
        (st.logEvent .receivedAllStarted
          (if p = parentId then .awaitAllDone parentId else .childBroadcastDone))
  | childBroadcastDone : p ≠ parentId → st.pc = .childBroadcastDone →
      LocalStep n p st none (st.goTo .logDone (sendMulticast n p .done))
  | logDone : p ≠ parentId → st.pc = .logDone →
      LocalStep n p st none (st.logEvent .done (.awaitAllDone parentId))
  | done {fr q m} : st.pc = .awaitAllDone fr → ipcReceiveAllNext n p fr = some q →
      LocalStep n p st (some (q, m))
        (st.goTo (if m = .done then .awaitAllDone q else .panicked) [])
  | allDone {fr} : st.pc = .awaitAllDone fr → ipcReceiveAllNext n p fr = none →
      LocalStep n p st none (st.logEvent .receivedAllDone .exited)
  /-- A read of an empty channel. -/
  | blocked : LocalStep n p st none (st, [])

section Inversion

variable {n p : Nat} {st : Process} {cfg : Config}

/-- What process `p` can do with a message, or without one. -/
def Can (n p : Nat) (st : Process) : Action Nat Process MessageType → Prop
  | .act next => LocalStep n p st none next
  | .receive q onMessage onEmpty =>
    (∀ m, LocalStep n p st (some (q, m)) (onMessage m)) ∧ LocalStep n p st none onEmpty
  | .poll _ _ _ => False
  | .stop => True

theorem can_receiveAll {type : MessageType} {fr : Nat} {pc : Nat → Pc} {next : ProcessNext}
    (taken : ∀ q m, ipcReceiveAllNext n p fr = some q →
      LocalStep n p st (some (q, m)) (st.goTo (if m = type then pc q else .panicked) []))
    (last : ipcReceiveAllNext n p fr = none → LocalStep n p st none next) :
    Can n p st (ipcExtReceiveAllType n p st type fr pc next) := by
  unfold ipcExtReceiveAllType
  split
  next q found => exact ⟨fun m => taken q m found, .blocked⟩
  next end_ => exact last end_

theorem can_child (child : p ≠ parentId) : Can n p st (childEntry n p st) := by
  unfold childEntry
  split
  next pc => exact .childBroadcastStarted child pc
  next pc => exact .logStarted child pc
  next fr pc =>
    refine can_receiveAll (fun _ _ found => .started pc found) (fun end_ => ?_)
    have step := LocalStep.allStarted pc end_
    rwa [if_neg child] at step
  next pc => exact .childBroadcastDone child pc
  next pc => exact .logDone child pc
  next fr pc => exact can_receiveAll (fun _ _ found => .done pc found) (.allDone pc)
  all_goals trivial

theorem can_parent : Can n parentId st (parentEntry n st) := by
  unfold parentEntry
  split
  next fr pc =>
    exact can_receiveAll (fun _ _ found => .started pc found) (.allStarted pc)
  next fr pc => exact can_receiveAll (fun _ _ found => .done pc found) (.allDone pc)
  next => trivial

theorem can_spawnChildren (p : Nat) (st : Process) :
    Can cfg.numChildren p st (spawnChildren cfg p st) := by
  unfold spawnChildren
  split_ifs with parent le
  · exact parent ▸ can_parent
  · exact can_child parent
  · trivial

theorem le_of_spawnChildren {a : Action Nat Process MessageType}
    (code : spawnChildren cfg p st = a) (running : a ≠ .stop) : p ≤ cfg.numChildren := by
  by_contra out
  have child : p ≠ parentId := fun parent => out (parent ▸ parent_le _)
  rw [spawnChildren, if_neg child, if_neg out] at code
  exact running code.symm

theorem barrier_move {v v' : BarrierView} {e : Event Nat MessageType}
    (h : Move (spawnChildren cfg) v e v') :
    e.actor ≤ cfg.numChildren ∧ v.Offers e.actor e.input ∧
      ∃ next, v' = (v.consume e.actor e.input).become e.actor next ∧
        LocalStep cfg.numChildren e.actor (v.loc e.actor) e.input next := by
  cases h with
  | @act p next code =>
    have can := code ▸ can_spawnChildren p (v.loc p)
    exact ⟨le_of_spawnChildren code (by simp), trivial, next, rfl, can⟩
  | @poll p _ _ _ _ _ _ code | @pollEmpty p _ _ _ code =>
    exact (code ▸ can_spawnChildren p (v.loc p) : Can _ _ _ (.poll _ _ _)).elim
  | @receive p q m rest onMessage onEmpty code head =>
    have can : Can _ _ _ (.receive q onMessage onEmpty) := code ▸ can_spawnChildren p (v.loc p)
    exact ⟨le_of_spawnChildren code (by simp), ⟨rest, head⟩, onMessage m, rfl, can.1 m⟩
  | @receiveEmpty p q onMessage onEmpty code =>
    have can : Can _ _ _ (.receive q onMessage onEmpty) := code ▸ can_spawnChildren p (v.loc p)
    exact ⟨le_of_spawnChildren code (by simp), trivial, onEmpty, rfl, can.2⟩

end Inversion

/-- What a child writes to every other process. -/
def barrierScript : List MessageType := [.started, .done]

/-- The number of messages that a child has written to each of the others. -/
def Pc.sent : Pc → Nat
  | .childBroadcastStarted => 0
  | .logStarted | .awaitAllStarted _ | .childBroadcastDone => 1
  | _ => 2

/-- The number of messages that a process has taken from child `a`. -/
def Pc.taken (a : Nat) : Pc → Nat
  | .awaitAllStarted fr => if a ≤ fr then 1 else 0
  | .childBroadcastDone | .logDone => 1
  | .awaitAllDone fr => if a ≤ fr then 2 else 1
  | .exited => 2
  | _ => 0

/-- The first barrier is behind the process. -/
def Pc.PassedStarted : Pc → Prop
  | .childBroadcastDone | .logDone | .awaitAllDone _ | .exited => True
  | _ => False

theorem Pc.PassedStarted.taken {pc : Pc} (passed : pc.PassedStarted) (a : Nat) :
    pc.taken a = 1 ∨ pc.taken a = 2 := by
  cases pc with
  | awaitAllDone fr =>
    rw [Pc.taken]
    split
    · exact .inr rfl
    · exact .inl rfl
  | childBroadcastDone | logDone => exact .inl rfl
  | exited => exact .inr rfl
  | _ => exact passed.elim

/-- A child that has written its `DONE` has passed the first barrier. -/
theorem Pc.passedStarted_of_sent {pc : Pc} (running : pc ≠ .panicked) (sent : 2 ≤ pc.sent) :
    pc.PassedStarted := by
  cases pc with
  | logDone | awaitAllDone | exited => trivial
  | panicked => exact (running rfl).elim
  | _ => exact absurd sent (by simp [Pc.sent])

section Counts

variable {n p : Nat} {st : Process} {input : Option (Nat × MessageType)} {next : ProcessNext}

/-- The message taken is the next one of its sender's script. -/
def Expected (st : Process) (input : Option (Nat × MessageType)) : Prop :=
  ∀ q m, input = some (q, m) → barrierScript[st.pc.taken q]? = some m

theorem expected_started {fr q : Nat} {m : MessageType} (pc : st.pc = .awaitAllStarted fr)
    (found : ipcReceiveAllNext n p fr = some q) (expected : Expected st (some (q, m))) :
    m = .started := by
  have head := expected q m rfl
  rw [pc, Pc.taken, if_neg (by have := ipcReceiveAllNext_eq_some found; omega)] at head
  exact (Option.some.inj head).symm

theorem expected_done {fr q : Nat} {m : MessageType} (pc : st.pc = .awaitAllDone fr)
    (found : ipcReceiveAllNext n p fr = some q) (expected : Expected st (some (q, m))) :
    m = .done := by
  have head := expected q m rfl
  rw [pc, Pc.taken, if_neg (by have := ipcReceiveAllNext_eq_some found; omega)] at head
  exact (Option.some.inj head).symm

/-- A step of a child sends nothing, or the next message of the script to every other process. -/
theorem LocalStep.sent (step : LocalStep n p st input next) (expected : Expected st input)
    (child : p ≠ parentId) {b : Nat} (le : b ≤ n) (ne : b ≠ p) :
    (outTo next.2 b = [] ∧ next.1.pc.sent = st.pc.sent) ∨
      ∃ m, outTo next.2 b = [m] ∧ barrierScript[st.pc.sent]? = some m ∧
        next.1.pc.sent = st.pc.sent + 1 := by
  cases step with
  | childBroadcastStarted _ pc | childBroadcastDone _ pc =>
    exact .inr ⟨_, outTo_sendMulticast le ne _, by rw [pc]; rfl, by rw [pc]; rfl⟩
  | logStarted _ pc | logDone _ pc | allDone pc => exact .inl ⟨rfl, by rw [pc]; rfl⟩
  | started pc found =>
    rw [expected_started pc found expected]
    exact .inl ⟨rfl, by rw [pc]; rfl⟩
  | allStarted pc =>
    rw [if_neg child]
    exact .inl ⟨rfl, by rw [pc]; rfl⟩
  | done pc found =>
    rw [expected_done pc found expected]
    exact .inl ⟨rfl, by rw [pc]; rfl⟩
  | blocked => exact .inl ⟨rfl, rfl⟩

/-- The loop goes from one channel to the next, and takes one message from each. -/
theorem taken_next {fr q a k : Nat} {m : MessageType} (found : ipcReceiveAllNext n p fr = some q)
    (ne : a ≠ p) :
    (if a ≤ q then k + 1 else k) = (if a ≤ fr then k + 1 else k) + (outTo [(q, m)] a).length := by
  have ahead := ipcReceiveAllNext_ahead found ne
  rcases Nat.lt_trichotomy a q with before | rfl | past
  · have visited : a ≤ fr := Nat.not_lt.mp (fun lt => Nat.not_le.mpr before (ahead.mp lt))
    have other : ¬q = a := by omega
    simp [Nat.le_of_lt before, visited, outTo_cons, other]
  · simp [Nat.not_le.mpr (ahead.mpr le_rfl), outTo_cons]
  · have later : ¬a ≤ fr := Nat.not_le.mpr (ahead.mpr past.le)
    have other : ¬q = a := by omega
    simp [Nat.not_le.mpr past, later, outTo_cons, other]

/-- A process takes what its program point says. -/
theorem LocalStep.taken (step : LocalStep n p st input next) (expected : Expected st input)
    {a : Nat} (child : IsChild n a) (ne : a ≠ p) :
    next.1.pc.taken a = st.pc.taken a + (outTo input.toList a).length := by
  have unvisited : ¬a ≤ parentId := Nat.not_le.mpr child.1
  -- when the loop ends, the channel from `a` has been visited
  have visited {fr : Nat} (end_ : ipcReceiveAllNext n p fr = none) : a ≤ fr :=
    Nat.not_lt.mp (ipcReceiveAllNext_last end_ child.2 ne)
  cases step with
  | childBroadcastStarted _ pc | childBroadcastDone _ pc =>
    rw [pc]
    rfl
  | logStarted _ pc | logDone _ pc => simp [pc, Process.logEvent, Pc.taken, unvisited]
  | started pc found =>
    rw [expected_started pc found expected, pc]
    exact taken_next found ne
  | allStarted pc end_ =>
    rw [pc, Process.logEvent, Pc.taken, if_pos (visited end_)]
    split
    · exact if_neg unvisited
    · rfl
  | done pc found =>
    rw [expected_done pc found expected, pc]
    exact taken_next found ne
  | allDone pc end_ =>
    rw [pc, Process.logEvent, Pc.taken, Pc.taken, if_pos (visited end_)]
    rfl
  | blocked => rfl

/-- The parent only waits. -/
def ParentPc (pc : Pc) : Prop :=
  (∃ fr, pc = .awaitAllStarted fr ∨ pc = .awaitAllDone fr) ∨ pc = .exited

theorem LocalStep.parent (step : LocalStep n parentId st input next) (expected : Expected st input)
    (waits : ParentPc st.pc) : ParentPc next.1.pc := by
  cases step with
  | childBroadcastStarted child | logStarted child | childBroadcastDone child | logDone child =>
    exact (child rfl).elim
  | started pc found =>
    rw [expected_started pc found expected]
    exact .inl ⟨_, .inl rfl⟩
  | allStarted pc => exact .inl ⟨_, .inr rfl⟩
  | done pc found =>
    rw [expected_done pc found expected]
    exact .inl ⟨_, .inr rfl⟩
  | allDone pc => exact .inr rfl
  | blocked => exact waits

/-- The lines about the barriers, and no panic. -/
structure Logged (st : Process) : Prop where
  running : st.pc ≠ .panicked
  receivedAllStarted : .receivedAllStarted ∈ st.log ↔ st.pc.PassedStarted
  receivedAllDone : .receivedAllDone ∈ st.log ↔ st.pc = .exited

theorem LocalStep.logged (step : LocalStep n p st input next) (expected : Expected st input)
    (logged : Logged st) : Logged next.1 := by
  obtain ⟨running, allStarted, allDone⟩ := logged
  cases step with
  | childBroadcastStarted _ pc | childBroadcastDone _ pc | logStarted _ pc | logDone _ pc
  | allDone pc =>
    rw [pc] at allStarted allDone
    constructor <;> simp_all [Process.goTo, Process.logEvent, Pc.PassedStarted]
  | started pc found =>
    rw [expected_started pc found expected]
    rw [pc] at allStarted allDone
    exact ⟨nofun, allStarted, allDone.trans ⟨nofun, nofun⟩⟩
  | allStarted pc =>
    rw [pc] at allStarted allDone
    by_cases parent : p = parentId <;> constructor <;>
      simp_all [Process.logEvent, Pc.PassedStarted]
  | done pc found =>
    rw [expected_done pc found expected]
    rw [pc] at allStarted allDone
    exact ⟨nofun, allStarted, allDone.trans ⟨nofun, nofun⟩⟩
  | blocked => exact ⟨running, allStarted, allDone⟩

/-- Nothing goes to a process outside the group, to oneself, or from the parent. -/
theorem LocalStep.outTo_nil (step : LocalStep n p st input next) {b : Nat}
    (stray : p = parentId ∨ n < b ∨ b = p) : outTo next.2 b = [] := by
  have nobody (m : MessageType) (child : p ≠ parentId) : outTo (sendMulticast n p m) b = [] := by
    rw [sendMulticast, outTo_multicast _ (otherProcesses_nodup n p), if_neg]
    rw [mem_otherProcesses]
    rcases stray with parent | out | self_
    · exact absurd parent child
    · omega
    · exact fun k => k.2 self_
  cases step with
  | childBroadcastStarted child | childBroadcastDone child => exact nobody _ child
  | _ => rfl

end Counts

/-- The traffic between two different processes, the sender being a child. -/
def Linked (n a b : Nat) : Prop := IsChild n a ∧ b ≤ n ∧ a ≠ b

structure Barrier (n : Nat) (v : BarrierView) (took : Nat → Nat → List MessageType) : Prop where
  parent : ParentPc (v.loc parentId).pc
  logged : ∀ p, Logged (v.loc p)
  script : ∀ {a b}, Linked n a b →
    Scripted barrierScript (v.loc a).pc.sent ((v.loc b).pc.taken a) (v.chan a b)
  took : ∀ {a b}, Linked n a b → took b a = barrierScript.take ((v.loc b).pc.taken a)
  quiet : ∀ {a b}, ¬Linked n a b → v.chan a b = []

variable {cfg : Config} {v v' : BarrierView} {took : Nat → Nat → List MessageType}
  {e : Event Nat MessageType}

theorem Pc.taken_initial {a : Nat} (child : a ≠ parentId) (b : Nat) :
    (initialProcess b).pc.taken a = 0 := by
  rw [initialProcess]
  split
  · exact if_neg (fun le => child (Nat.le_zero.mp le))
  · rfl

theorem Barrier.initial (n : Nat) : Barrier n initialState.view (fun _ _ => []) where
  parent := .inl ⟨parentId, .inl rfl⟩
  logged p := by
    by_cases parent : p = parentId <;>
      constructor <;> simp [initialState, initialProcess, parent, Pc.PassedStarted]
  script {a b} link := by
    have sent : (initialProcess a).pc.sent = 0 := by
      rw [initialProcess, if_neg link.1.ne_parent]
      rfl
    change Scripted barrierScript (initialProcess a).pc.sent ((initialProcess b).pc.taken a) []
    rw [sent, Pc.taken_initial link.1.ne_parent]
    exact .start _
  took {a b} link := by
    change [] = barrierScript.take ((initialProcess b).pc.taken a)
    rw [Pc.taken_initial link.1.ne_parent, List.take_zero]
  quiet _ := rfl

theorem Barrier.expected (inv : Barrier cfg.numChildren v took) {p : Nat}
    {input : Option (Nat × MessageType)} (offers : v.Offers p input) :
    Expected (v.loc p) input := by
  rintro q m rfl
  obtain ⟨rest, head⟩ := offers
  have link : Linked cfg.numChildren q p := by
    by_contra stray
    rw [inv.quiet stray] at head
    cases head
  have script := inv.script link
  rw [head] at script
  exact script.head

theorem Barrier.keep (inv : Barrier cfg.numChildren v took)
    (move : Move (spawnChildren cfg) v e v') :
    Barrier cfg.numChildren v' (fun a b => took a b ++ (e.taken a b).toList) := by
  obtain ⟨le, offers, next, rfl, step⟩ := barrier_move move
  simp only [Event.taken_eq]
  generalize e.actor = p at *
  generalize e.input = input at *
  have expected := inv.expected offers
  have loc (a : Nat) := View.consume_become_loc v p input next a
  have chan (a b : Nat) := View.consume_become_chan v p input next a b
  refine ⟨?_, fun a => ?_, fun {a b} link => ?_, fun {a b} link => ?_, fun {a b} stray => ?_⟩
  · rw [loc]
    split
    next parent =>
      subst parent
      exact step.parent expected inv.parent
    next => exact inv.parent
  · rw [loc]
    split
    next => exact step.logged expected (inv.logged p)
    next => exact inv.logged a
  · rw [loc, loc, chan]
    have script := inv.script link
    by_cases sender : a = p
    · -- the sender steps
      subst sender
      have receiver : ¬b = a := fun k => link.2.2 k.symm
      rw [if_pos rfl, if_neg receiver, if_pos rfl, View.consume_chan_ne v input receiver]
      rcases step.sent expected link.1.ne_parent link.2.1 receiver with
        ⟨silent, sent⟩ | ⟨m, emits, writes, sent⟩
      · rw [silent, sent, List.append_nil]
        exact script
      · rw [emits, sent]
        exact script.emit writes
    · rw [if_neg sender, if_neg sender, List.append_nil]
      by_cases receiver : b = p
      · -- the receiver steps
        subst receiver
        rw [if_pos rfl, step.taken expected link.1 link.2.2]
        rw [offers.chan_eq a] at script
        exact script.take.1
      · rw [if_neg receiver, View.consume_chan_ne v input receiver]
        exact script
  · rw [loc]
    by_cases receiver : b = p
    · subst receiver
      have script := inv.script link
      rw [offers.chan_eq a] at script
      rw [if_pos rfl, if_pos rfl, step.taken expected link.1 link.2.2, script.take.2, inv.took link]
    · rw [if_neg receiver, if_neg receiver, List.append_nil]
      exact inv.took link
  · rw [chan]
    have emptied : (v.consume p input).chan a b = [] := by
      by_cases receiver : b = p
      · subst receiver
        have empty := inv.quiet stray
        rw [offers.chan_eq a] at empty
        exact (List.append_eq_nil_iff.mp empty).2
      · rw [View.consume_chan_ne v input receiver]
        exact inv.quiet stray
    rw [emptied, List.nil_append]
    split
    next sender =>
      subst sender
      refine step.outTo_nil ?_
      by_contra other
      refine stray ⟨⟨?_, le⟩, ?_, fun eq => ?_⟩
      · exact Nat.pos_of_ne_zero (fun parent => other (.inl parent))
      · exact Nat.not_lt.mp (fun out => other (.inr (.inl out)))
      · exact other (.inr (.inr eq.symm))
    next => rfl

/-- What holds in every reachable state. -/
theorem barrier_of_run (r : BarrierRun cfg) :
    Barrier cfg.numChildren r.final.view (taken r.transitions) :=
  r.run.invariant_taken (.initial _) (fun _ _ _ _ inv move => inv.keep move)

section Progress

variable {s : State Nat Process MessageType} {p fr : Nat}

/-- Some process can take a step that is not a read of an empty channel. -/
def Advances (cfg : Config) (s : State Nat Process MessageType) : Prop :=
  ∃ e s', Step (spawnChildren cfg) s e s' ∧ ∀ p, e ≠ .empty p

theorem Advances.act {next : ProcessNext} (idle : s.outbox p = [])
    (code : spawnChildren cfg p (s.loc p) = .act next) : Advances cfg s :=
  ⟨_, _, .act idle code, nofun⟩

theorem Advances.child {next : ProcessNext} (child : IsChild cfg.numChildren p)
    (idle : s.outbox p = []) (code : childEntry cfg.numChildren p (s.loc p) = .act next) :
    Advances cfg s := by
  refine @Advances.act cfg s p next idle ?_
  rw [spawnChildren, if_neg child.ne_parent, if_pos child.2, code]

/-- A process in a barrier goes on, or it waits for a child from which it has taken less than that
child will write. -/
theorem Barrier.awaiting (inv : Barrier cfg.numChildren s.view took) (idle : ∀ p, s.outbox p = [])
    (le : p ≤ cfg.numChildren)
    (pc : (s.loc p).pc = .awaitAllStarted fr ∨ (s.loc p).pc = .awaitAllDone fr) :
    Advances cfg s ∨ ∃ q, IsChild cfg.numChildren q ∧ q ≠ p ∧ fr < q ∧
      (s.loc q).pc.sent ≤ (s.loc p).pc.taken q := by
  have code : (∃ q onMessage, ipcReceiveAllNext cfg.numChildren p fr = some q ∧
        spawnChildren cfg p (s.loc p) = .receive q onMessage (s.loc p, [])) ∨
      ∃ next, spawnChildren cfg p (s.loc p) = .act next := by
    have entry : ∃ type pc' next, spawnChildren cfg p (s.loc p) =
        ipcExtReceiveAllType cfg.numChildren p (s.loc p) type fr pc' next := by
      rw [spawnChildren]
      by_cases parent : p = parentId
      · rw [if_pos parent, parentEntry]
        rcases pc with pc | pc <;> rw [pc, parent] <;> exact ⟨_, _, _, rfl⟩
      · rw [if_neg parent, if_pos le, childEntry]
        rcases pc with pc | pc <;> rw [pc] <;> exact ⟨_, _, _, rfl⟩
    obtain ⟨type, pc', next, entry⟩ := entry
    rw [entry, ipcExtReceiveAllType]
    cases found : ipcReceiveAllNext cfg.numChildren p fr with
    | some q => exact .inl ⟨q, _, rfl, rfl⟩
    | none => exact .inr ⟨next, rfl⟩
  rcases code with ⟨q, onMessage, found, code⟩ | ⟨next, code⟩
  · obtain ⟨lt, leq, ne, -⟩ := ipcReceiveAllNext_eq_some found
    have link : Linked cfg.numChildren q p := ⟨⟨Nat.zero_lt_of_lt lt, leq⟩, le, ne⟩
    rcases Nat.lt_or_ge ((s.loc p).pc.taken q) (s.loc q).pc.sent with waits | short
    · obtain ⟨m, rest, head⟩ := (inv.script link).exists_head waits
      rw [State.view_chan, State.transit_of_idle (idle q)] at head
      exact .inl ⟨_, _, .receive (idle p) code head, nofun⟩
    · exact .inr ⟨q, link.1, ne, lt, short⟩
  · exact .inl (.act (idle p) code)

/-- The process `p` collects the `STARTED` messages. -/
theorem Barrier.awaitAllStarted (inv : Barrier cfg.numChildren s.view took)
    (idle : ∀ p, s.outbox p = []) (le : p ≤ cfg.numChildren)
    (pc : (s.loc p).pc = .awaitAllStarted fr) : Advances cfg s := by
  rcases inv.awaiting idle le (.inl pc) with advances | ⟨q, child, -, unvisited, short⟩
  · exact advances
  · -- `q` has not written its `STARTED` yet
    rw [pc, Pc.taken, if_neg (Nat.not_le.mpr unvisited)] at short
    cases pcq : (s.loc q).pc <;> rw [pcq] at short
    case childBroadcastStarted =>
      exact .child child (idle q) (by rw [childEntry, pcq])
    all_goals exact absurd short (by simp [Pc.sent])

theorem Barrier.awaitAllDone (inv : Barrier cfg.numChildren s.view took)
    (idle : ∀ p, s.outbox p = []) (le : p ≤ cfg.numChildren)
    (pc : (s.loc p).pc = .awaitAllDone fr) : Advances cfg s := by
  rcases inv.awaiting idle le (.inr pc) with advances | ⟨q, child, -, unvisited, short⟩
  · exact advances
  · -- `q` has not written its `DONE` yet
    rw [pc, Pc.taken, if_neg (Nat.not_le.mpr unvisited)] at short
    cases pcq : (s.loc q).pc with
    | childBroadcastStarted | logStarted | childBroadcastDone =>
      exact .child child (idle q) (by rw [childEntry, pcq])
    | awaitAllStarted fr' => exact inv.awaitAllStarted idle child.2 pcq
    | _ =>
      rw [pcq] at short
      exact absurd short (by simp [Pc.sent])

/-- Not all have finished: somebody goes on. -/
theorem Barrier.advances (inv : Barrier cfg.numChildren s.view took) (le : p ≤ cfg.numChildren)
    (unfinished : (s.loc p).pc ≠ .exited) : Advances cfg s := by
  by_cases buffered : ∃ q, s.outbox q ≠ []
  · obtain ⟨q, pending⟩ := buffered
    obtain ⟨⟨dst, m⟩, rest, eq⟩ := List.exists_cons_of_ne_nil pending
    exact ⟨_, _, .send eq, nofun⟩
  · have idle (q : Nat) : s.outbox q = [] := by
      by_contra pending
      exact buffered ⟨q, pending⟩
    have running := (inv.logged p).running
    rw [State.view_loc] at running
    have child (ne : ¬ParentPc (s.loc p).pc) : IsChild cfg.numChildren p := by
      refine ⟨Nat.pos_of_ne_zero (fun parent => ne ?_), le⟩
      subst parent
      exact inv.parent
    cases pc : (s.loc p).pc with
    | childBroadcastStarted | logStarted | childBroadcastDone | logDone =>
      refine .child (child ?_) (idle p) (by rw [childEntry, pc])
      simp [pc, ParentPc]
    | awaitAllStarted fr => exact inv.awaitAllStarted idle le pc
    | awaitAllDone fr => exact inv.awaitAllDone idle le pc
    | exited => exact absurd pc unfinished
    | panicked => exact absurd pc running

end Progress

/-- The barriers of `child_entry` and `spawn_children`, in every reachable state. A process logs
that it has received all `STARTED`, and all `DONE`, after every other child has written its own to
it, and for `DONE` after every other child has passed the first barrier; nobody panics; somebody
can go on until all have finished; and nothing is left in a channel then. -/
theorem barriers_of_run (cfg : Config) (r : BarrierRun cfg) :
    (∀ p ≤ cfg.numChildren, ∀ q, IsChild cfg.numChildren q → q ≠ p →
      (.receivedAllStarted ∈ (r.final.loc p).log → .started ∈ written r.transitions q p) ∧
      (.receivedAllDone ∈ (r.final.loc p).log →
        .done ∈ written r.transitions q p ∧ .receivedAllStarted ∈ (r.final.loc q).log)) ∧
    (∀ p, (r.final.loc p).pc ≠ .panicked) ∧
    ((∀ p ≤ cfg.numChildren, (r.final.loc p).pc = .exited) ∨ Advances cfg r.final) ∧
    ((∀ p ≤ cfg.numChildren, (r.final.loc p).pc = .exited) →
      ∀ a b, r.final.chan a b = []) := by
  have inv := barrier_of_run r
  have logged (p : Nat) : Logged (r.final.loc p) := inv.logged p
  have written_of_taken {p q : Nat} {m : MessageType} (link : Linked cfg.numChildren q p)
      (took : m ∈ barrierScript.take ((r.final.loc p).pc.taken q)) :
      m ∈ written r.transitions q p := by
    rw [r.run.fifo rfl, inv.took link]
    exact List.mem_append_left _ took
  refine ⟨fun p le q child ne => ?_, fun p => (logged p).running, ?_, fun finished a b => ?_⟩
  · have link : Linked cfg.numChildren q p := ⟨child, le, ne⟩
    refine ⟨fun log => written_of_taken link ?_, fun log => ⟨written_of_taken link ?_, ?_⟩⟩
    · rcases ((logged p).receivedAllStarted.mp log).taken q with one | two
      · simp [one, barrierScript]
      · simp [two, barrierScript]
    · rw [(logged p).receivedAllDone.mp log]
      simp [barrierScript, Pc.taken]
    · have wrote : (r.final.loc p).pc.taken q ≤ (r.final.loc q).pc.sent := (inv.script link).le
      rw [(logged p).receivedAllDone.mp log] at wrote
      exact (logged q).receivedAllStarted.mpr (Pc.passedStarted_of_sent (logged q).running wrote)
  · by_cases finished : ∀ p ≤ cfg.numChildren, (r.final.loc p).pc = .exited
    · exact .inl finished
    · push Not at finished
      obtain ⟨p, le, unfinished⟩ := finished
      exact .inr (inv.advances le unfinished)
  · by_cases link : Linked cfg.numChildren a b
    · have all : (r.final.loc a).pc.sent ≤ (r.final.loc b).pc.taken a := by
        rw [finished a link.1.2, finished b link.2.1]
        exact Nat.le_refl 2
      exact (List.append_eq_nil_iff.mp ((inv.script link).eq_nil all)).1
    · exact (List.append_eq_nil_iff.mp (inv.quiet link)).1

end Distra.Pa1
