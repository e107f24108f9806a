import Distra.Network.Termination
import Distra.Pa23.Restored

/-!
# Bounded runs

A process goes through its code once and sends so many messages, and every transfer takes three. So
all but so many steps of a run look at an empty channel, whether or not a `DONE` is lost.
-/

namespace Distra.Pa23

open Network

variable {δ : Type} {cfg : BankConfig} {B : BankCode δ}

/-- A step that finds nothing to read. -/
def Polling (t : Transition Nat (Process δ) BankMessage) : Prop := ∃ p, t.event = .empty p

/-- The transfers that the parent has not finished, `total` being all of them. -/
def Pc.unfinished (total : Nat) : Pc → Nat
  | .awaitAllStarted _ => total
  | .bankRobbery orders => orders.length
  | .awaitAck _ orders => orders.length + 1
  | _ => 0

/-- How far a process at this point has come. -/
def Pc.rank (total : Nat) : Pc → Nat
  | .childSyncStarted => 0
  | .awaitAllStarted _ => 1
  | .receiveAny _ => 2
  | .childSyncDone => 3
  | .bankRobbery orders => 2 + 2 * (total - orders.length)
  | .awaitAck _ orders => 3 + 2 * (total - (orders.length + 1))
  | .awaitAllDone _ => 4 + 2 * total
  | .receiveHistories _ => 5 + 2 * total
  | .exited | .panicked | .aborted => 6 + 2 * total

theorem Pc.rank_le (total : Nat) (pc : Pc) : pc.rank total ≤ 6 + 2 * total := by
  cases pc <;> simp only [Pc.rank] <;> omega

section Rank

variable {p total : Nat} {st : Process δ} {input : Option (Nat × BankMessage)}
  {next : ProcessNext δ}

/-- A process does not go back. -/
theorem Stepped.rank_le (step : Stepped cfg B p st input next)
    (few : p = parentId → st.pc.unfinished total ≤ total) :
    st.pc.rank total ≤ next.1.pc.rank total := by
  rcases step with step | ⟨-, -, -, failed⟩
  · cases step with
    | ack parent pc =>
      have some_ := few parent
      rw [pc, Pc.unfinished] at some_
      simp only [pc, Process.goTo_pc, Pc.rank]
      omega
    | blocked => exact le_rfl
    | transfer parent pc =>
      have some_ := few parent
      rw [pc, Pc.unfinished, List.length_cons] at some_
      simp only [pc, Process.goTo_pc, Pc.rank, List.length_cons]
      omega
    | childSyncStarted _ pc | started pc | childStarted _ pc | parentStarted _ pc | goesOn _ pc
    | breaks _ pc | looked _ pc | childSyncDone _ pc | done pc | childDone _ pc | parentDone _ pc
    | sendStop _ pc | history _ pc | printHistory _ pc =>
      simp only [pc, Process.goTo_pc, Pc.rank]
      omega
  · rcases failed.pc with pc | pc <;> rw [pc] <;> exact Pc.rank_le total _

theorem ipcExtReceiveAll_act {n : Nat} {type : MessageType} {fr : Nat} {pc : Nat → Pc}
    {callback : Nat → BankMessage → Process δ → Option (Process δ)} {next' : ProcessNext δ}
    (code : ipcExtReceiveAll n B p st type fr pc callback next' = .act next) : next' = next := by
  unfold ipcExtReceiveAll at code
  split at code
  · cases code
  · exact Action.act.inj code

/-- A step of its own takes a process on. -/
theorem rank_lt_of_act (code : start cfg B p st = .act next)
    (few : p = parentId → st.pc.unfinished cfg.orders.length ≤ cfg.orders.length) :
    st.pc.rank cfg.orders.length < next.1.pc.rank cfg.orders.length := by
  unfold start at code
  split at code
  next parent =>
    unfold parentEntry at code
    split at code
    next pc =>
      rw [← ipcExtReceiveAll_act code, pc]
      simp [Pc.rank]
    next pc =>
      cases code
      have some_ := few parent
      rw [pc, Pc.unfinished, List.length_cons] at some_
      simp only [pc, Process.goTo_pc, Pc.rank, List.length_cons]
      omega
    next pc =>
      cases code
      simp only [pc, Process.goTo_pc, Pc.rank, List.length_nil]
      omega
    next => cases code
    next pc =>
      rw [← ipcExtReceiveAll_act code, pc]
      simp only [Pc.rank]
      omega
    next pc =>
      rw [← ipcExtReceiveAll_act code, pc]
      simp only [Pc.rank]
      omega
    next => cases code
  next =>
    split at code
    · unfold childEntry at code
      split at code
      next pc =>
        cases code
        simp [pc, Pc.rank]
      next pc =>
        rw [← ipcExtReceiveAll_act code, pc]
        simp [Pc.rank]
      next => cases code
      next pc =>
        cases code
        simp only [pc, Process.goTo_pc, Pc.rank]
        omega
      next pc =>
        rw [← ipcExtReceiveAll_act code, pc]
        simp only [Process.goTo_pc, Pc.rank]
        omega
      next => cases code
    · cases code

end Rank

/-! ## What is sent -/

/-- How many messages of its transfer have been sent. -/
def Flight.stage : Flight → Nat
  | .none => 0
  | .toSrc _ => 1
  | .toDst _ => 2
  | .ack _ => 3

/-- The channels between the parent and its children. -/
def allChannels (n : Nat) : Finset (Nat × Nat) := Finset.range (n + 1) ×ˢ Finset.range (n + 1)

theorem mem_allChannels {n a b : Nat} : (a, b) ∈ allChannels n ↔ a ≤ n ∧ b ≤ n := by
  rw [allChannels, Finset.mem_product, Finset.mem_range, Finset.mem_range, Nat.lt_succ_iff,
    Nat.lt_succ_iff]

abbrev BankTraffic (δ : Type) := Traffic Nat (Process δ) BankMessage

/-- What has been sent goes to other processes, and the program points tell how much it is. -/
structure Metered (cfg : BankConfig) (v : BankView δ) (t : BankTraffic δ) (flight : Flight) :
    Prop where
  within : ∀ a b, t.sent a b ≠ [] → (a ≤ cfg.numChildren ∧ b ≤ cfg.numChildren) ∧ a ≠ b
  few : (v.loc parentId).pc.unfinished cfg.orders.length ≤ cfg.orders.length
  sent : ∑ c ∈ allChannels cfg.numChildren, (t.sent c.1 c.2).length +
      3 * (v.loc parentId).pc.unfinished cfg.orders.length ≤
    ∑ p ∈ Finset.range (cfg.numChildren + 1), cfg.numChildren * (v.loc p).pc.sent p +
      3 * cfg.orders.length + flight.stage

section Metered

variable {v w : BankView δ} {t : BankTraffic δ} {flight flight' : Flight} {p : Nat}
  {input : Option (Nat × BankMessage)} {next : ProcessNext δ}

theorem Metered.step (h : Metered cfg v t flight) (le : p ≤ cfg.numChildren)
    (sends : ∀ x ∈ next.2, x.1 ≤ cfg.numChildren ∧ x.1 ≠ p)
    (few : p = parentId → next.1.pc.unfinished cfg.orders.length ≤ cfg.orders.length)
    (child : p ≠ parentId → next.2.length + cfg.numChildren * (v.loc p).pc.sent p + flight.stage ≤
      cfg.numChildren * next.1.pc.sent p + flight'.stage)
    (parent : p = parentId → next.2.length + cfg.numChildren * (v.loc p).pc.sent p +
        3 * next.1.pc.unfinished cfg.orders.length + flight.stage ≤
      cfg.numChildren * next.1.pc.sent p + 3 * (v.loc p).pc.unfinished cfg.orders.length +
        flight'.stage) :
    Metered cfg ((v.consume p input).become p next) (t.step p input next) flight' := by
  have channels : ∀ x ∈ next.2, (p, x.1) ∈ allChannels cfg.numChildren :=
    fun x mem => mem_allChannels.mpr ⟨le, (sends x mem).1⟩
  constructor
  · intro a b some_
    by_cases actor : a = p
    · by_cases before : t.sent a b = []
      · have new : outTo next.2 b ≠ [] := by
          rintro none_
          simp [Traffic.step, before, none_] at some_
        obtain ⟨m, mem⟩ := List.exists_mem_of_ne_nil _ new
        obtain ⟨receiver, ne⟩ := sends _ (mem_outTo.mp mem)
        exact ⟨⟨actor ▸ le, receiver⟩, actor ▸ ne.symm⟩
      · exact h.within a b before
    · simp only [Traffic.step, if_neg actor, List.append_nil] at some_
      exact h.within a b some_
  · rw [View.consume_become_loc]
    split
    next parent => exact few parent.symm
    next => exact h.few
  · have before := h.sent
    have sum := sum_rank_become (Finset.range (cfg.numChildren + 1))
      (fun a (st : Process δ) => cfg.numChildren * st.pc.sent a) v input next
      (Finset.mem_range.mpr (Nat.lt_succ_of_le le))
    rw [sum_sent_step t input channels]
    rw [View.consume_become_loc]
    by_cases isParent : p = parentId
    · subst isParent
      have grows := parent rfl
      rw [if_pos rfl]
      omega
    · have grows := child isParent
      rw [if_neg (Ne.symm isParent)]
      omega

/-- A step that sends nothing. -/
theorem Metered.silent (h : Metered cfg v t flight) (le : p ≤ cfg.numChildren)
    (silent : next.2 = []) (sent : next.1.pc.sent p = (v.loc p).pc.sent p)
    (few : p = parentId →
      next.1.pc.unfinished cfg.orders.length = (v.loc p).pc.unfinished cfg.orders.length) :
    Metered cfg ((v.consume p input).become p next) (t.step p input next) flight := by
  apply h.step le
  · rw [silent]
    nofun
  · rintro rfl
    rw [few rfl]
    exact h.few
  · intro _
    rw [silent, sent, List.length_nil, Nat.zero_add]
  · intro parent
    rw [silent, sent, few parent, List.length_nil, Nat.zero_add]

/-- A multicast, by which its sender comes to its next message. -/
theorem Metered.multicast (h : Metered cfg v t flight) (le : p ≤ cfg.numChildren) {m : BankMessage}
    (sends : next.2 = sendMulticast cfg.numChildren p m)
    (sent : next.1.pc.sent p = (v.loc p).pc.sent p + 1)
    (few : p = parentId →
      next.1.pc.unfinished cfg.orders.length = (v.loc p).pc.unfinished cfg.orders.length) :
    Metered cfg ((v.consume p input).become p next) (t.step p input next) flight := by
  have length : next.2.length = cfg.numChildren := by
    rw [sends, sendMulticast, List.length_map, length_otherProcesses le]
  apply h.step le
  · intro x mem
    rw [sends] at mem
    obtain ⟨a, other, rfl⟩ := List.mem_map.mp mem
    exact mem_otherProcesses.mp other
  · rintro rfl
    rw [few rfl]
    exact h.few
  · intro _
    rw [length, sent, Nat.mul_succ]
    omega
  · intro parent
    rw [length, sent, few parent, Nat.mul_succ]
    omega

/-- The next message of a transfer. -/
theorem Metered.relay (h : Metered cfg v t flight) (le : p ≤ cfg.numChildren) {q : Nat}
    {m : BankMessage} (sends : next.2 = [(q, m)]) (dst : q ≤ cfg.numChildren) (ne : q ≠ p)
    (sent : next.1.pc.sent p = (v.loc p).pc.sent p)
    (few : p = parentId →
      next.1.pc.unfinished cfg.orders.length = (v.loc p).pc.unfinished cfg.orders.length)
    (stage : flight'.stage = flight.stage + 1) :
    Metered cfg ((v.consume p input).become p next) (t.step p input next) flight' := by
  apply h.step le
  · intro x mem
    rw [sends] at mem
    rw [List.mem_singleton.mp mem]
    exact ⟨dst, ne⟩
  · rintro rfl
    rw [few rfl]
    exact h.few
  · intro _
    rw [sends, sent, stage, List.length_singleton]
    omega
  · intro parent
    rw [sends, sent, few parent, stage, List.length_singleton]
    omega

theorem Metered.shaped (lawful : B.Lawful) (h : Metered cfg v t flight) (shape : Shape cfg w flight)
    (loc : w.loc = v.loc) (le : p ≤ cfg.numChildren)
    (step : Shaped cfg B p (v.loc p) flight input next flight') :
    Metered cfg ((v.consume p input).become p next) (t.step p input next) flight' := by
  cases step with
  | childSyncStarted child pc =>
    obtain ⟨_, sends⟩ := lawful.childSyncStarted cfg.numChildren p (v.loc p).data
    exact h.multicast le sends (by simp [pc, Pc.sent, child]) fun parent => absurd parent child
  | started pc =>
    exact h.silent le rfl (by simp [pc, Pc.sent]) fun _ => by simp [pc, Pc.unfinished]
  | childStarted child pc =>
    exact h.silent le rfl (by simp [pc, Pc.sent, child]) fun parent => absurd parent child
  | parentStarted parent pc =>
    exact h.silent le rfl (by rw [pc]; simp [Pc.sent, parent]) fun _ => by simp [pc, Pc.unfinished]
  | @depart order orders parent pc =>
    obtain ⟨_, sends⟩ := lawful.transfer (v.loc p).data order
    have role := shape.role parentId (parent_le _)
    rw [loc, ← parent, pc] at role
    have valid := role.2 order List.mem_cons_self
    exact h.relay le sends valid.1.1.2 (parent ▸ valid.1.1.ne_parent) (by simp [pc, Pc.sent])
      (fun _ => by simp [pc, Pc.unfinished]) rfl
  | @forward order time src pc =>
    obtain ⟨_, _, loops⟩ := lawful.transferOut p (v.loc p).data order time src.symm
    obtain ⟨⟨child, dst⟩, distinct⟩ := shape.valid_flight (.inl rfl)
    have child : p ≠ parentId := src ▸ child.ne_parent
    have sends := congrArg (·.2.2) loops
    exact h.relay le sends dst.2 (src ▸ distinct.symm) (by simp [pc, Pc.sent])
      (fun parent => absurd parent child) rfl
  | @deliver order time dst distinct pc =>
    obtain ⟨_, _, loops⟩ := lawful.transferIn p (v.loc p).data order time distinct dst.symm
    obtain ⟨⟨-, child⟩, -⟩ := shape.valid_flight (.inr (.inl rfl))
    have child : p ≠ parentId := dst ▸ child.ne_parent
    have sends := congrArg (·.2.2) loops
    exact h.relay le sends (parent_le _) child.symm (by simp [pc, Pc.sent])
      (fun parent => absurd parent child) rfl
  | ack parent pc =>
    have few := h.few
    rw [← parent, pc, Pc.unfinished] at few
    refine h.step le (by simp) (fun _ => ?_) (fun child => absurd parent child) fun _ => ?_
    · simp only [Process.goTo_pc, Pc.unfinished]
      omega
    · simp only [pc, Process.goTo_pc, Process.goTo_sends, Pc.unfinished, Pc.sent, List.length_nil,
        Flight.stage]
      omega
  | sendStop parent pc =>
    obtain ⟨_, sends⟩ := lawful.sendStop cfg.numChildren (v.loc p).data
    rw [← parent] at sends
    exact h.multicast le sends (by rw [pc]; simp [Pc.sent, parent])
      fun _ => by simp [pc, Pc.unfinished]
  | looked child pc =>
    exact h.silent le rfl (by simp [pc, Pc.sent]) fun parent => absurd parent child
  | @stop time child pc =>
    obtain ⟨_, loops⟩ := lawful.stop p (v.loc p).data time
    refine h.silent le ?_ (by simp [pc, Pc.sent]) fun parent => absurd parent child
    rw [Process.goTo_sends, loops]
  | childSyncDone child pc =>
    obtain ⟨_, sends⟩ := lawful.childSyncDone cfg.numChildren p (v.loc p).data
    exact h.multicast le sends (by simp [pc, Pc.sent, child]) fun parent => absurd parent child
  | done pc => exact h.silent le rfl (by simp [pc, Pc.sent]) fun _ => by simp [pc, Pc.unfinished]
  | childDone child pc =>
    obtain ⟨_, _, sends⟩ := lawful.sendHistory (v.loc p).data
    refine h.step le ?_ (fun parent => absurd parent child) (fun _ => ?_)
      fun parent => absurd parent child
    · intro x mem
      rw [Process.goTo_sends, sends] at mem
      rw [List.mem_singleton.mp mem]
      exact ⟨parent_le _, child.symm⟩
    · have pos := cfg.pos
      simp only [pc, Process.goTo_pc, Process.goTo_sends, sends, Pc.sent, if_neg child,
        List.length_singleton]
      omega
  | parentDone parent pc =>
    exact h.silent le rfl (by rw [pc]; simp [Pc.sent, parent]) fun _ => by simp [pc, Pc.unfinished]
  | history parent pc =>
    exact h.silent le rfl (by simp [pc, Pc.sent]) fun _ => by simp [pc, Pc.unfinished]
  | printHistory parent pc =>
    exact h.silent le rfl (by rw [pc]; simp [Pc.sent, parent]) fun _ => by simp [pc, Pc.unfinished]
  | blocked => exact h.silent le rfl rfl fun _ => rfl

theorem Metered.followed (lawful : B.Lawful) (drops : B.Drops) (h : Metered cfg v t flight)
    (shape : Shape cfg w flight) (loc : w.loc = v.loc) (le : p ≤ cfg.numChildren)
    (step : Followed cfg B p (v.loc p) flight input next flight') :
    Metered cfg ((v.consume p input).become p next) (t.step p input next) flight' := by
  cases step with
  | shaped step => exact h.shaped lawful shape loc le step
  | @dropped fr time child _ pc =>
    obtain ⟨_, loops⟩ := drops p (v.loc p).data time
    refine h.silent le ?_ (by simp [pc, Pc.sent]) fun parent => absurd parent child
    rw [Process.goTo_sends, loops]

theorem Metered.initial (cfg : BankConfig) (B : BankCode δ) :
    Metered cfg (initialState cfg B).view .none .none := by
  have parent : ((initialState cfg B).view.loc parentId).pc = .awaitAllStarted parentId := rfl
  constructor
  · exact fun _ _ some_ => absurd rfl some_
  · rw [parent]
    exact le_rfl
  · rw [parent]
    simp [Traffic.none, Pc.unfinished, Flight.stage]

end Metered

/-! ## Every run -/

/-- The invariant rule for all runs and what has been sent in them. -/
theorem BankRun.metered (lawful : B.Lawful) (drops : B.Drops) (r : BankRun cfg B) :
    ∃ w flight, Restored cfg r.final.view w ∧ Shape cfg w flight ∧
      Metered cfg r.final.view (traffic r.transitions r.final) flight := by
  obtain ⟨ts, s, run⟩ := r
  induction run with
  | nil => exact ⟨_, _, ⟨rfl, fun _ _ => .inl rfl⟩, shape_initial, .initial cfg B⟩
  | @snoc ts s e s' _ step ih =>
    obtain ⟨w, flight, restored, shape, metered⟩ := ih
    rcases step.traffic ts with ⟨same, sent⟩ | ⟨move, sent⟩
    · dsimp only
      rw [same, sent]
      exact ⟨w, flight, restored, shape, metered⟩
    · obtain ⟨le, ready, next, after, step⟩ := bank_move move
      obtain ⟨w', flight', followed, restored', shape'⟩ :=
        restored.step lawful drops shape le ready step
      dsimp only
      rw [sent next after, after]
      exact ⟨w', flight', restored', shape',
        metered.followed lawful drops shape restored.loc le followed⟩

/-- The steps other than looks at empty channels, at most. -/
def bankStepLimit (n transfers : Nat) : Nat :=
  (n + 1) * (6 + 2 * transfers) + 2 * (n * (3 * n + 1) + 3 * transfers)

def ranks (total n : Nat) (s : BankState δ) : Nat :=
  ∑ p ∈ Finset.range (n + 1), (s.loc p).pc.rank total

section Measure

variable (lawful : B.Lawful) (drops : B.Drops)
include lawful drops

/-- A message in transit is between two different processes. -/
theorem BankRun.within (r : BankRun cfg B) {a b : Nat} (some_ : r.final.transit a b ≠ []) :
    (a ≤ cfg.numChildren ∧ b ≤ cfg.numChildren) ∧ a ≠ b := by
  obtain ⟨_, _, -, -, meters⟩ := r.metered lawful drops
  refine meters.within a b fun none_ => some_ ?_
  have sent := r.run.sent_eq (a := a) (b := b) rfl
  rw [none_] at sent
  exact (List.append_eq_nil_iff.mp sent.symm).2

theorem bank_climbs : Climbs (start cfg B) (initialState cfg B) Polling fun ts s =>
    ranks cfg.orders.length cfg.numChildren s + volume (allChannels cfg.numChildren) ts := by
  refine @Climbs.of_ranked _ _ _ _ _ _ (allChannels cfg.numChildren) _
    (fun _ s => ranks cfg.orders.length cfg.numChildren s) fun {ts s e s'} run step => ?_
  obtain ⟨_, _, -, -, meters⟩ := BankRun.metered lawful drops ⟨ts, s, run⟩
  have sends : ∀ p q m, e = .send p q m → (p, q) ∈ allChannels cfg.numChildren := by
    rintro p q m rfl
    refine mem_allChannels.mpr (BankRun.within lawful drops ⟨ts, s, run⟩ fun none_ => ?_).1
    have inTransit := step.send_transit
    rw [none_] at inTransit
    cases inTransit
  have takes : ∀ p q m, e = .take p q m → (q, p) ∈ allChannels cfg.numChildren := by
    rintro p q m rfl
    refine mem_allChannels.mpr (BankRun.within lawful drops ⟨ts, s, run⟩ fun none_ => ?_).1
    have empty : s.chan q p = [] := (List.append_eq_nil_iff.mp none_).1
    have mem : m ∈ s.chan q p := (step.input_mem rfl).2
    rw [empty] at mem
    cases mem
  rcases step.view with ⟨same, p, q, m, rfl⟩ | move
  · have loc : s'.loc = s.loc := congrArg View.loc same
    refine ⟨sends, takes, ?_, fun nothing => absurd rfl (nothing p q m)⟩
    rw [ranks, ranks, loc]
  · obtain ⟨le, -, next, after, stepped⟩ := bank_move move
    have few : e.actor = parentId →
        (s.loc e.actor).pc.unfinished cfg.orders.length ≤ cfg.orders.length := by
      intro parent
      rw [parent]
      exact meters.few
    have sum : ranks cfg.orders.length cfg.numChildren s' +
          (s.loc e.actor).pc.rank cfg.orders.length =
        ranks cfg.orders.length cfg.numChildren s + next.1.pc.rank cfg.orders.length := by
      have become := sum_rank_become (Finset.range (cfg.numChildren + 1))
        (fun _ (st : Process δ) => st.pc.rank cfg.orders.length) s.view e.input next
        (Finset.mem_range.mpr (Nat.lt_succ_of_le le))
      rw [← after] at become
      exact become
    have keeps := stepped.rank_le few
    rw [State.view_loc] at keeps
    refine ⟨sends, takes, by omega, fun _ silent busy => ?_⟩
    cases step with
    | send => cases move
    | @act p next' idle code =>
      have raises := rank_lt_of_act code few
      have own : (s.become p next').loc p = next'.1 := by simp [State.become]
      have own' : (s.become p next').loc p = next.1 := by
        have := congrArg (fun v => v.loc p) after
        simpa [View.become, View.consume, Event.input, Event.actor] using this
      rw [own] at own'
      rw [own'] at raises
      dsimp only [Event.actor] at sum
      omega
    | pollEmpty | receiveEmpty => exact absurd ⟨_, rfl⟩ busy
    | poll | receive => cases silent

omit lawful drops in
theorem Pc.sent_le (p : Nat) (pc : Pc) : pc.sent p ≤ if p = parentId then 1 else 3 := by
  cases pc <;> simp only [Pc.sent] <;> split <;> omega

omit lawful drops in
/-- A message of a transfer is under way only while it is unfinished. -/
theorem Flight.Of.stage_le {flight : Flight} {pc : Pc} (h : flight.Of pc) (total : Nat) :
    flight.stage ≤ 3 * pc.unfinished total := by
  cases pc with
  | awaitAck order orders =>
    rcases h with rfl | rfl | rfl <;> simp only [Flight.stage, Pc.unfinished] <;> omega
  | _ =>
    obtain rfl : flight = .none := h
    exact Nat.zero_le _

theorem BankRun.sent_le (r : BankRun cfg B) :
    ∑ c ∈ allChannels cfg.numChildren,
        ((traffic r.transitions r.final).sent c.1 c.2).length ≤
      cfg.numChildren * (3 * cfg.numChildren + 1) + 3 * cfg.orders.length := by
  obtain ⟨w, flight, restored, shape, meters⟩ := r.metered lawful drops
  have under := shape.under.stage_le cfg.orders.length
  rw [restored.loc] at under
  have sent := meters.sent
  have scripts : ∑ p ∈ Finset.range (cfg.numChildren + 1),
      cfg.numChildren * (r.final.view.loc p).pc.sent p ≤
        cfg.numChildren * (3 * cfg.numChildren + 1) := by
    rw [← Finset.mul_sum]
    refine Nat.mul_le_mul_left _ ((Finset.sum_le_sum fun p _ => Pc.sent_le p _).trans ?_)
    rw [Finset.sum_range_succ']
    simp [parentId, Nat.mul_comm]
  omega

theorem bank_measure_le {ts : List (Transition Nat (Process δ) BankMessage)} {s : BankState δ}
    (run : Run (start cfg B) (initialState cfg B) ts s) :
    ranks cfg.orders.length cfg.numChildren s + volume (allChannels cfg.numChildren) ts ≤
      bankStepLimit cfg.numChildren cfg.orders.length := by
  have ranked : ranks cfg.orders.length cfg.numChildren s ≤
      (cfg.numChildren + 1) * (6 + 2 * cfg.orders.length) := by
    refine (Finset.sum_le_card_nsmul _ _ _ fun p _ => Pc.rank_le _ _).trans ?_
    rw [Finset.card_range]
    exact le_rfl
  have sent := volume_le_sent (C := allChannels cfg.numChildren) run fun _ _ => rfl
  rw [← Finset.mul_sum] at sent
  exact Nat.add_le_add ranked
    (sent.trans (Nat.mul_le_mul_left 2 (BankRun.sent_le lawful drops ⟨ts, s, run⟩)))

end Measure

end Distra.Pa23
