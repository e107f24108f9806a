import Distra.Network.Causality
import Distra.Pa3.Determinism

/-!
# The clock condition

The Lamport clocks of `pa3` respect happens-before: every receive synchronizes, and every send
comes after an `advance_lamport_time`, with the new time in `s_local_time`.
-/

namespace Distra.Pa3

open Network Pa23

variable {cfg : BankConfig}

/-! ## The clock right after a send or a receive -/

/-- The variables of a process right after it has synchronized its clock with a message. -/
def received (st : Process Locals) (m : BankMessage) : Locals :=
  match st.pc with
  | .receiveAny _ => childReceived st.data m
  | .awaitAck _ _ => transferReceived st.data m
  | _ => ipcExtReceive st.data m

def lamportClocks : Clocks (Process Locals) BankMessage where
  clock := fun st => st.data.lamportTime
  stamp := fun m => m.localTime
  received := fun st m => (received st m).lamportTime

theorem received_lamportTime (st : Process Locals) (m : BankMessage) :
    (received st m).lamportTime = synchronizeTime m.localTime st.data.lamportTime := by
  rw [received]
  split <;> rfl

/-- A receive is later than the clock before it and than the time stamp of the message. -/
theorem lt_received (st : Process Locals) (m : BankMessage) :
    lamportClocks.clock st < lamportClocks.received st m ∧
      lamportClocks.stamp m < lamportClocks.received st m := by
  change _ < (received st m).lamportTime ∧ _ < (received st m).lamportTime
  rw [received_lamportTime]
  exact ⟨lt_synchronizeTime _ _, received_lt_synchronizeTime _ _⟩

/-! ## Steps -/

section Ticks

variable {st : Process Locals} {input : Option (Nat × BankMessage)} {next : ProcessNext Locals}
  {pc : Pc} {run : Locals × BankSends} {p fr : Nat} {m : BankMessage}

/-- A receive that sends nothing. -/
theorem ticks_received
    (clock : next.1.data.lamportTime = synchronizeTime m.localTime st.data.lamportTime)
    (silent : next.2 = []) : lamportClocks.Ticks st (some (fr, m)) next := by
  refine ⟨fun x eq => ?_, ?_, fun x mem => ?_⟩
  · cases eq
    exact lt_received st m
  · exact ((received_lamportTime st m).trans clock.symm).le
  · rw [silent] at mem
    cases mem

/-- Local work, after an `advance_lamport_time` if something is sent. -/
theorem ticks_act (clock : st.data.lamportTime ≤ next.1.data.lamportTime)
    (sends : ∀ x ∈ next.2, st.data.lamportTime < next.1.data.lamportTime ∧ x.2 = m ∧
      m.localTime = next.1.data.lamportTime) : lamportClocks.Ticks st none next := by
  refine ⟨nofun, clock, fun x mem => ?_⟩
  obtain ⟨lt, rfl, stamp⟩ := sends x mem
  exact ⟨lt, stamp, fun y mem => (sends y mem).2.1⟩

theorem childReacts_ticks (self : Nat) (l : Locals) (m : BankMessage) :
    l.lamportTime ≤ (childReacts self l m).2.1.lamportTime ∧
      ∀ x ∈ (childReacts self l m).2.2,
        l.lamportTime < (childReacts self l m).2.1.lamportTime ∧
          x.2.localTime = (childReacts self l m).2.1.lamportTime ∧
            ∀ y ∈ (childReacts self l m).2.2, y.2 = x.2 := by
  have later := lt_advanceLamportTime l.lamportTime
  simp only [childReacts]
  split
  next => exact ⟨Nat.le_refl _, by simp⟩
  next order body =>
    split_ifs
    · refine ⟨Nat.le_of_lt later, fun x mem => ?_⟩
      obtain rfl := List.mem_singleton.mp mem
      exact ⟨later, rfl, fun y mem => congrArg Prod.snd (List.mem_singleton.mp mem)⟩
    · refine ⟨Nat.le_of_lt later, fun x mem => ?_⟩
      obtain rfl := List.mem_singleton.mp mem
      exact ⟨later, rfl, fun y mem => congrArg Prod.snd (List.mem_singleton.mp mem)⟩
    · exact ⟨Nat.le_of_lt later, by simp⟩
  next => exact ⟨Nat.le_refl _, by simp⟩

theorem ticks_childLoop (at_ : st.pc = .receiveAny fr) :
    lamportClocks.Ticks st (some (fr, m)) (st.goTo pc (childLoop p st.data m).2) := by
  rw [childLoop]
  obtain ⟨goesOn, sends⟩ := childReacts_ticks p (childReceived st.data m) m
  have eq : received st m = childReceived st.data m := by
    rw [received, at_]
  refine ⟨fun x mem => ?_, ?_, fun x mem => ?_⟩
  · cases mem
    exact lt_received st m
  · change (received st m).lamportTime ≤ _
    rw [eq]
    exact goesOn
  · change (received st m).lamportTime < _ ∧ _
    rw [eq]
    exact sends x mem

/-- A multicast after an `advance_lamport_time`. -/
theorem ticks_multicast {n self : Nat}
    (clock : run.1.lamportTime = advanceLamportTime st.data.lamportTime)
    (sends : run.2 = sendMulticast n self m) (stamp : m.localTime = run.1.lamportTime) :
    lamportClocks.Ticks st none (st.goTo pc run) := by
  have later : st.data.lamportTime < run.1.lamportTime := by
    rw [clock]
    exact lt_advanceLamportTime _
  refine ticks_act (m := m) (Nat.le_of_lt later) fun x mem => ?_
  rw [Process.goTo_sends, sends] at mem
  obtain ⟨_, _, rfl⟩ := List.mem_map.mp mem
  exact ⟨later, rfl, stamp⟩

/-- A single send after an `advance_lamport_time`. -/
theorem ticks_send {dst : Nat} (later : st.data.lamportTime < run.1.lamportTime)
    (sends : run.2 = [(dst, m)]) (stamp : m.localTime = run.1.lamportTime) :
    lamportClocks.Ticks st none (st.goTo pc run) := by
  refine ticks_act (m := m) (Nat.le_of_lt later) fun x mem => ?_
  rw [Process.goTo_sends, sends] at mem
  obtain rfl := List.mem_singleton.mp mem
  exact ⟨later, rfl, stamp⟩

/-- Local work that leaves the clock alone. -/
theorem ticks_still (clock : next.1.data = st.data) (silent : next.2 = []) :
    lamportClocks.Ticks st none next := by
  refine ⟨nofun, (congrArg Locals.lamportTime clock).ge, fun x mem => ?_⟩
  rw [silent] at mem
  cases mem

theorem ticks_of_followed {flight flight' : Flight}
    (step : Followed cfg bank p st flight input next flight') :
    lamportClocks.Ticks st input next := by
  rcases step with step | ⟨-, -, pc⟩
  · cases step with
    | childSyncStarted => exact ticks_multicast rfl rfl rfl
    | started | ack | done | history => exact ticks_received rfl rfl
    | childStarted | parentStarted | looked | parentDone | printHistory | blocked =>
      exact ticks_still rfl rfl
    | depart => exact ticks_send (lt_advanceLamportTime _) rfl rfl
    | forward _ pc => exact ticks_childLoop pc
    | deliver _ _ pc => exact ticks_childLoop pc
    | sendStop => exact ticks_multicast rfl rfl rfl
    | stop _ pc => exact ticks_childLoop (p := p) pc
    | childSyncDone => exact ticks_multicast rfl rfl rfl
    | childDone =>
      refine ticks_send ?_ rfl rfl
      exact (lt_synchronizeTime st.data.bufTime _).trans (lt_advanceLamportTime _)
  · exact ticks_childLoop (p := p) pc

end Ticks

/-! ## Runs -/

theorem ticking (r : BankRun cfg bank) : lamportClocks.Ticking r.transitions := by
  intro t mem
  by_cases sends : ∃ p q m, t.event = .send p q m
  · exact .inl sends
  · obtain ⟨flight, next, flight', step, after⟩ :=
      (r.followed bank_lawful bank_drops mem).resolve_left sends
    obtain ⟨i, at_⟩ := List.getElem?_of_mem mem
    obtain ⟨loc, outbox⟩ := (r.run.upTo at_).2.next_of_view
      (fun p q m event => sends ⟨p, q, m, event⟩) after
    exact .inr ((ticks_of_followed step).mono loc outbox)

/-- An event that happens before another one has the smaller clock, and every message carries the
clock of its send. -/
theorem lamport_clock_condition (cfg : BankConfig) (r : BankRun cfg bank) :
    (∀ i j t u, r.transitions[i]? = some t → r.transitions[j]? = some u →
      HappensBefore r.transitions i j → lamportClocks.time t < lamportClocks.time u) ∧
    ∀ t ∈ r.transitions, ∀ p q m, t.event = .send p q m → m.localTime = lamportClocks.time t := by
  refine ⟨fun i j t u first second before => ?_, fun t mem p q m event => ?_⟩
  · obtain ⟨t', u', first', second', lt⟩ :=
      Clocks.time_lt_of_happensBefore r.run (fun _ => rfl) (ticking r) (fun _ _ => rfl) before
    obtain rfl := Option.some.inj (first.symm.trans first')
    obtain rfl := Option.some.inj (second.symm.trans second')
    exact lt
  · obtain ⟨i, at_⟩ := List.getElem?_of_mem mem
    exact Clocks.stamp_eq r.run (fun _ => rfl) (ticking r) at_ event

end Distra.Pa3
