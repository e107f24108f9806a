import Distra.Ipc.Replay
import Distra.Ipc.Headers
import Distra.Pa1.Termination

/-!
# `pa1` over pipes

A pipe never holds more than two texts, and nothing is left for a process that has come to its end.
So no write is refused, the barriers are what they are over FIFO channels, and as long as nobody has
exited, all processes can go on to their end. The pipes of `pa1` block: a read that waits is one
that finds nothing and is repeated.
-/

namespace Distra.Pa1

open Network Ipc Message

/-- `ipc_ext_set_payload` of `pa1` leaves the time as it is. -/
def barrierCodec : Codec MessageType where
  Encodes _ type msg := ∃ buf time text, text.length ≤ textLimit ∧
    msg = ipcExtSetPayload buf type time text
  decode msg := typeOf (header msg).sType
  size _ := headerSize + textLimit
  Fits _ := True
  length_le encodes := by
    obtain ⟨buf, time, text, short, rfl⟩ := encodes
    exact length_wire_ipcExtSetPayload.trans (Nat.add_le_add_left short _)
  decode_eq _ encodes same := by
    obtain ⟨buf, time, text, -, rfl⟩ := encodes
    rw [same.header, header_ipcExtSetPayload, typeOf_typeCode]

section Code

variable {cfg : Config} {p : Nat} {st : Process}

/-- The code of a process comes to its end where it exits. -/
theorem exited_of_stop (le : p ≤ cfg.numChildren) (running : st.pc ≠ .panicked)
    (parent : p = parentId → ParentPc st.pc) (stop : spawnChildren cfg p st = .stop) :
    st.pc = .exited := by
  have waits {type : MessageType} {fr self : Nat} {pc : Nat → Pc} {next : ProcessNext} :
      ipcExtReceiveAllType cfg.numChildren self st type fr pc next ≠ .stop := by
    unfold ipcExtReceiveAllType
    split <;> simp
  by_cases isParent : p = parentId
  · rw [spawnChildren, if_pos isParent, parentEntry] at stop
    rcases parent isParent with ⟨fr, pc | pc⟩ | pc
    · rw [pc] at stop
      exact absurd stop waits
    · rw [pc] at stop
      exact absurd stop waits
    · exact pc
  · rw [spawnChildren, if_neg isParent, if_pos le, childEntry] at stop
    cases pc : st.pc with
    | exited => rfl
    | panicked => exact absurd pc running
    | awaitAllStarted | awaitAllDone =>
      rw [pc] at stop
      exact absurd stop waits
    | childBroadcastStarted | logStarted | childBroadcastDone | logDone =>
      rw [pc] at stop
      cases stop

theorem plain (cfg : Config) : Plain (spawnChildren cfg) := by
  intro p st sources onMessage onEmpty polls
  exact (polls ▸ can_spawnChildren p st : Can _ _ _ (.poll _ _ _)).elim

/-- What the program expects of the pipes. -/
theorem conveyed {capacity : Nat} (wide : 2 * (headerSize + textLimit) ≤ capacity) :
    Conveyed (spawnChildren cfg) initialState barrierCodec cfg.numChildren capacity where
  scans polls := absurd polls (plain cfg _ _ _ _ _)
  fits _ _ _ _ _ := trivial
  room {ts s} run a b := by
    have few := length_transit_le ⟨ts, s, run⟩ (a := a) (b := b)
    refine le_trans ?_ wide
    change ((s.transit a b).map fun _ => headerSize + textLimit).sum ≤ _
    rw [List.map_const', List.sum_replicate_nat]
    exact Nat.mul_le_mul_right _ few
  awaited {ts s} run a b some_ stop := by
    have inv := barrier_of_run ⟨ts, s, run⟩
    obtain ⟨m, mem⟩ := List.exists_mem_of_ne_nil _ some_
    have link : Linked cfg.numChildren a b := inv.linked mem
    have exited := exited_of_stop link.2.1 (inv.logged b).running
      (fun parent => parent ▸ inv.parent) stop
    have taken : (s.loc b).pc.taken a = 2 := congrArg (Pc.taken a) exited
    have script := inv.script link
    refine some_ (script.eq_nil ?_)
    exact script.short.trans taken.ge

end Code

/-- A state of the processes, one `PipedStep` after the other. -/
abbrev PipedBarrier (cfg : Config) (capacity : Nat) (W : PipedState Process MessageType) : Prop :=
  PipedRun (spawnChildren cfg) barrierCodec cfg.numChildren capacity (.initial initialProcess) W

/-- What holds over pipes of any state that is reached. -/
structure BarriersOverPipes (cfg : Config) (W : PipedState Process MessageType) : Prop where
  follows : ∃ r : BarrierRun cfg,
    Simulates (spawnChildren cfg) barrierCodec cfg.numChildren W r.final
  /-- No write is refused, and no read fails. -/
  intact : ∀ p, W.status p ≠ .failed
  unfailing : ∀ p, (W.loc p).pc ≠ .panicked
  /-- Nothing is written to a process that has exited. -/
  departed : ∀ p ≤ cfg.numChildren, W.status p = .exited → ∀ q, W.queue q p = []
  /-- Whoever has all `DONE`s comes after everyone has had all `STARTED`s. -/
  barrier : ∀ p ≤ cfg.numChildren, ∀ q, IsChild cfg.numChildren q → q ≠ p →
    .receivedAllDone ∈ (W.loc p).log → .receivedAllStarted ∈ (W.loc q).log

section Piped

variable {cfg : Config} {capacity : Nat} {W : PipedState Process MessageType}

theorem barriersOverPipes (wide : 2 * (headerSize + textLimit) ≤ capacity)
    (run : PipedBarrier cfg capacity W) : BarriersOverPipes cfg W := by
  obtain ⟨ts, s, run, simulates⟩ := run.simulated (conveyed wide)
  have inv := barrier_of_run ⟨ts, s, run⟩
  have logged (p : Nat) : Logged (W.loc p) := simulates.loc ▸ inv.logged p
  refine ⟨⟨⟨ts, s, run⟩, simulates⟩, simulates.not_failed, fun p => (logged p).running,
    fun p le exited => simulates.departed (conveyed wide) run exited, fun p le q child ne log => ?_⟩
  have link : Linked cfg.numChildren q p := ⟨child, le, ne⟩
  have all : (s.loc p).pc.taken q ≤ (s.loc q).pc.sent := (inv.script link).le
  rw [← simulates.loc, (logged p).receivedAllDone.mp log] at all
  exact (logged q).receivedAllStarted.mpr (Pc.passedStarted_of_sent (logged q).running all)

/-- Over pipes with room for two texts no write of `pa1` is refused and nobody panics, the barriers
hold, and as long as nobody has exited, all processes can go on to their end. -/
theorem barriers_over_pipes (wide : 2 * (headerSize + textLimit) ≤ capacity)
    (run : PipedBarrier cfg capacity W) :
    BarriersOverPipes cfg W ∧ (W.Living cfg.numChildren →
      ∃ W', PipedRun (spawnChildren cfg) barrierCodec cfg.numChildren capacity W W' ∧
        (∀ p ≤ cfg.numChildren, (W'.loc p).pc = .exited) ∧ ∀ p q, W'.queue p q = []) := by
  refine ⟨barriersOverPipes wide run, fun living => ?_⟩
  obtain ⟨ts, s, run, simulates⟩ := run.simulated (conveyed wide)
  obtain ⟨ts', s', rest, ended⟩ := continues ⟨ts, s, run⟩
  have encodes (p : Nat) (type : MessageType) : ∃ msg, barrierCodec.Encodes p type msg :=
    ⟨_, fun _ => 0, 0, [], Nat.zero_le _, rfl⟩
  obtain ⟨W', run', -, simulates'⟩ :=
    simulates.replay (conveyed wide) (plain cfg) encodes run living rest
  refine ⟨W', run', fun p le => ?_, fun p q => ?_⟩
  · rw [simulates'.loc]
    exact ended.exited p le
  · exact simulates'.queue_nil (List.append_eq_nil_iff.mp (ended.empty p q)).1

theorem twoProcesses_pos : 1 ≤ 2 := by decide

theorem twoProcesses_le_max : 2 ≤ 15 := by decide

/-- The arguments `-p 2`. -/
def twoProcesses : Config := ⟨2, 15, twoProcesses_pos, twoProcesses_le_max⟩

theorem barriers_over_pipes_two : ∃ W : PipedState Process MessageType,
    PipedBarrier twoProcesses 4096 W ∧ BarriersOverPipes twoProcesses W ∧
      ∀ p ≤ 2, (W.loc p).pc = .exited := by
  have wide : 2 * (headerSize + textLimit) ≤ 4096 := by decide
  obtain ⟨W, run, exited, -⟩ := (@barriers_over_pipes twoProcesses 4096 _ wide .nil).2
    fun _ _ => by simp [PipedState.initial]
  exact ⟨W, run, (barriers_over_pipes wide run).1, exited⟩

end Piped

end Distra.Pa1
