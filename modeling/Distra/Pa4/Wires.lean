import Distra.Ipc.Advance
import Distra.Ipc.Headers
import Distra.Pa4.Termination

/-!
# The messages of `child_entry` as bytes

All that a channel ever carries fits into its pipe, and a process ends with nothing on its way to
it. So no write is refused, and what the processes do over pipes is what they do in a `MutexRun`. As
long as nobody has exited, they can go on to their end.
-/

namespace Distra

open Network Ipc

/-- CS messages are without payload, and the others carry a text. -/
def codec : Codec Message where
  Encodes _ m msg :=
    m.type.IsCs ∧ (∃ buf, msg = ipcExtSetStatus buf m.type m.localTime) ∨
      ¬m.type.IsCs ∧ ∃ buf text, text.length ≤ textLimit ∧
        msg = ipcExtSetPayload buf m.type m.localTime text
  decode := decode
  size m := headerSize + if m.type.IsCs then 0 else textLimit
  Fits m := m.localTime ≤ int16Max
  length_le encodes := by
    rcases encodes with ⟨cs, buf, rfl⟩ | ⟨other, buf, text, short, rfl⟩
    · rw [length_wire_ipcExtSetStatus, if_pos cs]
      exact Nat.le_add_right _ _
    · rw [if_neg other]
      exact length_wire_ipcExtSetPayload.trans (Nat.add_le_add_left short _)
  decode_eq fits encodes same := by
    rcases encodes with ⟨-, buf, rfl⟩ | ⟨-, buf, text, -, rfl⟩
    · exact decode_eq_of_header (same.header.trans header_ipcExtSetStatus) fits
    · exact decode_eq_of_header (same.header.trans header_ipcExtSetPayload) fits

theorem sum_size (l : List Message) :
    (l.map codec.size).sum = headerSize * l.length + textLimit * (announcements l).length := by
  induction l with
  | nil => rfl
  | cons m l ih =>
    have size : codec.size m = headerSize + if m.type.IsCs then 0 else textLimit := rfl
    rw [List.map_cons, List.sum_cons, ih, size, List.length_cons, Nat.mul_succ]
    by_cases cs : m.type.IsCs
    · have same : announcements (m :: l) = announcements l := by simp [announcements, cs]
      rw [same, if_pos cs]
      omega
    · have more : announcements (m :: l) = m.type :: announcements l := by simp [announcements, cs]
      rw [more, if_neg cs, List.length_cons, Nat.mul_succ]
      omega

variable {μ : Type} {cfg : Config} {M : MutexCode μ}

/-- What the pipes expect of a mutex. -/
structure MutexCode.FitsPipes (cfg : Config) (M : MutexCode μ) (share : Nat → Nat → Nat)
    (capacity : Nat) : Prop where
  leaves : M.Leaves cfg
  sends : ∀ (r : MutexRun cfg M) a b, (r.traffic.sent a b).length ≤ share a b
  stamps : ∀ (r : MutexRun cfg M) a b, ∀ m ∈ r.final.transit a b, m.localTime ≤ int16Max
  exclusive : ∀ r : MutexRun cfg M,
    Set.Subsingleton {p | IsChild cfg.numChildren p ∧ (r.final.loc p).pc.Inside}
  room : ∀ a b, a ≤ cfg.numChildren → b ≤ cfg.numChildren →
    headerSize * share a b + 2 * textLimit ≤ capacity

namespace MutexRun

variable {share : Nat → Nat → Nat} {capacity : Nat} (leaves : M.Leaves cfg)
  (fits : M.FitsPipes cfg share capacity) (r : MutexRun cfg M) {p q : Nat}

include leaves in
/-- A process whose code has come to its end has exited. -/
theorem exited_of_stop (le : p ≤ cfg.numChildren)
    (stop : spawnChildren cfg M true p (r.final.loc p) = .stop) :
    (r.final.loc p).pc = .exited := by
  by_cases parent : p = parentId
  · subst parent
    rw [spawnChildren, if_pos rfl] at stop
    rcases (r.announces leaves).oversees with ⟨fr, pc⟩ | ⟨fr, pc⟩ | pc
    · rw [State.view_loc] at pc
      simp only [parentEntry, pc] at stop
      split at stop <;> cases stop
    · rw [State.view_loc] at pc
      simp only [parentEntry, pc] at stop
      split at stop <;> cases stop
    · exact pc
  · have child : IsChild cfg.numChildren p := ⟨Nat.pos_of_ne_zero parent, le⟩
    obtain ⟨running, notParent⟩ := (r.controlled leaves).healthy p child
    rw [State.view_loc] at running notParent
    rw [child_spawned child] at stop
    cases pc : (r.final.loc p).pc with
    | exited => rfl
    | awaitAllDone fr => exact absurd pc (notParent fr)
    | panicked => exact absurd (.inl pc) running
    | aborted => exact absurd (.inr pc) running
    | awaitAllStarted fr =>
      simp only [childEntry, pc] at stop
      split at stop <;> cases stop
    | childSyncStarted | iteration | requestCs | criticalSection | handleCsRequests =>
      simp only [childEntry, pc] at stop
      cases stop

include leaves in
theorem not_failed (le : p ≤ cfg.numChildren) : ¬(r.final.loc p).pc.Failed := by
  by_cases parent : p = parentId
  · subst parent
    rcases (r.announces leaves).oversees with ⟨fr, pc⟩ | ⟨fr, pc⟩ | pc <;>
      rw [← State.view_loc, pc] <;> simp [Pc.Failed]
  · exact ((r.controlled leaves).healthy p ⟨Nat.pos_of_ne_zero parent, le⟩).1

include fits in
/-- All that is on its way fits into the pipe. -/
theorem room (a b : Nat) : ((r.final.transit a b).map codec.size).sum ≤ capacity := by
  have announces := r.announces fits.leaves
  by_cases within : IsChild cfg.numChildren a ∧ b ≤ cfg.numChildren ∧ b ≠ a
  · obtain ⟨child, le, ne⟩ := within
    have fifo : (r.traffic.sent a b).map Prod.snd =
        taken r.transitions b a ++ r.final.transit a b := r.sent_eq a b
    have sizes := sum_size (r.final.transit a b)
    have all : (r.final.transit a b).length ≤ share a b := by
      have len := congrArg List.length fifo
      have := fits.sends r a b
      rw [List.length_map, List.length_append] at len
      omega
    have two : (announcements (r.final.transit a b)).length ≤ 2 := by
      have sent := announces.announced.sent a b child le ne
      have len := congrArg List.length sent
      have := (Pc.announced_prefix (r.final.view.loc a).pc).length_le
      rw [fifo, announcements_append, List.length_append] at len
      simp only [List.length_cons, List.length_nil] at this
      omega
    have := fits.room a b child.2 le
    have := Nat.mul_le_mul_left headerSize all
    have := Nat.mul_le_mul_left textLimit two
    omega
  · have none_ : r.final.transit a b = [] := by
      rw [not_and_or, not_and_or, not_not] at within
      rcases within with out | far | same
      · exact r.transit_of_stray fits.leaves (.inl out)
      · have fifo := r.sent_eq a b
        rw [announces.announced.within a b (Nat.not_le.mp far)] at fifo
        exact (List.append_eq_nil_iff.mp fifo.symm).2
      · exact r.transit_of_stray fits.leaves (.inr same.symm)
    rw [none_]
    exact Nat.zero_le _

include fits in
theorem conveyed : Conveyed (spawnChildren cfg M true) (initialState cfg M) codec
    cfg.numChildren capacity where
  scans {p st sources onMessage onEmpty} polls q := by
    by_cases parent : p = parentId
    · subst parent
      rw [spawnChildren, if_pos rfl] at polls
      have can := @parent_can _ cfg st
      rw [polls] at can
      exact can.elim
    · obtain ⟨-, entry⟩ := child_code parent polls (by simp)
      rw [(childEntry_poll entry).1]
      exact mem_otherProcesses
  fits run a b m mem := fits.stamps ⟨_, _, run⟩ a b m mem
  room run a b := room fits ⟨_, _, run⟩ a b
  awaited run a b conveyed stop := by
    let r : MutexRun cfg M := ⟨_, _, run⟩
    by_cases le : b ≤ cfg.numChildren
    · exact conveyed (r.transit_eq_nil fits.leaves le (r.exited_of_stop fits.leaves le stop) a)
    · have fifo := r.sent_eq a b
      rw [(r.announces fits.leaves).announced.within a b (Nat.not_le.mp le)] at fifo
      exact conveyed (List.append_eq_nil_iff.mp fifo.symm).2

end MutexRun

/-- A wait for a message of a barrier changes nothing. -/
theorem responsive (cfg : Config) (M : MutexCode μ) :
    Responsive (spawnChildren cfg M true) codec where
  encodes p m := by
    by_cases cs : m.type.IsCs
    · exact ⟨_, .inl ⟨cs, fun _ => 0, rfl⟩⟩
    · exact ⟨_, .inr ⟨cs, fun _ => 0, [], Nat.zero_le _, rfl⟩⟩
  blocks {p st q onMessage onEmpty} receives := by
    by_cases parent : p = parentId
    · subst parent
      rw [spawnChildren, if_pos rfl] at receives
      have can := @parent_can _ cfg st
      rw [receives] at can
      exact can.2
    · obtain ⟨-, entry⟩ := child_code parent receives (by simp)
      unfold childEntry at entry
      dsimp only at entry
      split at entry
      next => cases entry
      next =>
        split at entry <;> cases entry
        rfl
      all_goals cases entry

section Piped

/-- A state of the processes with `--mutexl`, one `PipedStep` after the other. -/
abbrev PipedMutex (cfg : Config) (M : MutexCode μ) (capacity : Nat)
    (W : PipedState (Process μ) Message) : Prop :=
  PipedRun (spawnChildren cfg M true) codec cfg.numChildren capacity
    (.initial (initialProcess cfg M)) W

/-- What holds over pipes of any state that is reached. -/
structure SafeOverPipes (cfg : Config) (M : MutexCode μ) (W : PipedState (Process μ) Message) :
    Prop where
  follows : ∃ r : MutexRun cfg M,
    Simulates (spawnChildren cfg M true) codec cfg.numChildren W r.final
  /-- No write is refused, and no read fails. -/
  intact : ∀ p, W.status p ≠ .failed
  exclusive : Set.Subsingleton {p | IsChild cfg.numChildren p ∧ (W.loc p).pc.Inside}
  unfailing : ∀ p ≤ cfg.numChildren, ¬(W.loc p).pc.Failed
  /-- Nothing is written to a process that has exited. -/
  departed : ∀ p ≤ cfg.numChildren, W.status p = .exited → ∀ q, W.queue q p = []

/-- All processes can come to the end of their code, with nothing left in the pipes. -/
def EndsOverPipes (cfg : Config) (M : MutexCode μ) (capacity : Nat)
    (stamp : Nat → Process μ → Nat) (W : PipedState (Process μ) Message) : Prop :=
  ∃ W' : PipedState (Process μ) Message, ∃ r : MutexRun cfg M,
    PipedRun (spawnChildren cfg M true) codec cfg.numChildren capacity W W' ∧
      W'.Living cfg.numChildren ∧ W'.loc = r.final.loc ∧ r.Ended stamp ∧
        ∀ p q, W'.queue p q = []

variable {share : Nat → Nat → Nat} {capacity : Nat} {W : PipedState (Process μ) Message}

theorem MutexCode.FitsPipes.safe (fits : M.FitsPipes cfg share capacity)
    (run : PipedMutex cfg M capacity W) : SafeOverPipes cfg M W := by
  have conveyed := MutexRun.conveyed fits
  obtain ⟨ts, s, run, simulates⟩ := run.simulated conveyed
  let r : MutexRun cfg M := ⟨ts, s, run⟩
  refine ⟨⟨r, simulates⟩, simulates.not_failed, ?_, fun p le => ?_,
    fun p le exited => simulates.departed conveyed run exited⟩
  · rw [simulates.loc]
    exact fits.exclusive r
  · rw [simulates.loc]
    exact r.not_failed fits.leaves le

theorem MutexCode.FitsPipes.ends (fits : M.FitsPipes cfg share capacity)
    {stamp : Nat → Process μ → Nat} (ends : M.Ends cfg stamp share)
    (run : PipedMutex cfg M capacity W) (living : W.Living cfg.numChildren) :
    EndsOverPipes cfg M capacity stamp W := by
  have conveyed := MutexRun.conveyed fits
  obtain ⟨ts, s, run, simulates⟩ := run.simulated conveyed
  obtain ⟨W', ts', s', run', living', exec, simulates', settled⟩ :=
    simulates.settles conveyed (responsive cfg M) (MutexRun.climbs ends)
      (fun _ _ run => MutexRun.measure_le ends run) run living
  let r : MutexRun cfg M := ⟨ts', s', exec⟩
  have ended := r.ended_of_still ends settled
  exact ⟨W', r, run', living', simulates'.loc, ended,
    fun p q => simulates'.queue_nil (ended.empty p q)⟩

end Piped

end Distra
