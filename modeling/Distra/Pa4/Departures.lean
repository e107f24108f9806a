import Distra.Network.Termination
import Distra.Pa4.Announcements

/-!
# Processes that have left

What a process that has ended leaves behind, whichever the mutex: its channels are empty, and no
message is ever written to it again. That takes a mutex that leaves no reply on its way to a child
behind its last critical section.
-/

namespace Distra

open Network

variable {μ : Type} {cfg : Config} {M : MutexCode μ}

/-- No reply is on its way to a child behind its last critical section. -/
def Settled (cfg : Config) (v : ProcessView μ) : Prop :=
  ∀ p q, IsChild cfg.numChildren p → IsChild cfg.numChildren q → q ≠ p →
    (v.loc p).pc.Finished → ∀ m ∈ v.chan q p, m.type ≠ .csReply

/-- What `child_entry` expects of its mutex at the end. -/
structure MutexCode.Leaves (cfg : Config) (M : MutexCode μ) : Prop where
  lawful : M.Lawful
  outward : M.Outward
  among : M.Among
  unfailing : ∀ r : MutexRun cfg M, Unfailing cfg M r.final
  settled : ∀ r : MutexRun cfg M, Settled cfg r.final.view

namespace MutexRun

variable (leaves : M.Leaves cfg) (r : MutexRun cfg M) {p q : Nat}
include leaves

theorem controlled : Control cfg r.final.view := r.control leaves.lawful leaves.unfailing

theorem announces : Overseen cfg r.final.view r.traffic :=
  r.overseen leaves.lawful leaves.unfailing leaves.outward leaves.among

theorem closed : Closed cfg r.final.view :=
  MutexRun.induction leaves.unfailing (.initial cfg M)
    (fun r _ _ _ closed _ ready step =>
      closed.keep (r.controlled leaves) leaves.lawful leaves.outward ready step)
    (fun _ input _ closed _ _ _ => closed.parent (.trans (.consume _ input) (.become rfl))) r

/-- A child that has ended has taken every `DONE`. -/
theorem not_pending (child : IsChild cfg.numChildren p) (exited : (r.final.loc p).pc = .exited)
    (qchild : IsChild cfg.numChildren q) (ne : q ≠ p) : ¬Pending r.final.view p q := by
  have control := r.controlled leaves
  intro pending
  have none_ := (control.final p child).2 exited
  rw [control.awaiting p child] at none_
  have mem : q ∈ (peers cfg.numChildren p).filter (Pending r.final.view p) :=
    Finset.mem_filter.mpr ⟨mem_peers.mpr ⟨ne, qchild⟩, pending⟩
  have := Finset.card_pos.mpr ⟨q, mem⟩
  omega

/-- The parent ends after all children have sent their last announcement. -/
theorem parent_exited (exited : (r.final.loc parentId).pc = .exited)
    (child : IsChild cfg.numChildren q) :
    (r.final.loc q).pc.Finished ∧ r.final.transit q parentId = [] := by
  have chan := (r.announces leaves).chan r.sent_eq child
  rw [State.view_loc, exited] at chan
  have all : (r.final.loc q).pc.announced = [.started, .done] := by
    have len := (r.final.loc q).pc.announced_prefix.length_le
    rw [chan] at len
    have rest : (r.final.view.chan q parentId).map Message.type = [] := by
      rw [← List.length_eq_zero_iff]
      simp only [Pc.heard, List.length_append, List.length_cons, List.length_nil] at len
      omega
    rw [chan, rest]
    rfl
  constructor
  · by_contra unfinished
    unfold Pc.announced at all
    simp only [unfinished, if_false] at all
    split at all <;> cases all
  · rw [all] at chan
    simpa [Pc.heard] using chan.symm

/-- All have sent their last announcement when one process has ended. -/
theorem finished_of_exited (le : p ≤ cfg.numChildren) (exited : (r.final.loc p).pc = .exited)
    (qchild : IsChild cfg.numChildren q) : (r.final.loc q).pc.Finished := by
  by_cases parent : p = parentId
  · exact (r.parent_exited leaves (parent ▸ exited) qchild).1
  · by_cases same : q = p
    · exact same ▸ .inr exited
    · by_contra unfinished
      have child : IsChild cfg.numChildren p := ⟨Nat.pos_of_ne_zero parent, le⟩
      exact r.not_pending leaves child exited qchild same (.inl unfinished)

theorem transit_of_stray (stray : ¬IsChild cfg.numChildren q ∨ q = p) :
    r.final.transit q p = [] := by
  have announced := (r.announces leaves).announced
  have sent : r.traffic.sent q p = [] := by
    rcases stray with out | rfl
    · exact announced.silent q p out
    · exact announced.own q
  have fifo := r.sent_eq q p
  rw [sent, List.map_nil] at fifo
  exact (List.append_eq_nil_iff.mp fifo.symm).2

/-- Nothing is on its way to a process that has ended. -/
theorem transit_eq_nil (le : p ≤ cfg.numChildren) (exited : (r.final.loc p).pc = .exited)
    (q : Nat) : r.final.transit q p = [] := by
  by_cases stray : ¬IsChild cfg.numChildren q ∨ q = p
  · exact r.transit_of_stray leaves stray
  · rw [not_or, not_not] at stray
    obtain ⟨qchild, ne⟩ := stray
    by_cases parent : p = parentId
    · subst parent
      exact (r.parent_exited leaves exited qchild).2
    · have child : IsChild cfg.numChildren p := ⟨Nat.pos_of_ne_zero parent, le⟩
      have taken := r.not_pending leaves child exited qchild ne
      rw [Pending, not_or, not_not] at taken
      obtain ⟨finished, clean⟩ := taken
      have replies := (r.closed leaves p q child qchild ne).closed finished
        fun m mem isDone => clean ⟨m, mem, isDone⟩
      rw [List.eq_nil_iff_forall_not_mem]
      exact fun m mem => leaves.settled r p q child qchild ne (.inr exited) m mem (replies m mem)

/-- A process that has ended has taken what every child announces to it. -/
theorem announcements_taken (le : p ≤ cfg.numChildren) (exited : (r.final.loc p).pc = .exited)
    (qchild : IsChild cfg.numChildren q) (ne : q ≠ p) :
    announcements (taken r.transitions p q) = [.started, .done] := by
  have sent := (r.announces leaves).announced.sent q p qchild le ne.symm
  rw [r.sent_eq, State.view_chan, r.transit_eq_nil leaves le exited, List.append_nil,
    State.view_loc, (r.finished_of_exited leaves le exited qchild).announced] at sent
  exact sent

/-! ## Everything that follows -/

omit leaves in
theorem code_exited {st : Process μ} (p : Nat) (exited : st.pc = .exited) :
    spawnChildren cfg M true p st = .stop := by
  rw [spawnChildren]
  split
  · rw [parentEntry, exited]
  · split
    · rw [childEntry, exited]
    · rfl

/-- Nothing is written to a process that has ended. -/
theorem unsent_of_exited (le : p ≤ cfg.numChildren) (exited : (r.final.loc p).pc = .exited)
    {ts : List (Transition Nat (Process μ) Message)} {s : ProcessState μ}
    (run : Run (spawnChildren cfg M true) r.final ts s) :
    ∀ t ∈ ts, ∀ q m, t.event ≠ .send q p m := by
  induction run with
  | nil => exact nofun
  | @snoc ts s e s' run step ih =>
    intro t mem q m event
    rcases List.mem_append.mp mem with mem | mem
    · exact ih t mem q m event
    · rw [List.mem_singleton.mp mem] at event
      subst event
      have still : (s.loc p).pc = .exited := by
        rw [run.loc_of_stop (code_exited p exited), exited]
      have empty := transit_eq_nil leaves ⟨r.transitions ++ ts, s, r.run.trans run⟩ le still q
      have inTransit := step.send_transit
      rw [empty] at inTransit
      cases inTransit

omit leaves in
/-- How a process has left: after all children have gone through their critical sections and have
announced their end to it. Nothing is on its way to it, and nothing will be. -/
structure Departed (stamp : Nat → Process μ → Nat) (r : MutexRun cfg M) (p : Nat) : Prop where
  completed : ∀ q, IsChild cfg.numChildren q → (r.final.loc q).pc.Finished ∧
    entriesBy q (r.observations stamp) = 5 * q
  taken : ∀ q, IsChild cfg.numChildren q → q ≠ p →
    announcements (taken r.transitions p q) = [.started, .done]
  empty : ∀ q, r.final.transit q p = []
  alone : ∀ ts s, Run (spawnChildren cfg M true) r.final ts s →
    ∀ t ∈ ts, ∀ q m, t.event ≠ .send q p m

theorem departed {stamp : Nat → Process μ → Nat}
    (counted : Counted cfg r.final.view (r.observations stamp)) (le : p ≤ cfg.numChildren)
    (exited : (r.final.loc p).pc = .exited) : r.Departed stamp p where
  completed q child := by
    have finished := r.finished_of_exited leaves le exited child
    refine ⟨finished, ?_⟩
    rw [(counted q child).2, State.view_loc]
    rcases finished with pc | pc <;> rw [pc, Pc.entries]
  taken q child ne := r.announcements_taken leaves le exited child ne
  empty := r.transit_eq_nil leaves le exited
  alone ts s run := r.unsent_of_exited leaves le exited run

end MutexRun

end Distra

namespace Distra.Pa4

open Network RequestQueue Exclusion

variable {cfg : Config}

theorem mutex_among : mutex.Among where
  requestCs {cfg p l l' out} h := by
    change requestCs cfg p l = _ at h
    by_cases vacant : queueLookup l.mux.queue p = emptyRequestTime
    · cases (requestCs_of_vacant vacant).symm.trans h
      exact multicastToChildren_child
    · cases (requestCs_of_queued vacant).symm.trans h
      exact nofun
  take child h := by
    rcases requestCsTake_some h with ⟨l₁, out₁, serves, eq⟩ | ⟨-, -, -, rfl⟩
    · obtain rfl : _ = out₁ := (congrArg (fun x => x.2.2) eq).trans (enterIf_sends _ _ l₁ out₁)
      intro x mem
      rw [(serves.outward x mem).1]
      exact child
    · exact nofun
  empty h := by
    cases h
    exact nofun
  release h := by
    obtain ⟨-, -, rfl⟩ := releaseCs_some h
    exact multicastToChildren_child
  handle {cfg p _ _ _ _ _ _} child h := by
    rcases @handleCsRequests_some cfg p _ _ _ _ _ _ h with ⟨serves, -, -⟩ | ⟨-, -, -, rfl⟩
    · intro x mem
      rw [(serves.outward x mem).1]
      exact child
    · exact nofun

theorem unfailing (r : MutexRun cfg mutex) : Unfailing cfg mutex r.final :=
  .of_mutex (reached r).control fun p child _ ready =>
    (reached r).refined.safe (p := ⟨p, child⟩) (reached r).control ready

theorem settled (r : MutexRun cfg mutex) : Settled cfg r.final.view := by
  intro p q child qchild ne finished
  have apart : (⟨p, child⟩ : Child cfg.numChildren) ≠ ⟨q, qchild⟩ :=
    fun eq => ne (congrArg Subtype.val eq).symm
  have idle : (image cfg r.final.view (r.observations own)).phase ⟨p, child⟩ ≠ .waiting := by
    have phase : (r.final.loc p).pc.phase = .idle := by
      rcases finished with pc | pc <;> exact congrArg Pc.phase pc
    simp [image, grants, phase]
  have none_ : Exclusion.replies ((r.final.view.chan q p).filterMap csMessage) = 0 :=
    (((reached r).refined.inv.link ⟨p, child⟩ ⟨q, qchild⟩ apart).settled idle).2
  rwa [replies_csMessage, ofType_eq_zero] at none_

theorem leaves : mutex.Leaves cfg := ⟨mutex_lawful, mutex_outward, mutex_among, unfailing, settled⟩

end Distra.Pa4
