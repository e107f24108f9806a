import Distra.Pa4.Departures
import Distra.Pa5.Replies

/-!
# The shutdown of `pa5`

A child owes nobody a reply after its last critical section, and nobody owes it one.
-/

namespace Distra.Pa5

open Network RequestQueue Exclusion RicartAgrawala

variable {cfg : Config}

/-- What a mutex sends goes to other children. -/
def Outside (n p : Nat) (out : Sends) : Prop := ∀ x ∈ out, IsChild n x.1 ∧ x.1 ≠ p

theorem outside_multicast {n p : Nat} {m : Message} :
    Outside n p (ipcMulticastToChildren n p m) := by
  intro x mem
  obtain ⟨dst, other, rfl⟩ := List.mem_map.mp mem
  exact mem_otherChildren.mp other

theorem Serves.dests {self fr : Nat} {m : Message} {l l' : Locals} {out : Sends}
    (serves : Serves self l fr m l' out) : ∀ x ∈ out, x.1 = fr := by
  cases serves with
  | reply | defer => exact nofun
  | answer =>
    intro x mem
    rw [List.mem_singleton.mp mem]

theorem requestCs_outside {p : Nat} {l l' : Locals} {out : Sends}
    (h : requestCs cfg p l = some (l', out)) : Outside cfg.numChildren p out := by
  by_cases vacant : queueLookup l.mux.queue p = emptyRequestTime
  · cases (requestCs_of_vacant vacant).symm.trans h
    exact outside_multicast
  · cases (requestCs_of_queued vacant).symm.trans h
    exact nofun

theorem take_dests {p q : Nat} {m : Message} {verdict : Verdict} {l l' : Locals} {out : Sends}
    (h : requestCsTake cfg p l q m = some (verdict, l', out)) : ∀ x ∈ out, x.1 = q := by
  rcases requestCsTake_some h with ⟨l₁, out₁, serves, eq⟩ | ⟨-, -, -, rfl⟩
  · obtain rfl : _ = out₁ := (congrArg (fun x => x.2.2) eq).trans (enterIf_sends _ _ l₁ out₁)
    exact serves.dests
  · exact nofun

/-- The replies that have been put off go to other children: the own request is gone by then. -/
theorem releaseCs_outside {p : Nat} {l l' : Locals} {out : Sends}
    (h : releaseCs cfg p l = some (l', out)) : Outside cfg.numChildren p out := by
  obtain ⟨time, sends⟩ := (releaseCs_some h).sends
  intro x mem
  have mem : x.2 ∈ outTo out x.1 := mem_outTo.mpr mem
  rw [sends x.1] at mem
  split at mem
  next waits =>
    obtain ⟨listed, queued⟩ := waits
    have range := List.mem_range'_1.mp listed
    refine ⟨⟨range.1, by omega⟩, fun own => queued ?_⟩
    rw [own]
    exact queueLookup_setSlot_self _ _ _
  next => cases mem

theorem handle_replies {p q : Nat} {m : Message} {verdict : Verdict} {l l' : Locals} {out : Sends}
    (h : handleCsRequests cfg p l q m = some (verdict, l', out)) :
    ∀ x ∈ out, x.1 = q ∧ x.2.type = .csReply := by
  have h := (@handleCsRequests_eq cfg p q m l).symm.trans h
  split at h
  next =>
    cases h
    intro x mem
    rw [List.mem_singleton.mp mem]
    exact ⟨rfl, rfl⟩
  next =>
    cases h
    exact nofun

theorem mutex_outward : mutex.Outward where
  requestCs_ne h x mem := (requestCs_outside h x mem).2
  take_ne ne h x mem := take_dests h x mem ▸ ne
  empty_ne h := by
    cases h
    exact nofun
  release_ne h x mem := (releaseCs_outside h x mem).2
  handle_ne {cfg p _ _ _ _ _ _} ne h x mem :=
    (@handle_replies cfg p _ _ _ _ _ _ h x mem).1 ▸ ne
  handle_reply {cfg p _ _ _ _ _ _} h x mem := (@handle_replies cfg p _ _ _ _ _ _ h x mem).2

theorem mutex_among : mutex.Among where
  requestCs h x mem := (requestCs_outside h x mem).1
  take child h x mem := take_dests h x mem ▸ child
  empty h := by
    cases h
    exact nofun
  release h x mem := (releaseCs_outside h x mem).1
  handle {cfg p _ _ _ _ _ _} child h x mem :=
    (@handle_replies cfg p _ _ _ _ _ _ h x mem).1 ▸ child

theorem settled (r : MutexRun cfg mutex) : Settled cfg r.final.view := by
  intro p q child qchild ne finished
  obtain ⟨-, -, refined, -⟩ := matched r
  have apart : (⟨p, child⟩ : Child cfg.numChildren) ≠ ⟨q, qchild⟩ :=
    fun eq => ne (congrArg Subtype.val eq).symm
  have idle : (image cfg r.final.view (r.observations own)).phase ⟨p, child⟩ ≠ .waiting := by
    have phase : (r.final.loc p).pc.phase = .idle := by
      rcases finished with pc | pc <;> exact congrArg Pc.phase pc
    simp [image, grants, phase]
  have none_ : Exclusion.replies ((r.final.view.chan q p).filterMap csMessage) = 0 :=
    (Link.pending_eq_zero.mp
      ((refined.inv.link ⟨p, child⟩ ⟨q, qchild⟩ apart).settled idle)).2.2
  rwa [replies_csMessage, ofType_eq_zero] at none_

theorem leaves : mutex.Leaves cfg := ⟨mutex_lawful, mutex_outward, mutex_among, unfailing, settled⟩

/-- The parent gets the messages that it waits for. A process ends after all children have gone
through their critical sections and have announced their end to it, and then it is left alone. -/
theorem ricart_shutdown (r : MutexRun cfg mutex) :
    (r.final.loc parentId).pc.Oversees ∧
      ∀ p ≤ cfg.numChildren, (r.final.loc p).pc = .exited → r.Departed own p := by
  obtain ⟨-, counted, -, -⟩ := matched r
  exact ⟨(r.announces leaves).oversees, fun p le exited => r.departed leaves counted le exited⟩

end Distra.Pa5
