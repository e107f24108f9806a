import Distra.Pa4.ClockBudget
import Distra.Pa5.Replies

/-!
# The clocks of `pa5`

A critical section costs its child one tick for the request, and every other child three at most:
for the request taken, for the reply sent, and one for the reply taken. A request that is put off
still leads to two of them.
-/

namespace Distra.Pa5

open Network RequestQueue

variable {cfg : Config}

/-- The requests of the children in `S` that have been put off. -/
def storedIn (S : Finset Nat) (queue : RequestQueue) : Nat := ∑ a ∈ S, stored queue a

section Stored

variable {S : Finset Nat} {queue : RequestQueue} {fr t : Nat}

theorem stored_setSlot_ne (pos : 1 ≤ fr) {a : Nat} (child : 1 ≤ a) (ne : a ≠ fr) (t : Nat) :
    stored (queue.setSlot fr t) a = stored queue a :=
  stored_congr (queueLookup_setSlot_ne _ _ pos child ne)

theorem storedIn_setSlot_notMem (queue : RequestQueue) (t : Nat) (pos : ∀ a ∈ S, 1 ≤ a)
    (child : 1 ≤ fr) (notMem : fr ∉ S) :
    storedIn S (queue.setSlot fr t) = storedIn S queue :=
  Finset.sum_congr rfl fun a mem =>
    stored_setSlot_ne child (pos a mem) (fun eq => notMem (eq ▸ mem)) t

theorem storedIn_setSlot (queue : RequestQueue) (pos : ∀ a ∈ S, 1 ≤ a) (mem : fr ∈ S) (t : Nat) :
    storedIn S (queue.setSlot fr t) + stored queue fr =
      storedIn S queue + stored (queue.setSlot fr t) fr := by
  have others : ∑ a ∈ S.erase fr, stored (queue.setSlot fr t) a =
      ∑ a ∈ S.erase fr, stored queue a :=
    Finset.sum_congr rfl fun a ha =>
      stored_setSlot_ne (pos fr mem) (pos a (Finset.mem_of_mem_erase ha))
        (Finset.ne_of_mem_erase ha) t
  rw [storedIn, storedIn, ← Finset.add_sum_erase _ _ mem, ← Finset.add_sum_erase _ _ mem, others]
  omega

theorem stored_le (queue : RequestQueue) (a : Nat) : stored queue a ≤ 1 := by
  unfold stored
  split <;> omega

/-- A reply for every request that was put off, each with a tick. -/
theorem answerDeferred_paid (pos : ∀ a ∈ S, 1 ≤ a) (L : List Nat) {l l' : Locals} {out : Sends}
    (run : answerDeferred L l = some (l', out)) (children : ∀ a ∈ L, 1 ≤ a)
    (mem : ∀ a ∈ L, queueLookup l.mux.queue a ≠ emptyRequestTime → a ∈ S) :
    l'.lamportTime = l.lamportTime + out.length ∧
      (∀ x ∈ out, 0 < x.2.localTime ∧ x.2.localTime ≤ l'.lamportTime) ∧
      storedIn S l'.mux.queue + out.length = storedIn S l.mux.queue := by
  induction L generalizing l out with
  | nil =>
    cases run
    exact ⟨rfl, nofun, rfl⟩
  | cons fr rest ih =>
    have children' : ∀ a ∈ rest, 1 ≤ a := fun a ha => children a (List.mem_cons_of_mem _ ha)
    have child := children fr List.mem_cons_self
    by_cases queued : queueLookup l.mux.queue fr = emptyRequestTime
    · have absent := mt (queueContains_eq l.mux.queue fr).mp (by simpa using queued)
      rw [answerDeferred, if_neg absent] at run
      exact ih run children' (fun a ha => mem a (List.mem_cons_of_mem _ ha))
    · have present := (queueContains_eq l.mux.queue fr).mpr queued
      rw [answerDeferred, if_pos present] at run
      obtain ⟨queue, released, run⟩ := Option.bind_eq_some_iff.mp run
      obtain ⟨-, rfl⟩ := releaseRequest_eq_some.mp released
      have run : (answerDeferred rest
          ⟨{ l.mux with queue := l.mux.queue.setSlot fr emptyRequestTime },
            advanceLamportTime l.lamportTime⟩).bind
            (fun x => some (x.1, (fr, ⟨.csReply, advanceLamportTime l.lamportTime⟩) :: x.2)) =
          some (l', out) := run
      obtain ⟨⟨l₁, out₁⟩, later, eq⟩ := Option.bind_eq_some_iff.mp run
      cases eq
      have cleared := storedIn_setSlot l.mux.queue pos
        (mem fr List.mem_cons_self queued) emptyRequestTime
      have emptied : stored (l.mux.queue.setSlot fr emptyRequestTime) fr = 0 :=
        stored_of_empty (queueLookup_setSlot_self _ _ _)
      have one : stored l.mux.queue fr = 1 := if_neg queued
      obtain ⟨clock, times, kept⟩ := ih later children' (fun a ha waits => by
        refine mem a (List.mem_cons_of_mem _ ha) (fun empty => waits ?_)
        by_cases same : a = fr
        · rw [same]
          exact queueLookup_setSlot_self _ _ _
        · rw [← empty]
          exact queueLookup_setSlot_ne _ _ child (children' a ha) same)
      have clock : l₁.lamportTime = advanceLamportTime l.lamportTime + out₁.length := clock
      have kept : storedIn S l₁.mux.queue + out₁.length =
        storedIn S (l.mux.queue.setSlot fr emptyRequestTime) := kept
      refine ⟨?_, fun x hx => ?_, ?_⟩
      · rw [clock, advanceLamportTime]
        simp
        omega
      · rcases List.mem_cons.mp hx with rfl | hx
        · rw [clock]
          exact ⟨Nat.succ_pos _, Nat.le_add_right _ _⟩
        · exact times x hx
      · simp
        omega

end Stored

def prices (n : Nat) : Prices where
  ticks
    | .csRequest => 3
    | _ => 1
  entry := 1 + (n - 1) * 3
  release := 0

def budget (n : Nat) : Budget Nat (Process Mux) Message :=
  (prices n).budget n fun p mux => 2 * storedIn (peers n p) mux.queue

section Pays

variable {v : ProcessView Mux} {os : List Observation} {p : Child cfg.numChildren} {q : Nat}
  {m : Message} {input : Option (Nat × Message)} {next : Next Nat (Process Mux) Message}
  {st : Process Mux} {l' : Locals} {out : Sends}

theorem one_le_ticks (n : Nat) (type : MessageType) : 1 ≤ (prices n).ticks type := by
  cases type <;> simp [prices]

theorem peers_pos {n p : Nat} : ∀ a ∈ peers n p, 1 ≤ a := fun _ mem => (mem_peers.mp mem).2.1

theorem self_notMem_peers {n p : Nat} : p ∉ peers n p := fun mem => (mem_peers.mp mem).1 rfl

/-- The ticks of a CS message that is taken while the own request stands. -/
theorem Serves.pays (serves : Serves p st.locals q m l' out) (child : IsChild cfg.numChildren q)
    (ne : q ≠ p) {pc : Pc}
    (work : (prices cfg.numChildren).work cfg.numChildren p pc ≤
      (prices cfg.numChildren).work cfg.numChildren p st.pc) (count : Nat) :
    ∃ ticks, (budget cfg.numChildren).Pays p st (some (q, m))
      (st.at_ pc ⟨{ l'.mux with lastRequestReplyCount := count }, l'.lamportTime⟩, out) ticks := by
  cases serves with
  | reply => exact ⟨1, Prices.pays_received p.2.ne_parent work rfl rfl (one_le_ticks _ _)⟩
  | defer type first vacant =>
    refine ⟨1, Prices.pays_taken (k := 0) p.2.ne_parent work rfl nofun ?_⟩
    have added := storedIn_setSlot st.mux.queue peers_pos (mem_peers.mpr ⟨ne, child⟩) m.localTime
    have one := stored_le (st.mux.queue.setSlot q m.localTime) q
    have none_ : stored st.mux.queue q = 0 := stored_of_empty vacant
    rw [Prices.outCost_nil, type]
    simp only [Process.at_, Process.locals, prices]
    omega
  | answer type =>
    refine ⟨2, Prices.pays_answer p.2.ne_parent work ?_ ?_ ?_ ?_⟩
    · rfl
    · rfl
    · rfl
    · rw [type]
      exact Nat.le_refl _

theorem releaseCs_paid {p : Nat} (child : IsChild cfg.numChildren p)
    (released : releaseCs cfg p st.locals = some (l', out)) :
    l'.lamportTime = st.lamportTime + out.length ∧
      (∀ x ∈ out, 0 < x.2.localTime ∧ x.2.localTime ≤ l'.lamportTime) ∧
      storedIn (peers cfg.numChildren p) l'.mux.queue + out.length =
        storedIn (peers cfg.numChildren p) st.mux.queue := by
  obtain ⟨queue, freed, run⟩ := Option.bind_eq_some_iff.mp released
  obtain ⟨queued, rfl⟩ := releaseRequest_eq_some.mp freed
  have own := storedIn_setSlot_notMem st.mux.queue emptyRequestTime
    (@peers_pos cfg.numChildren p) child.1 self_notMem_peers
  rw [← own]
  refine answerDeferred_paid peers_pos (List.range' 1 cfg.numChildren) run
    (fun a mem => (List.mem_range'_1.mp mem).1) (fun a mem waits => ?_)
  obtain ⟨pos, lt⟩ := List.mem_range'_1.mp mem
  refine mem_peers.mpr ⟨fun eq => waits ?_, pos, by omega⟩
  rw [eq]
  exact queueLookup_setSlot_self _ _ _

theorem Refined.pays (h : Refined cfg v os) (control : Control cfg v) (ready : Ready cfg v p input)
    (step : LocalStep cfg mutex p (v.loc p) input next) :
    ∃ ticks, (budget cfg.numChildren).Pays p (v.loc p) input next ticks := by
  have child := p.2.ne_parent
  cases step with
  | syncStarted pc => exact ⟨1, Prices.pays_syncStarted p.2 pc⟩
  | barrier pc =>
    refine ⟨1, Prices.pays_received child ?_ rfl rfl (one_le_ticks _ _)⟩
    rw [pc]
    exact Nat.le_refl _
  | barrierWait pc => exact ⟨0, Prices.pays_still child (Nat.le_refl _) (Nat.le_refl _) rfl⟩
  | barrierEnd pc =>
    refine ⟨0, Prices.pays_still child ?_ (Nat.le_refl _) rfl⟩
    rw [pc]
    exact Nat.le_refl _
  | @request i l out pc more requested =>
    have idle : (v.loc p).pc.phase = .idle := by rw [pc]; rfl
    have vacant : queueLookup (v.loc p).locals.mux.queue p = emptyRequestTime :=
      h.inv.request_eq_zero (p := p) idle
    cases (requestCs_of_vacant vacant).symm.trans requested
    have kept := storedIn_setSlot_notMem (v.loc p).mux.queue
      (advanceLamportTime (v.loc p).lamportTime) (@peers_pos cfg.numChildren p) p.2.1
      self_notMem_peers
    exact ⟨1, Prices.pays_request p.2 pc more rfl rfl (congrArg (2 * ·) kept) (Nat.le_refl _)⟩
  | finish pc => exact ⟨1, Prices.pays_finish p.2 pc⟩
  | @served i q m verdict l out pc taken cs =>
    obtain ⟨qchild, ne⟩ := control.sender_child p.2 ready
    rcases requestCsTake_some taken with ⟨l₁, out₁, serves, test⟩ | ⟨-, nonCs, -, -⟩
    · have work (pc' : Pc) (same : pc' = .requestCs i ∨ pc' = .criticalSection i) :
          (prices cfg.numChildren).work cfg.numChildren p pc' ≤
            (prices cfg.numChildren).work cfg.numChildren p (v.loc p).pc := by
        rw [pc]
        rcases same with rfl | rfl <;> exact Nat.le_refl _
      unfold entryTest enterIf at test
      split at test
      next =>
        cases test
        exact serves.pays qchild ne (work _ (.inr rfl)) 0
      next =>
        cases test
        exact serves.pays qchild ne (work _ (.inl rfl)) _
    · exact absurd nonCs cs
  | @doneServed i q m l out l' out' pc taken type retried =>
    rcases requestCsTake_some taken with ⟨_, _, serves, -⟩ | ⟨-, -, rfl, -⟩
    · cases serves <;> simp_all
    · have queued : queueLookup (v.loc p).mux.queue p ≠ emptyRequestTime :=
        (h.inv.grants.standing p).mpr (by simp [image, grants, pc, Pc.phase])
      cases (requestCs_of_queued queued).symm.trans retried
      refine ⟨1, Prices.pays_received child ?_ rfl rfl (one_le_ticks _ _)⟩
      rw [pc]
      exact Nat.le_refl _
  | idle pc found =>
    cases found
    refine ⟨0, Prices.pays_still child ?_ (Nat.le_refl _) rfl⟩
    rw [pc]
    exact Nat.le_refl _
  | @release i l out pc released =>
    obtain ⟨clock, times, kept⟩ := releaseCs_paid p.2 released
    have replies : ∀ x ∈ out, (prices cfg.numChildren).ticks x.2.type = 1 := by
      intro x mem
      rw [(releaseCs_some released).replies x mem]
      rfl
    refine ⟨out.length, fun K le _ => ?_, fun x mem => (times x mem).2, ?_⟩
    · have le : (v.loc p).lamportTime ≤ K := le
      change l.lamportTime ≤ K + out.length
      omega
    · have rounds : 5 * p.1 + 1 - (i + 1) = 5 * p.1 - i := by omega
      rw [budget, Prices.budget_work child, Prices.budget_work child, Prices.outCost_none,
        Prices.outCost_eq replies, pc]
      simp only [Process.at_, Prices.work, prices, rounds]
      omega
  | @handled q m verdict l out pc taken cs =>
    have taken := (@handleCsRequests_eq cfg p q m _).symm.trans taken
    split at taken
    next type =>
      cases taken
      refine ⟨2, Prices.pays_answer child ?_ ?_ ?_ ?_ ?_⟩
      · rw [pc]
        exact Nat.le_refl _
      · rfl
      · rfl
      · rfl
      · rw [type]
        exact Nat.le_refl _
    next =>
      cases taken
      exact absurd rfl cs
  | @doneHandled q m l out pc taken type =>
    have taken := (@handleCsRequests_eq cfg p q m _).symm.trans taken
    rw [if_neg (by simp [type])] at taken
    cases taken
    refine ⟨1, Prices.pays_received child ?_ rfl rfl (one_le_ticks _ _)⟩
    exact Nat.le_trans (Nat.le_of_eq (Prices.work_finalLoop _ _ _ _)) (Nat.zero_le _)
  | handleWait pc => exact ⟨0, Prices.pays_still child (Nat.le_refl _) (Nat.le_refl _) rfl⟩

/-- Every message is stamped after the clock has been advanced. -/
theorem stamped (step : LocalStep cfg mutex p (v.loc p) input next) :
    ∀ x ∈ next.2, 0 < x.2.localTime := by
  have multicast {dsts : List Nat} {type : MessageType} {t : Nat} :
      ∀ x ∈ dsts.map (fun dst => (dst, (⟨type, advanceLamportTime t⟩ : Message))),
        0 < x.2.localTime := by
    intro x mem
    obtain ⟨_, _, rfl⟩ := List.mem_map.mp mem
    exact Nat.succ_pos _
  have asked {l l' : Locals} {out : Sends} (requested : requestCs cfg p l = some (l', out)) :
      ∀ x ∈ out, 0 < x.2.localTime := by
    by_cases vacant : queueLookup l.mux.queue p = emptyRequestTime
    · cases (requestCs_of_vacant vacant).symm.trans requested
      exact multicast
    · cases (requestCs_of_queued vacant).symm.trans requested
      exact nofun
  cases step with
  | syncStarted | finish => exact multicast
  | barrier | barrierWait | barrierEnd | doneHandled | handleWait => exact nofun
  | request pc more requested => exact asked requested
  | doneServed pc taken type retried => exact asked retried
  | served pc taken cs =>
    rcases requestCsTake_some taken with ⟨l₁, out₁, serves, test⟩ | ⟨-, nonCs, -, -⟩
    · obtain rfl : _ = out₁ := (congrArg (fun x => x.2.2) test).trans (enterIf_sends _ _ l₁ out₁)
      cases serves with
      | reply | defer => exact nofun
      | answer =>
        intro x mem
        rw [List.mem_singleton.mp mem]
        exact Nat.succ_pos _
    · exact absurd nonCs cs
  | idle pc found =>
    cases found
    exact nofun
  | release pc released =>
    obtain ⟨-, times, -⟩ := releaseCs_paid p.2 released
    exact fun x mem => (times x mem).1
  | @handled q m verdict l out pc taken cs =>
    have taken := (@handleCsRequests_eq cfg p q m _).symm.trans taken
    split at taken
    next =>
      cases taken
      intro x mem
      rw [List.mem_singleton.mp mem]
      exact Nat.succ_pos _
    next =>
      cases taken
      exact nofun

end Pays

/-! ## Every run -/

/-- The ticks of a whole run with `n` children. -/
def clockLimit (n : Nat) : Nat := (prices n).clockLimit n

/-- No clock and no time stamp goes beyond the limit. -/
theorem clock_le (r : MutexRun cfg mutex) :
    (∀ p, (r.final.loc p).lamportTime ≤ clockLimit cfg.numChildren) ∧
      ∀ p q, ∀ m ∈ r.final.transit p q, m.localTime ≤ clockLimit cfg.numChildren := by
  have empty (p : Nat) : storedIn (peers cfg.numChildren p) (mutexInit cfg p).queue = 0 :=
    Finset.sum_eq_zero fun a _ => rfl
  have nothing (p : Nat) : 2 * storedIn (peers cfg.numChildren p) (mutexInit cfg p).queue = 0 := by
    rw [empty]
  obtain ⟨K, within⟩ := Prices.within_limit unfailing nothing (one_le_ticks _)
    (fun r p input next child ready step => by
      obtain ⟨control, -, refined, -⟩ := matched r
      exact refined.pays (p := ⟨p, child⟩) control ready step) r
  exact Prices.clock_le within

theorem transit_stamped (r : MutexRun cfg mutex) :
    ∀ a b, ∀ m ∈ r.final.view.chan a b, 0 < m.localTime := by
  have keep {v : ProcessView Mux} {p : Nat} {input : Option (Nat × Message)}
      {next : Next Nat (Process Mux) Message} (inv : ∀ a b, ∀ m ∈ v.chan a b, 0 < m.localTime)
      (offers : v.Offers p input) (sends : ∀ x ∈ next.2, 0 < x.2.localTime) :
      ∀ a b, ∀ m ∈ ((v.consume p input).become p next).chan a b, 0 < m.localTime := by
    intro a b m mem
    rw [View.consume_become_chan] at mem
    rcases List.mem_append.mp mem with mem | mem
    · exact inv a b m (offers.mem_of_consume mem)
    · split at mem
      · exact sends (b, m) (mem_outTo.mp mem)
      · cases mem
  refine MutexRun.induction (J := fun v => ∀ a b, ∀ m ∈ v.chan a b, 0 < m.localTime)
    unfailing ?_ ?_ ?_ r
  · exact fun _ _ _ mem => absurd mem List.not_mem_nil
  · intro r p input next inv child ready step
    exact keep inv ready.offers (stamped (v := r.final.view) (p := ⟨p, child⟩) step)
  · intro r input st inv offers _ _
    exact keep inv offers (by simp)

theorem clockLimit_le {n : Nat} (few : n ≤ 15) : clockLimit n ≤ int16Max := by
  revert n
  decide +kernel

/-- With 15 children at most no clock and no time stamp overflows, and no request has the time of an
empty slot. -/
theorem ricart_clocks_bounded (few : cfg.numChildren ≤ 15) (r : MutexRun cfg mutex) :
    (∀ p, (r.final.loc p).lamportTime ≤ int16Max) ∧
      (∀ p q, ∀ m ∈ r.final.transit p q,
        m.localTime ≤ int16Max ∧ m.localTime ≠ emptyRequestTime) ∧
      ∀ p, IsChild cfg.numChildren p → (r.final.loc p).pc.phase ≠ .idle →
        own p (r.final.loc p) ≠ emptyRequestTime := by
  obtain ⟨clocks, stamps⟩ := clock_le r
  have limit := clockLimit_le few
  refine ⟨fun p => (clocks p).trans limit, fun p q m mem => ⟨?_, ?_⟩, ?_⟩
  · exact (stamps p q m mem).trans limit
  · exact Nat.ne_of_gt (transit_stamped r p q m mem)
  · intro p child active
    obtain ⟨-, -, refined, -⟩ := matched r
    exact (refined.inv.grants.standing ⟨p, child⟩).mpr active

theorem ricart_clocks_bounded_two :
    ∃ r : MutexRun twoChildren mutex, (r.final.loc 1).pc = .criticalSection 1 ∧
      (∀ p, (r.final.loc p).lamportTime ≤ int16Max) ∧
      own 1 (r.final.loc 1) ≠ emptyRequestTime := by
  have check : ((initialState twoChildren mutex).follow? (spawnChildren twoChildren mutex true)
      (bothAsk ++ [.send 2, .take 2 1, .send 2, .take 1 2, .take 1 2])).any
      (fun s => (s.loc 1).pc = .criticalSection 1) = true := by
    decide +kernel
  obtain ⟨s, ts, -, run, check⟩ := State.run_of_follow? check
  have inside : (s.loc 1).pc = .criticalSection 1 := of_decide_eq_true check
  have bounded := @ricart_clocks_bounded twoChildren (by decide) ⟨_, s, run⟩
  refine ⟨⟨_, s, run⟩, inside, bounded.1, bounded.2.2 1 (by decide) ?_⟩
  rw [inside]
  exact nofun

end Distra.Pa5
