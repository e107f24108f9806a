import Distra.Network.Potential
import Distra.Pa4.Parent

/-!
# The ticks of `child_entry`

How far the clocks can go: two multicasts and the critical sections. What a message and a critical
section lead to depends on the mutex (`Prices`). The receipt of a message is one tick at least.
-/

namespace Distra

open Network

variable {μ : Type} {cfg : Config} {M : MutexCode μ}

theorem synchronizeTime_le {r t K : Nat} (received : r ≤ K) (clock : t ≤ K) :
    synchronizeTime r t ≤ K + 1 := by
  rw [synchronizeTime_eq_max]
  omega

/-- What the parts of a run lead to, in ticks. -/
structure Prices where
  /-- A message on its way. -/
  ticks : MessageType → Nat
  /-- A critical section. -/
  entry : Nat
  /-- The part of it that is left once it has been requested. -/
  release : Nat

namespace Prices

section Definitions

variable (prices : Prices) (n : Nat)

/-- A multicast to all other processes. -/
def multicast (type : MessageType) : Nat := 1 + n * prices.ticks type

/-- The rest of `child_entry`. -/
def work (self : Nat) : Pc → Nat
  | .childSyncStarted =>
    5 * self * prices.entry + prices.multicast n .done + prices.multicast n .started
  | .awaitAllStarted _ => 5 * self * prices.entry + prices.multicast n .done
  | .iteration i => (5 * self + 1 - i) * prices.entry + prices.multicast n .done
  | .requestCs i | .criticalSection i =>
    (5 * self - i) * prices.entry + prices.multicast n .done + prices.release
  | _ => 0

/-- A whole run with `n` children. -/
def clockLimit : Nat :=
  ∑ p ∈ Finset.range (n + 1), if p = parentId then 0 else prices.work n p .childSyncStarted

/-- The budget with `held` for what the mutex still owes. -/
def budget (held : Nat → μ → Nat) : Budget Nat (Process μ) Message where
  procs := Finset.range (n + 1)
  clock := Process.lamportTime
  time := Message.localTime
  work p st := if p = parentId then 0 else prices.work n p st.pc + held p st.mux
  cost m := prices.ticks m.type

end Definitions

theorem work_finalLoop (prices : Prices) (n p : Nat) (awaiting : Int) :
    prices.work n p (finalLoop awaiting) = 0 := by
  unfold finalLoop
  split <;> rfl

section Pays

variable {prices : Prices} {n : Nat} {held : Nat → μ → Nat} {p : Nat} {st st' : Process μ}
  {input : Option (Nat × Message)} {next : Next Nat (Process μ) Message} {q k : Nat} {m : Message}
  {out : Sends}

theorem mem_procs (le : p ≤ n) : p ∈ (prices.budget n held).procs :=
  Finset.mem_range.mpr (Nat.lt_succ_iff.mpr le)

theorem budget_work (child : p ≠ parentId) (st : Process μ) :
    (prices.budget n held).work p st = prices.work n p st.pc + held p st.mux := if_neg child

theorem outCost_none :
    (prices.budget n held).outCost (none : Option (Nat × Message)).toList = 0 := rfl

theorem outCost_nil : (prices.budget n held).outCost [] = 0 := rfl

theorem outCost_single : (prices.budget n held).outCost [(q, m)] = prices.ticks m.type :=
  Nat.add_zero _

theorem outCost_eq (same : ∀ x ∈ out, prices.ticks x.2.type = k) :
    (prices.budget n held).outCost out = out.length * k := by
  have costs : ∀ x ∈ out, (prices.budget n held).cost x.2 = k := same
  rw [Budget.outCost, List.map_congr_left costs, List.map_const', List.sum_replicate_nat]

theorem outCost_map (dsts : List Nat) (m : Message) :
    (prices.budget n held).outCost (dsts.map fun dst => (dst, m)) =
      dsts.length * prices.ticks m.type := by
  rw [outCost_eq, List.length_map]
  intro x mem
  obtain ⟨_, _, rfl⟩ := List.mem_map.mp mem
  rfl

/-- The clock after the receipt of a message. -/
theorem clock_received {t : Nat} (le : t ≤ synchronizeTime m.localTime st.lamportTime + k) :
    ∀ K, st.lamportTime ≤ K → (∀ x ∈ some (q, m), x.2.localTime ≤ K) → t ≤ K + (k + 1) := by
  intro K clock received
  have : synchronizeTime m.localTime st.lamportTime ≤ K + 1 :=
    synchronizeTime_le (received (q, m) rfl) clock
  omega

/-- A multicast after one tick. -/
theorem pays_multicast (child : p ≠ parentId) (dsts : List Nat) {type : MessageType}
    (clock : st'.lamportTime = advanceLamportTime st.lamportTime)
    (kept : held p st'.mux = held p st.mux)
    (paid : 1 + prices.work n p st'.pc + dsts.length * prices.ticks type ≤
      prices.work n p st.pc) :
    (prices.budget n held).Pays p st none (st', dsts.map fun dst =>
      (dst, (⟨type, advanceLamportTime st.lamportTime⟩ : Message))) 1 where
  clock K le _ := by
    have le : st.lamportTime ≤ K := le
    change st'.lamportTime ≤ K + 1
    rw [clock]
    exact Nat.succ_le_succ le
  times x mem := by
    obtain ⟨_, _, rfl⟩ := List.mem_map.mp mem
    exact clock.ge
  paid := by
    rw [budget_work child, budget_work child, outCost_none, outCost_map, kept]
    dsimp only
    omega

theorem pays_syncStarted (child : IsChild cfg.numChildren p) (pc : st.pc = .childSyncStarted) :
    (prices.budget cfg.numChildren held).Pays p st none (childSyncStarted cfg p st) 1 := by
  refine pays_multicast child.ne_parent (otherProcesses cfg.numChildren p) rfl rfl ?_
  rw [pc, length_otherProcesses child.2]
  simp only [work, multicast]
  omega

/-- A request sets aside what is left of its critical section. -/
theorem pays_request (child : IsChild n p) {i t : Nat} (pc : st.pc = .iteration i)
    (more : i ≤ 5 * p) {l : Local μ} (clock : t = advanceLamportTime st.lamportTime)
    (time : l.lamportTime = t) (kept : held p l.mux = held p st.mux)
    (enough : 1 + (n - 1) * prices.ticks .csRequest + prices.release ≤ prices.entry) :
    (prices.budget n held).Pays p st none
      (st.at_ (.requestCs i) l, ipcMulticastToChildren n p ⟨.csRequest, t⟩) 1 := by
  subst clock
  refine pays_multicast child.ne_parent (otherChildren n p) time kept ?_
  have price : (5 * p + 1 - i) * prices.entry = (5 * p - i) * prices.entry + prices.entry := by
    rw [Nat.sub_add_comm more, Nat.succ_mul]
  rw [pc, length_otherChildren child]
  simp only [Process.at_, work, price]
  omega

theorem pays_finish (child : IsChild cfg.numChildren p) {i : Nat} (pc : st.pc = .iteration i) :
    (prices.budget cfg.numChildren held).Pays p st none (childSendDone cfg true p st) 1 := by
  refine pays_multicast child.ne_parent (otherProcesses cfg.numChildren p) rfl rfl ?_
  rw [pc, length_otherProcesses child.2]
  simp only [if_true, work_finalLoop]
  simp only [work, multicast]
  omega

/-- A step without a message that leaves the clock alone. -/
theorem pays_still (child : p ≠ parentId)
    (same : prices.work n p st'.pc ≤ prices.work n p st.pc)
    (kept : held p st'.mux ≤ held p st.mux) (clock : st'.lamportTime = st.lamportTime) :
    (prices.budget n held).Pays p st none (st', []) 0 where
  clock K le _ := Nat.le_trans (Nat.le_of_eq clock) le
  times := nofun
  paid := by
    rw [budget_work child, budget_work child, outCost_nil, outCost_none]
    dsimp only
    omega

/-- A message that makes the clock go on, and leads to an answer, to a debt or to neither. -/
theorem pays_taken (child : p ≠ parentId)
    (same : prices.work n p st'.pc ≤ prices.work n p st.pc)
    (clock : st'.lamportTime = synchronizeTime m.localTime st.lamportTime + k)
    (times : ∀ x ∈ out, x.2.localTime ≤ st'.lamportTime)
    (paid : k + 1 + held p st'.mux + (prices.budget n held).outCost out ≤
      held p st.mux + prices.ticks m.type) :
    (prices.budget n held).Pays p st (some (q, m)) (st', out) (k + 1) where
  clock := clock_received (Nat.le_of_eq clock)
  times := times
  paid := by
    rw [budget_work child, budget_work child, Option.toList_some, outCost_single]
    dsimp only
    omega

/-- A message that makes nothing but the clock go on. -/
theorem pays_received (child : p ≠ parentId)
    (same : prices.work n p st'.pc ≤ prices.work n p st.pc)
    (kept : held p st'.mux = held p st.mux)
    (clock : st'.lamportTime = synchronizeTime m.localTime st.lamportTime + k)
    (enough : k + 1 ≤ prices.ticks m.type) :
    (prices.budget n held).Pays p st (some (q, m)) (st', []) (k + 1) := by
  refine pays_taken child same clock (fun _ mem => absurd mem List.not_mem_nil) ?_
  rw [outCost_nil, kept]
  omega

/-- A message that is answered with the next clock value. -/
theorem pays_answer (child : p ≠ parentId)
    (same : prices.work n p st'.pc ≤ prices.work n p st.pc)
    (kept : held p st'.mux = held p st.mux) {dst t : Nat} {type : MessageType}
    (time : t = advanceLamportTime (synchronizeTime m.localTime st.lamportTime))
    (clock : st'.lamportTime = t) (two : 2 + prices.ticks type ≤ prices.ticks m.type) :
    (prices.budget n held).Pays p st (some (q, m)) (st', [(dst, ⟨type, t⟩)]) 2 := by
  refine pays_taken (k := 1) child same (clock.trans time) ?_ ?_
  · intro x mem
    rw [List.mem_singleton.mp mem]
    exact clock.ge
  · rw [outCost_single, kept]
    change 1 + 1 + held p st.mux + prices.ticks type ≤ _
    omega

theorem pays_parent (one : ∀ type, 1 ≤ prices.ticks type) (step : ParentStep n st input st') :
    ∃ ticks, (prices.budget n held).Pays parentId st input (st', []) ticks := by
  have free (st : Process μ) : (prices.budget n held).work parentId st = 0 := by simp [budget]
  cases step with
  | started | done =>
    refine ⟨1, clock_received (k := 0) (Nat.le_refl _), nofun, ?_⟩
    rw [free, free, outCost_nil, Option.toList_some, outCost_single, Nat.zero_add]
    exact one _
  | allStarted | allDone | blocked =>
    refine ⟨0, fun K clock _ => clock, nofun, ?_⟩
    simp only [free]
    exact Nat.le_refl _
  | unexpected =>
    refine ⟨0, fun K clock _ => clock, nofun, ?_⟩
    rw [free, free, outCost_nil]
    exact Nat.zero_le _

end Pays

/-! ## Every run -/

section Run

variable {prices : Prices} {held : Nat → μ → Nat}

theorem potential_initial (nothing : ∀ p, held p (M.mutexInit cfg p) = 0) :
    (prices.budget cfg.numChildren held).potential (initialState cfg M).view =
      prices.clockLimit cfg.numChildren := by
  have traffic : ∑ b ∈ (prices.budget cfg.numChildren held).procs,
      ∑ a ∈ (prices.budget cfg.numChildren held).procs,
        (prices.budget cfg.numChildren held).total ((initialState cfg M).view.chan a b) = 0 :=
    Finset.sum_eq_zero fun b _ => Finset.sum_eq_zero fun a _ => rfl
  rw [Budget.potential, traffic, Nat.add_zero, clockLimit]
  refine Finset.sum_congr rfl fun p _ => ?_
  by_cases parent : p = parentId
  · simp [budget, parent]
  · have pc : ((initialState cfg M).view.loc p).pc = .childSyncStarted := by
      simp [initialState, initialProcess, parent]
    have mux : held p ((initialState cfg M).view.loc p).mux = 0 := nothing p
    rw [budget_work parent, pc, mux, if_neg parent]
    rfl

/-- Where every step of a child is paid for, the clocks stay within the limit. -/
theorem within_limit (unfailing : ∀ r : MutexRun cfg M, Unfailing cfg M r.final)
    (nothing : ∀ p, held p (M.mutexInit cfg p) = 0) (one : ∀ type, 1 ≤ prices.ticks type)
    (pays : ∀ (r : MutexRun cfg M) p input next, IsChild cfg.numChildren p →
      Ready cfg r.final.view p input → LocalStep cfg M p (r.final.loc p) input next →
      ∃ ticks, (prices.budget cfg.numChildren held).Pays p (r.final.loc p) input next ticks)
    (r : MutexRun cfg M) :
    ∃ K, (prices.budget cfg.numChildren held).Within (prices.clockLimit cfg.numChildren)
      r.final.view K := by
  refine MutexRun.induction (M := M) (J := fun v => ∃ K,
    (prices.budget cfg.numChildren held).Within (prices.clockLimit cfg.numChildren) v K)
    unfailing ?_ ?_ ?_ r
  · refine ⟨0, fun _ => Nat.le_refl 0, fun _ _ _ mem => absurd mem List.not_mem_nil, ?_⟩
    rw [potential_initial nothing, Nat.zero_add]
  · rintro r p input next ⟨K, within⟩ child ready step
    obtain ⟨ticks, paid⟩ := pays r p input next child ready step
    exact ⟨K + ticks, within.step _ (mem_procs child.2) ready.offers
      (fun x mem => mem_procs (ready.le x mem)) paid⟩
  · rintro r input st ⟨K, within⟩ offers sources step
    obtain ⟨ticks, paid⟩ := pays_parent one step
    exact ⟨K + ticks, within.step _ (mem_procs (parent_le _)) offers
      (fun x mem => mem_procs (sources x mem)) paid⟩

/-- No clock and no time stamp goes beyond the limit. -/
theorem clock_le {K : Nat} {r : MutexRun cfg M}
    (within : (prices.budget cfg.numChildren held).Within (prices.clockLimit cfg.numChildren)
      r.final.view K) :
    (∀ p, (r.final.loc p).lamportTime ≤ prices.clockLimit cfg.numChildren) ∧
      ∀ p q, ∀ m ∈ r.final.transit p q, m.localTime ≤ prices.clockLimit cfg.numChildren := by
  have limit : K ≤ prices.clockLimit cfg.numChildren :=
    (Nat.le_add_right _ _).trans within.covered
  exact ⟨fun p => (within.clock p).trans limit,
    fun p q m mem => (within.times p q m mem).trans limit⟩

end Run

end Prices

end Distra
