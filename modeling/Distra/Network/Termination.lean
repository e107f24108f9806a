import Distra.Network.Traffic
import Mathlib.Data.List.Sublists

/-!
# Runs that come to an end

A poll in vain may leave everything as it was, and be repeated for ever. Where every other step
raises a measure with a bound, a run has only so many of them. Wherever it stands, it can be
continued to a state in which nothing is left but polls in vain.
-/

namespace Distra.Network

variable {P σ M : Type} [DecidableEq P]

/-- A poll or receive in vain that leaves everything as it was. -/
def Transition.Idle (t : Transition P σ M) : Prop :=
  (∃ p, t.event = .empty p) ∧ t.after = t.before

/-- Some process can do more than poll in vain. -/
def State.CanStep (code : Code P σ M) (s : State P σ M) : Prop :=
  ∃ e s', Step code s e s' ∧ ¬Transition.Idle ⟨s, e, s'⟩

section Stopped

variable {code : Code P σ M} {s s' : State P σ M} {e : Event P M} {p : P}

/-- A step changes the local state of one process. -/
theorem Step.loc_of_ne (step : Step code s e s') (ne : p ≠ e.actor) : s'.loc p = s.loc p := by
  cases step with
  | send => rfl
  | _ => exact Function.update_of_ne ne _ _

/-- A process that has stopped writes what is in its buffer, and does nothing else. -/
theorem Step.loc_of_stop (step : Step code s e s') (stopped : code p (s.loc p) = .stop) :
    s'.loc p = s.loc p := by
  by_cases actor : p = e.actor
  · subst actor
    cases step with
    | send => rfl
    | act _ entry | poll _ entry | pollEmpty _ entry | receive _ entry | receiveEmpty _ entry =>
      cases stopped.symm.trans entry
  · exact step.loc_of_ne actor

theorem Run.loc_of_stop {ts : List (Transition P σ M)} (run : Run code s ts s')
    (stopped : code p (s.loc p) = .stop) : s'.loc p = s.loc p := by
  induction run with
  | nil => rfl
  | snoc _ step ih => rw [step.loc_of_stop (by rw [ih, stopped]), ih]

end Stopped

/-! ## Measures -/

/-- No step lowers the measure of the runs from `s₀`, and only an idle one does not raise it. -/
structure Climbs (code : Code P σ M) (s₀ : State P σ M) (idle : Transition P σ M → Prop)
    (measure : List (Transition P σ M) → State P σ M → Nat) : Prop where
  le : ∀ {ts s e s'}, Run code s₀ ts s → Step code s e s' →
    measure ts s ≤ measure (ts ++ [⟨s, e, s'⟩]) s'
  lt : ∀ {ts s e s'}, Run code s₀ ts s → Step code s e s' → ¬idle ⟨s, e, s'⟩ →
    measure ts s < measure (ts ++ [⟨s, e, s'⟩]) s'

section Climbs

variable {code : Code P σ M} {s₀ s s' : State P σ M} {idle : Transition P σ M → Prop}
  {measure : List (Transition P σ M) → State P σ M → Nat} {ts ts' : List (Transition P σ M)}

/-- The steps of a run that are not idle are counted by the measure. -/
theorem Climbs.length_le (h : Climbs code s₀ idle measure) (run : Run code s₀ ts s)
    {l : List (Transition P σ M)} (sub : l.Sublist ts) (busy : ∀ t ∈ l, ¬idle t) :
    l.length ≤ measure ts s := by
  induction run generalizing l with
  | nil =>
    rw [List.eq_nil_of_sublist_nil sub]
    exact Nat.zero_le _
  | snoc run step ih =>
    obtain ⟨l₁, l₂, rfl, sub₁, sub₂⟩ := List.sublist_append_iff.mp sub
    have before := ih sub₁ fun t mem => busy t (List.mem_append_left _ mem)
    rw [List.length_append]
    rcases List.sublist_singleton.mp sub₂ with rfl | rfl
    · exact before.trans (h.le run step)
    · exact (Nat.succ_le_succ before).trans (h.lt run step (busy _ (by simp)))

theorem Climbs.mono (h : Climbs code s₀ idle measure) (run : Run code s₀ ts s)
    (run' : Run code s ts' s') : measure ts s ≤ measure (ts ++ ts') s' := by
  induction run' with
  | nil => rw [List.append_nil]
  | snoc before step ih =>
    rw [← List.append_assoc]
    exact ih.trans (h.le (run.trans before) step)

/-- A run that goes on with a step that is not idle. -/
theorem Climbs.lt_of_busy (h : Climbs code s₀ idle measure) (run : Run code s₀ ts s)
    (run' : Run code s ts' s') (busy : ∃ t ∈ ts', ¬idle t) :
    measure ts s < measure (ts ++ ts') s' := by
  induction run' with
  | nil => simp at busy
  | snoc before step ih =>
    obtain ⟨t, mem, busy⟩ := busy
    rw [← List.append_assoc]
    rcases List.mem_append.mp mem with mem | mem
    · exact (ih ⟨t, mem, busy⟩).trans_le (h.le (run.trans before) step)
    · rw [List.mem_singleton.mp mem] at busy
      exact (h.mono run before).trans_lt (h.lt (run.trans before) step busy)

/-- Where the measure has a bound, and every good state that has not stopped leads to a good one
by a step that is not idle, every good state leads to one that has stopped. -/
theorem Climbs.exists_stopped (h : Climbs code s₀ idle measure) {bound : Nat}
    (bounded : ∀ ts s, Run code s₀ ts s → measure ts s ≤ bound) (good stopped : State P σ M → Prop)
    (goesOn : ∀ ts s, Run code s₀ ts s → good s → ¬stopped s →
      ∃ ts' s', Run code s ts' s' ∧ (∃ t ∈ ts', ¬idle t) ∧ good s')
    (run : Run code s₀ ts s) (start : good s) :
    ∃ ts' s', Run code s ts' s' ∧ good s' ∧ stopped s' := by
  generalize left : bound - measure ts s = k
  induction k using Nat.strong_induction_on generalizing ts s with
  | _ k ih =>
    by_cases still : stopped s
    · exact ⟨[], s, .nil, start, still⟩
    · obtain ⟨ts₁, s₁, run₁, busy, good₁⟩ := goesOn ts s run start still
      have raised := h.lt_of_busy run run₁ busy
      have room := bounded _ _ (run.trans run₁)
      obtain ⟨ts₂, s₂, run₂, end_⟩ := ih _ (by omega) (run.trans run₁) good₁ rfl
      exact ⟨_, s₂, run₁.trans run₂, end_⟩

/-- A bounded measure leads to a state with no step left but polls in vain. -/
theorem Climbs.exists_settled (h : Climbs code s₀ Transition.Idle measure) {bound : Nat}
    (bounded : ∀ ts s, Run code s₀ ts s → measure ts s ≤ bound) (run : Run code s₀ ts s) :
    ∃ ts' s', Run code s ts' s' ∧ ¬s'.CanStep code := by
  obtain ⟨ts', s', run', -, still⟩ := h.exists_stopped bounded (fun _ => True)
    (fun s => ¬s.CanStep code) (fun _ s _ _ moves => by
      obtain ⟨e, s', step, busy⟩ := not_not.mp moves
      exact ⟨_, s', Run.nil.snoc step, ⟨_, List.mem_append_right _ (List.mem_singleton_self _),
        busy⟩, trivial⟩) run trivial
  exact ⟨ts', s', run', still⟩

end Climbs

/-! ## Messages and ranks -/

/-- The number of messages written to and taken from the channels of `C`. -/
def volume (C : Finset (P × P)) (ts : List (Transition P σ M)) : Nat :=
  ∑ c ∈ C, ((written ts c.1 c.2).length + (taken ts c.2 c.1).length)

section Volume

variable {C : Finset (P × P)} {ts : List (Transition P σ M)} {s s' : State P σ M}

theorem volume_snoc (C : Finset (P × P)) (ts : List (Transition P σ M)) (t : Transition P σ M) :
    volume C (ts ++ [t]) = volume C ts + ∑ c ∈ C,
      ((t.event.written c.1 c.2).toList.length + (t.event.taken c.2 c.1).toList.length) := by
  rw [volume, volume, ← Finset.sum_add_distrib]
  refine Finset.sum_congr rfl fun c _ => ?_
  rw [written_snoc, taken_snoc, List.length_append, List.length_append]
  omega

theorem volume_le_snoc (C : Finset (P × P)) (ts : List (Transition P σ M))
    (t : Transition P σ M) : volume C ts ≤ volume C (ts ++ [t]) :=
  volume_snoc C ts t ▸ Nat.le_add_right _ _

theorem volume_lt_send {p q : P} (m : M) (channel : (p, q) ∈ C) :
    volume C ts < volume C (ts ++ [⟨s, .send p q m, s'⟩]) := by
  rw [volume_snoc]
  refine Nat.lt_add_of_pos_right (Finset.sum_pos' (fun _ _ => Nat.zero_le _) ⟨_, channel, ?_⟩)
  simp [Event.written]

theorem volume_lt_take {p q : P} (m : M) (channel : (q, p) ∈ C) :
    volume C ts < volume C (ts ++ [⟨s, .take p q m, s'⟩]) := by
  rw [volume_snoc]
  refine Nat.lt_add_of_pos_right (Finset.sum_pos' (fun _ _ => Nat.zero_le _) ⟨_, channel, ?_⟩)
  simp [Event.taken]

/-- The messages of a run that it has written or taken are sent first. -/
theorem volume_le_sent {code : Code P σ M} {s₀ : State P σ M} (run : Run code s₀ ts s)
    (empty : ∀ a b, s₀.chan a b = []) :
    volume C ts ≤ ∑ c ∈ C, 2 * ((traffic ts s).sent c.1 c.2).length := by
  refine Finset.sum_le_sum fun c _ => ?_
  have fifo := congrArg List.length (run.fifo (empty c.1 c.2))
  have sent := congrArg List.length (map_snd_sent ts s c.1 c.2)
  rw [List.length_append] at fifo sent
  rw [List.length_map] at sent
  omega

/-- The messages of a step add to what has been sent. -/
theorem sum_sent_step (t : Traffic P σ M) {p : P} (input : Option (P × M)) {next : Next P σ M}
    (sends : ∀ x ∈ next.2, (p, x.1) ∈ C) :
    ∑ c ∈ C, ((t.step p input next).sent c.1 c.2).length =
      ∑ c ∈ C, (t.sent c.1 c.2).length + next.2.length := by
  rw [← sum_length_outTo next.2 sends, ← Finset.sum_add_distrib]
  refine Finset.sum_congr rfl fun c _ => ?_
  simp only [Traffic.step, List.length_append, apply_ite List.length, List.length_map,
    List.length_nil]

end Volume

/-- What a step does to the rank of a run: the messages go through the channels of `C`, and a step
without a message that is not idle takes its process on. -/
structure Ranked (C : Finset (P × P)) (idle : Transition P σ M → Prop)
    (rank : List (Transition P σ M) → State P σ M → Nat)
    (ts : List (Transition P σ M)) (s : State P σ M) (e : Event P M) (s' : State P σ M) :
    Prop where
  sends : ∀ p q m, e = .send p q m → (p, q) ∈ C
  takes : ∀ p q m, e = .take p q m → (q, p) ∈ C
  le : rank ts s ≤ rank (ts ++ [⟨s, e, s'⟩]) s'
  lt : (∀ p q m, e ≠ .send p q m) → e.input = none → ¬idle ⟨s, e, s'⟩ →
    rank ts s < rank (ts ++ [⟨s, e, s'⟩]) s'

theorem Climbs.of_ranked {code : Code P σ M} {s₀ : State P σ M} {C : Finset (P × P)}
    {idle : Transition P σ M → Prop} {rank : List (Transition P σ M) → State P σ M → Nat}
    (ranked : ∀ {ts s e s'}, Run code s₀ ts s → Step code s e s' → Ranked C idle rank ts s e s') :
    Climbs code s₀ idle fun ts s => rank ts s + volume C ts where
  le run step := Nat.add_le_add (ranked run step).le (volume_le_snoc _ _ _)
  lt {ts s e s'} run step busy := by
    have steps := ranked run step
    cases e with
    | send p q m =>
      exact Nat.add_lt_add_of_le_of_lt steps.le (volume_lt_send m (steps.sends p q m rfl))
    | take p q m =>
      exact Nat.add_lt_add_of_le_of_lt steps.le (volume_lt_take m (steps.takes p q m rfl))
    | act | empty =>
      exact Nat.add_lt_add_of_lt_of_le (steps.lt nofun rfl busy) (volume_le_snoc _ _ _)

/-- The rank of a step of `p` among the processes of `S`. -/
theorem sum_rank_become (S : Finset P) (rank : P → σ → Nat) (v : View P σ M) {p : P}
    (input : Option (P × M)) (next : Next P σ M) (mem : p ∈ S) :
    ∑ a ∈ S, rank a (((v.consume p input).become p next).loc a) + rank p (v.loc p) =
      ∑ a ∈ S, rank a (v.loc a) + rank p next.1 :=
  Budget.work_step ⟨S, fun _ => 0, fun _ => 0, rank, fun _ => 0⟩ v input next mem

end Distra.Network
