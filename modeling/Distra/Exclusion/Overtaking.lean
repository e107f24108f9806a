import Distra.Exclusion.Order
import Mathlib.Logic.Relation

/-!
# Overtaking

A process that has heard of a request asks with later labels from then on. So it can be granted
at most one more request before the one that it has heard of, the one that stands already.
-/

namespace Distra.Exclusion.Grants

open Function Relation

variable {P : Type*}

section

variable [DecidableEq P]

/-- The requests of `p` that have been granted. -/
def entries (s : Grants P) (p : P) : ℕ := s.served.countP (fun l => (ofLex l).2 = p)

theorem entries_enter (s : Grants P) (p a : P) :
    (s.enter p).entries a = s.entries a + if p = a then 1 else 0 := by
  by_cases eq : p = a <;> simp [entries, enter, label, eq]

end

variable [LinearOrder P] [DecidableEq P]

/-- `i` waits, `j` has heard of its request, and is granted `b` requests before it at most. -/
structure Watch (s : Grants P) (i j : P) (b : ℕ) : Prop where
  waiting : s.phase i = .waiting
  heard : s.request i ≤ s.clock j
  bound : s.entries j + (if s.phase j = .waiting ∧ s.label j < s.label i then 1 else 0) ≤ b

variable {s s' : Grants P} {i j p : P} {b : ℕ}

omit [DecidableEq P] in
theorem not_label_lt (h : s.request i < s.request j) : ¬s.label j < s.label i :=
  fun lt => absurd (lt.trans (lt_label_of_time_lt (l := s.label i) h)) (lt_irrefl _)

theorem Step.entries_le (step : Step s s') (a : P) : s.entries a ≤ s'.entries a := by
  cases step with
  | enter =>
    rw [entries_enter]
    exact Nat.le_add_right _ _
  | tick | ask | leave => exact le_rfl

theorem entries_le_of_steps (steps : ReflTransGen Step s s') (a : P) :
    s.entries a ≤ s'.entries a := by
  induction steps with
  | refl => exact le_rfl
  | tail _ step ih => exact ih.trans (step.entries_le a)

namespace Watch

/-- The request that `j` has made itself may come first. -/
theorem start (waiting : s.phase i = .waiting) (heard : s.request i ≤ s.clock j) :
    s.Watch i j (s.entries j + 1) := by
  refine ⟨waiting, heard, ?_⟩
  split <;> omega

theorem mono (h : s.Watch i j b) {c : ℕ} (le : b ≤ c) : s.Watch i j c :=
  ⟨h.waiting, h.heard, h.bound.trans le⟩

theorem tick (h : s.Watch i j b) {t : ℕ} (le : s.clock p ≤ t) : (s.tick p t).Watch i j b := by
  refine ⟨h.waiting, h.heard.trans ?_, h.bound⟩
  by_cases eq : j = p
  · subst eq
    simpa [Grants.tick] using le
  · simp [Grants.tick, eq]

/-- A step of another process than `i` and `j`. -/
theorem same (h : s.Watch i j b) (served : s'.served = s.served)
    (phase : s'.phase i = s.phase i) (request : s'.request i = s.request i)
    (clock : s'.clock j = s.clock j) (phase' : s'.phase j = s.phase j)
    (request' : s'.request j = s.request j) : s'.Watch i j b := by
  refine ⟨phase.trans h.waiting, ?_, ?_⟩
  · rw [request, clock]
    exact h.heard
  · have entries : s'.entries j = s.entries j := by simp only [Grants.entries, served]
    rw [entries, phase', label_congr request', label_congr request]
    exact h.bound

theorem ask (h : s.Watch i j b) {t : ℕ} (idle : s.phase p = .idle) (lt : s.clock p < t) :
    (s.ask p t).Watch i j b := by
  have ne : i ≠ p := by
    rintro rfl
    exact absurd (h.waiting.symm.trans idle) (by simp)
  by_cases eq : j = p
  · subst eq
    have request : (s.ask j t).request i = s.request i := by simp [Grants.ask, ne]
    have own : (s.ask j t).request j = t := by simp [Grants.ask]
    have clock : (s.ask j t).clock j = t := by simp [Grants.ask]
    have later : s.request i < t := h.heard.trans_lt lt
    refine ⟨by simpa [Grants.ask, ne] using h.waiting, ?_, ?_⟩
    · rw [request, clock]
      exact later.le
    · have second : ¬(s.ask j t).label j < (s.ask j t).label i := by
        refine not_label_lt ?_
        rw [request, own]
        exact later
      rw [if_neg fun k => second k.2]
      exact (Nat.le_add_right _ _).trans h.bound
  · refine h.same rfl ?_ ?_ ?_ ?_ ?_ <;> simp [Grants.ask, ne, eq]

/-- Whoever enters comes before `i`. -/
theorem enter (h : s.Watch i j b) (ne : p ≠ i) (waiting : s.phase p = .waiting)
    (first : s.First p) : (s.enter p).Watch i j b := by
  have still : (s.enter p).phase i = .waiting := by
    simpa [Grants.enter, ne.symm] using h.waiting
  refine ⟨still, h.heard, ?_⟩
  rw [entries_enter]
  by_cases eq : p = j
  · subst eq
    have before : s.label p < s.label i := first.least i ne.symm (by simp [h.waiting])
    have bound := h.bound
    rw [if_pos ⟨waiting, before⟩] at bound
    have inside : ¬(s.enter p).phase p = .waiting := by simp [Grants.enter]
    rw [if_pos rfl, if_neg fun k => inside k.1]
    exact bound
  · have phase : (s.enter p).phase j = s.phase j := by simp [Grants.enter, Ne.symm eq]
    rw [if_neg eq, phase]
    exact h.bound

theorem leave (h : s.Watch i j b) {t : ℕ} (inside : s.phase p = .inside) (le : s.clock p ≤ t) :
    (s.leave p t).Watch i j b := by
  have ne : i ≠ p := by
    rintro rfl
    exact absurd (h.waiting.symm.trans inside) (by simp)
  by_cases eq : j = p
  · subst eq
    refine ⟨by simpa [Grants.leave, ne] using h.waiting, ?_, ?_⟩
    · simpa [Grants.leave, ne] using h.heard.trans le
    · have idle : ¬(s.leave j t).phase j = .waiting := by simp [Grants.leave]
      rw [if_neg fun k => idle k.1]
      exact (Nat.le_add_right _ _).trans h.bound
  · refine h.same rfl ?_ ?_ ?_ ?_ ?_ <;> simp [Grants.leave, ne, eq]

theorem step (h : s.Watch i j b) (step : Step s s') (same : s'.entries i = s.entries i) :
    s'.Watch i j b := by
  cases step with
  | tick le => exact h.tick le
  | ask idle lt => exact h.ask idle lt
  | enter waiting first =>
    refine h.enter ?_ waiting first
    rintro rfl
    rw [entries_enter, if_pos rfl] at same
    omega
  | leave inside le => exact h.leave inside le

/-- The bound stands until `i` enters. -/
theorem steps (h : s.Watch i j b) (steps : ReflTransGen Step s s')
    (same : s'.entries i = s.entries i) : s'.Watch i j b := by
  induction steps with
  | refl => exact h
  | @tail mid after earlier last ih =>
    have upTo := entries_le_of_steps earlier i
    have from_ := last.entries_le i
    exact (ih (by omega)).step last (by omega)

end Watch

end Distra.Exclusion.Grants
