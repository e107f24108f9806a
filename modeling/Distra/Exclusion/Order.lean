import Mathlib.Data.Prod.Lex
import Mathlib.Data.Set.Subsingleton
import Mathlib.Logic.Function.Basic

/-!
# Granting critical sections in the order of their requests

What Lamport's algorithm and Ricart and Agrawala's have in common, without messages. A request is
labelled with the time of its sender and the sender. It is granted when every other standing
request comes later and every clock has reached its time, so that later requests come later too.
-/

namespace Distra.Exclusion

open Function

inductive Phase where
  | idle
  | waiting
  | inside
  deriving DecidableEq

/-- Requests in the order in which they are granted. -/
abbrev Label (P : Type*) := ℕ ×ₗ P

/-- The processes, with the requests granted so far in `served`. -/
structure Grants (P : Type*) where
  clock : P → ℕ
  phase : P → Phase
  request : P → ℕ
  served : List (Label P)

namespace Grants

variable {P : Type*}

def label (s : Grants P) (p : P) : Label P := toLex (s.request p, p)

section

variable [DecidableEq P]

def tick (s : Grants P) (p : P) (t : ℕ) : Grants P := { s with clock := update s.clock p t }

def ask (s : Grants P) (p : P) (t : ℕ) : Grants P :=
  { s with
    clock := update s.clock p t
    phase := update s.phase p .waiting
    request := update s.request p t }

def enter (s : Grants P) (p : P) : Grants P :=
  { s with
    phase := update s.phase p .inside
    served := s.served ++ [s.label p] }

def leave (s : Grants P) (p : P) (t : ℕ) : Grants P :=
  { s with
    clock := update s.clock p t
    phase := update s.phase p .idle
    request := update s.request p 0 }

end

variable [LinearOrder P] [DecidableEq P]

structure First (s : Grants P) (p : P) : Prop where
  passed : ∀ q, q ≠ p → s.request p ≤ s.clock q
  least : ∀ q, q ≠ p → s.phase q ≠ .idle → s.label p < s.label q

inductive Step : Grants P → Grants P → Prop
  | tick {s p t} : s.clock p ≤ t → Step s (s.tick p t)
  | ask {s p t} : s.phase p = .idle → s.clock p < t → Step s (s.ask p t)
  | enter {s p} : s.phase p = .waiting → s.First p → Step s (s.enter p)
  | leave {s p t} : s.phase p = .inside → s.clock p ≤ t → Step s (s.leave p t)

structure Inv (s : Grants P) : Prop where
  standing : ∀ p, s.request p ≠ 0 ↔ s.phase p ≠ .idle
  stamped : ∀ p, s.request p ≤ s.clock p
  first : ∀ p, s.phase p = .inside → s.First p
  sorted : s.served.Pairwise (· < ·)
  passed : ∀ l ∈ s.served, ∀ p, (ofLex l).1 ≤ s.clock p
  pending : ∀ l ∈ s.served, ∀ p, s.phase p = .waiting → l < s.label p

omit [LinearOrder P] [DecidableEq P] in
theorem label_congr {s s' : Grants P} {p : P} (h : s'.request p = s.request p) :
    s'.label p = s.label p := by simp only [label, h]

omit [DecidableEq P] in
theorem lt_label_of_time_lt {l : Label P} {s : Grants P} {p : P} (h : (ofLex l).1 < s.request p) :
    l < s.label p := Prod.Lex.lt_iff.mpr (.inl h)

omit [DecidableEq P] in
theorem Inv.initial {s : Grants P} (idle : ∀ p, s.phase p = .idle) (none_ : ∀ p, s.request p = 0)
    (fresh : s.served = []) : s.Inv := by
  refine ⟨?_, ?_, ?_, ?_, ?_, ?_⟩
  · intro p
    simp [idle p, none_ p]
  · intro p
    simp [none_ p]
  · intro p inside
    rw [idle p] at inside
    cases inside
  · rw [fresh]
    exact .nil
  all_goals
    intro l mem
    rw [fresh] at mem
    cases mem

theorem Inv.tick {s : Grants P} (h : s.Inv) {p : P} {t : ℕ} (le : s.clock p ≤ t) :
    (s.tick p t).Inv := by
  have later (q : P) : s.clock q ≤ (s.tick p t).clock q := by
    by_cases eq : q = p
    · subst eq
      simpa [Grants.tick] using le
    · simp [Grants.tick, eq]
  refine ⟨h.standing, fun q => (h.stamped q).trans (later q), fun q inside => ?_, h.sorted,
    fun l mem q => ?_, h.pending⟩
  · have first := h.first q inside
    exact ⟨fun a ne => (first.passed a ne).trans (later a), first.least⟩
  · exact (h.passed l mem q).trans (later q)

theorem Inv.ask {s : Grants P} (h : s.Inv) {p : P} {t : ℕ} (idle : s.phase p = .idle)
    (lt : s.clock p < t) : (s.ask p t).Inv := by
  have later (q : P) : s.clock q ≤ (s.ask p t).clock q := by
    by_cases eq : q = p
    · subst eq
      simpa [Grants.ask] using lt.le
    · simp [Grants.ask, eq]
  have same {q : P} (ne : q ≠ p) : (s.ask p t).label q = s.label q :=
    label_congr (by simp [Grants.ask, ne])
  have own : (s.ask p t).request p = t := by simp [Grants.ask]
  refine ⟨fun q => ?_, fun q => ?_, fun q inside => ?_, h.sorted,
    fun l mem q => (h.passed l mem q).trans (later q), ?_⟩
  · by_cases eq : q = p
    · subst eq
      simp [Grants.ask, Nat.ne_of_gt (Nat.zero_lt_of_lt lt)]
    · simpa [Grants.ask, eq] using h.standing q
  · by_cases eq : q = p
    · subst eq
      simp [Grants.ask]
    · simpa [Grants.ask, eq] using h.stamped q
  · have ne : q ≠ p := by
      rintro rfl
      simp [Grants.ask] at inside
    have first := h.first q (by simpa [Grants.ask, ne] using inside)
    refine ⟨fun a ne' => ?_, fun a ne' active => ?_⟩
    · have : (s.ask p t).request q = s.request q := by simp [Grants.ask, ne]
      exact this.trans_le ((first.passed a ne').trans (later a))
    · rw [same ne]
      by_cases eq : a = p
      · subst eq
        refine lt_label_of_time_lt ?_
        rw [own]
        exact (first.passed a ne').trans_lt lt
      · rw [same eq]
        exact first.least a ne' (by simpa [Grants.ask, eq] using active)
  · intro l mem q waiting
    by_cases eq : q = p
    · subst eq
      refine lt_label_of_time_lt ?_
      rw [own]
      exact (h.passed l mem q).trans_lt lt
    · rw [same eq]
      exact h.pending l mem q (by simpa [Grants.ask, eq] using waiting)

theorem Inv.enter {s : Grants P} (h : s.Inv) {p : P} (waiting : s.phase p = .waiting)
    (first : s.First p) : (s.enter p).Inv := by
  have active {q : P} (k : (s.enter p).phase q ≠ .idle) : s.phase q ≠ .idle := by
    by_cases eq : q = p
    · rw [eq, waiting]
      simp
    · simpa [Grants.enter, eq] using k
  refine ⟨fun q => ?_, h.stamped, fun q inside => ?_, ?_, ?_, ?_⟩
  · have same : (s.enter p).request q = s.request q := rfl
    rw [same, h.standing q]
    by_cases eq : q = p
    · simp [Grants.enter, eq, waiting]
    · simp [Grants.enter, eq]
  · have : s.First q := by
      by_cases eq : q = p
      · exact eq ▸ first
      · exact h.first q (by simpa [Grants.enter, eq] using inside)
    exact ⟨this.passed, fun a ne k => this.least a ne (active k)⟩
  · refine List.pairwise_append.mpr ⟨h.sorted, List.pairwise_singleton _ _, fun l mem l' mem' => ?_⟩
    rw [List.mem_singleton.mp mem']
    exact h.pending l mem p waiting
  · intro l mem q
    rcases List.mem_append.mp mem with mem | mem
    · exact h.passed l mem q
    · rw [List.mem_singleton.mp mem]
      by_cases eq : q = p
      · exact eq ▸ h.stamped p
      · exact first.passed q eq
  · intro l mem q stillWaiting
    have ne : q ≠ p := by
      rintro rfl
      simp [Grants.enter] at stillWaiting
    have was : s.phase q = .waiting := by simpa [Grants.enter, ne] using stillWaiting
    rcases List.mem_append.mp mem with mem | mem
    · exact h.pending l mem q was
    · rw [List.mem_singleton.mp mem]
      exact first.least q ne (by simp [was])

theorem Inv.leave {s : Grants P} (h : s.Inv) {p : P} {t : ℕ} (le : s.clock p ≤ t) :
    (s.leave p t).Inv := by
  have later (q : P) : s.clock q ≤ (s.leave p t).clock q := by
    by_cases eq : q = p
    · subst eq
      simpa [Grants.leave] using le
    · simp [Grants.leave, eq]
  have other {q : P} (k : (s.leave p t).phase q ≠ .idle) :
      q ≠ p ∧ (s.leave p t).phase q = s.phase q ∧ (s.leave p t).request q = s.request q := by
    have ne : q ≠ p := by
      rintro rfl
      simp [Grants.leave] at k
    simp [Grants.leave, ne]
  refine ⟨fun q => ?_, fun q => ?_, fun q inside => ?_, h.sorted,
    fun l mem q => (h.passed l mem q).trans (later q), ?_⟩
  · by_cases eq : q = p
    · subst eq
      simp [Grants.leave]
    · simpa [Grants.leave, eq] using h.standing q
  · by_cases eq : q = p
    · subst eq
      simp [Grants.leave]
    · simpa [Grants.leave, eq] using h.stamped q
  · obtain ⟨-, phase, request⟩ := @other q (by simp [inside])
    have first := h.first q (phase ▸ inside)
    refine ⟨fun a ne' => request.trans_le ((first.passed a ne').trans (later a)),
      fun a ne' active => ?_⟩
    obtain ⟨-, phase', request'⟩ := other active
    rw [label_congr request, label_congr request']
    exact first.least a ne' (phase' ▸ active)
  · intro l mem q waiting
    obtain ⟨-, phase, request⟩ := @other q (by simp [waiting])
    rw [label_congr request]
    exact h.pending l mem q (phase ▸ waiting)

theorem Inv.step {s s' : Grants P} (h : s.Inv) (step : Step s s') : s'.Inv := by
  cases step with
  | tick le => exact h.tick le
  | ask idle lt => exact h.ask idle lt
  | enter waiting first => exact h.enter waiting first
  | leave _ le => exact h.leave le

/-- Two processes cannot both come first. -/
theorem Inv.exclusive {s : Grants P} (h : s.Inv) :
    Set.Subsingleton {p | s.phase p = .inside} := by
  intro p hp q hq
  by_contra ne
  have pq := (h.first p hp).least q (Ne.symm ne) (by simp [show s.phase q = _ from hq])
  have qp := (h.first q hq).least p ne (by simp [show s.phase p = _ from hp])
  exact lt_asymm pq qp

end Grants

end Distra.Exclusion
