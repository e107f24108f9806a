import Distra.Exclusion.Forks
import Mathlib.Data.Finset.Max
import Mathlib.Data.List.Count
import Mathlib.Data.List.Infix

/-!
# A table of philosophers

What a process does is one deed for each of its pairs. No two processes eat at once, those that
come before each other form no circle, and a process that has taken a request eats at most once
before the one that made it.
-/

namespace Distra.Exclusion.Forks

open Network Function

variable {P : Type}

structure State (P : Type) where
  stage : P → Stage
  fork : P → P → Bool
  dirty : P → P → Bool
  token : P → P → Bool
  chan : Channels P Msg

def State.side (s : State P) (p q : P) : End := ⟨s.stage p, s.fork p q, s.dirty p q, s.token p q⟩

inductive Op (P : Type) where
  | stay
  | ask
  | takeFork (q : P)
  | takeToken (q : P)
  | surrender (q : P)
  | enter
  | leave
  | retire
  deriving DecidableEq

inductive Event (P : Type) where
  /-- `p` takes a request of `q`. -/
  | asked (p q : P)
  | entered (p : P)
  deriving DecidableEq

def Op.events (p : P) : Op P → List (Event P)
  | .takeToken q | .surrender q => [.asked p q]
  | .enter => [.entered p]
  | _ => []

section Deeds
variable [DecidableEq P]

/-- What the operation does to the pair with `r`. -/
def Op.deed (r : P) : Op P → Deed
  | .stay => .stay
  | .ask => .ask
  | .takeFork q => if r = q then .takeFork else .stay
  | .takeToken q => if r = q then .takeToken else .stay
  | .surrender q => if r = q then .surrender else .stay
  | .enter => .enter
  | .leave => .leave
  | .retire => .retire

theorem Op.deed_eq_enter {r : P} {op : Op P} : op.deed r = .enter ↔ op = .enter := by
  cases op with
  | takeFork q | takeToken q | surrender q =>
    simp only [deed, reduceCtorEq, iff_false]
    split <;> simp
  | _ => simp [deed]

theorem Op.deed_eq_leave {r : P} {op : Op P} : op.deed r = .leave ↔ op = .leave := by
  cases op with
  | takeFork q | takeToken q | surrender q =>
    simp only [deed, reduceCtorEq, iff_false]
    split <;> simp
  | _ => simp [deed]

structure Step (s : State P) (p : P) (op : Op P) (s' : State P) : Prop where
  side : ∀ a, a ≠ p → ∀ b, s'.side a b = s.side a b
  chan : ∀ a b, a ≠ p → b ≠ p → s'.chan a b = s.chan a b
  does : ∀ q, q ≠ p → (op.deed q).Does (s.side p q) (s.chan p q) (s.chan q p)
    (s'.side p q) (s'.chan p q) (s'.chan q p)

end Deeds

/-- Every two processes share one fork, a process eats with all of its forks, and to come before
another process is not circular. -/
structure Inv (s : State P) : Prop where
  pair : ∀ p q, p ≠ q → Pair (s.side p q) (s.side q p) (s.chan p q) (s.chan q p)
  holds : ∀ p q, p ≠ q → s.stage p = .inside → s.fork p q = true
  ranked : ∃ rank : P → ℕ, ∀ p q, p ≠ q → Ahead (s.side p q) (s.side q p) (s.chan q p) →
    rank p < rank q

theorem Inv.exclusive {s : State P} (h : Inv s) : Set.Subsingleton {p | s.stage p = .inside} := by
  intro p hp q hq
  by_contra ne
  exact (h.pair p q ne).exclusive ⟨h.holds p q ne hp, h.holds q p (Ne.symm ne) hq⟩

/-- In no set of processes has everyone to wait for the clean fork of another member. -/
theorem Inv.no_circle {s : State P} (h : Inv s) (W : Finset P) (nonempty : W.Nonempty) :
    ¬∀ p ∈ W, ∃ q ∈ W, q ≠ p ∧ s.fork q p = true ∧ s.dirty q p = false := by
  intro all
  obtain ⟨rank, ranked⟩ := h.ranked
  obtain ⟨p, mem, least⟩ := Finset.exists_min_image W rank nonempty
  obtain ⟨q, mem', ne, clean⟩ := all p mem
  exact absurd (ranked q p ne (.inl clean)) (not_lt.mpr (least q mem'))

/-- When all that can be done is to wait, some process has what it waits for. -/
theorem Inv.exists_ready {s : State P} [Fintype P] (h : Inv s) {p₀ : P}
    (some_waits : s.stage p₀ = .waiting)
    (poll : ∀ p, s.stage p = .waiting ∨ s.stage p = .retired)
    (silent : ∀ p q, p ≠ q → s.chan p q = [])
    (asked : ∀ p q, p ≠ q → s.stage p = .waiting → s.fork p q = false → s.token p q = false) :
    ∃ p, s.stage p = .waiting ∧ ∀ q, q ≠ p → (s.side p q).Ready := by
  classical
  obtain ⟨rank, ranked⟩ := h.ranked
  obtain ⟨p, mem, least⟩ := Finset.exists_min_image
    (Finset.univ.filter (fun p => s.stage p = .waiting)) rank ⟨p₀, by simpa using some_waits⟩
  have waits : s.stage p = .waiting := by simpa using mem
  refine ⟨p, waits, fun q ne => ?_⟩
  have pair := h.pair p q ne.symm
  rw [silent p q ne.symm, silent q p ne] at pair
  rcases pair with shape | shape
  · cases shape with
    | unasked fp tp | kept fp tp => exact ⟨fp, by simp [tp]⟩
    | asked fp _ _ _ clean => exact ⟨fp, by simp [clean]⟩
  · cases shape with
    | unasked _ _ fp tp =>
      have none_left : s.token p q = false := asked p q ne.symm waits fp
      exact absurd (none_left.symm.trans tp) (by simp)
    | asked fq _ _ _ clean active =>
      have also : s.stage q = .waiting := by
        refine (poll q).resolve_right fun retired => ?_
        rcases active with stage | stage <;> exact absurd (retired.symm.trans stage) (by simp)
      exact absurd (ranked q p ne (.inl ⟨fq, clean⟩)) (not_lt.mpr (least q (by simp [also])))
    | kept _ _ _ _ _ retired => exact absurd (waits.symm.trans retired) (by simp)

section Preservation
variable [DecidableEq P] {s s' : State P} {p : P} {op : Op P}

theorem Step.pair (step : Step s p op s')
    (h : ∀ a b, a ≠ b → Pair (s.side a b) (s.side b a) (s.chan a b) (s.chan b a)) (a b : P)
    (ne : a ≠ b) : Pair (s'.side a b) (s'.side b a) (s'.chan a b) (s'.chan b a) := by
  have own (b : P) (ne : b ≠ p) : Pair (s'.side p b) (s'.side b p) (s'.chan p b) (s'.chan b p) := by
    rw [step.side b ne]
    exact (h p b ne.symm).does (step.does b ne)
  by_cases first : a = p
  · subst first
    exact own b ne.symm
  · by_cases second : b = p
    · subst second
      exact (own a first).symm
    · rw [step.side a first, step.side b second, step.chan a b first second,
        step.chan b a second first]
      exact h a b ne

/-- Only the deed that enters comes to stand inside. -/
theorem Deed.Does.holds {a a' : End} {ab ba ab' ba' : List Msg} {d : Deed}
    (does : d.Does a ab ba a' ab' ba') (h : a.stage = .inside → a.fork = true)
    (inside : a'.stage = .inside) : a'.fork = true := by
  cases d with
  | stay =>
    obtain ⟨rfl, -⟩ := does
    exact h inside
  | ask =>
    obtain ⟨-, rfl, -⟩ := does
    cases inside
  | takeFork =>
    obtain ⟨-, rfl, -⟩ := does
    rfl
  | takeToken =>
    obtain ⟨waiting, -, rfl, -⟩ := does
    exact absurd (waiting.symm.trans inside) (by simp)
  | surrender =>
    obtain ⟨retired, -, rfl, -⟩ := does
    exact absurd (retired.symm.trans inside) (by simp)
  | enter =>
    obtain ⟨-, ready, rfl, -⟩ := does
    exact ready.1
  | leave =>
    obtain ⟨-, rfl, -⟩ := does
    cases inside
  | retire =>
    obtain ⟨-, rfl, -⟩ := does
    cases inside

theorem Step.ahead (step : Step s p op s')
    (h : ∀ a b, a ≠ b → Pair (s.side a b) (s.side b a) (s.chan a b) (s.chan b a))
    (other : op ≠ .leave) {a b : P} (ne : a ≠ b)
    (ahead : Ahead (s'.side a b) (s'.side b a) (s'.chan b a)) :
    Ahead (s.side a b) (s.side b a) (s.chan b a) := by
  have both (b : P) (ne : b ≠ p) :=
    (h p b ne.symm).ahead_does (step.does b ne) (mt Op.deed_eq_leave.mp other)
  by_cases first : a = p
  · subst first
    rw [step.side b ne.symm] at ahead
    exact (both b ne.symm).1 ahead
  · by_cases second : b = p
    · subst second
      rw [step.side a first] at ahead
      exact (both a first).2 ahead
    · rwa [step.side a first, step.side b second, step.chan b a second first] at ahead

/-- One who has eaten goes to the end of the order. -/
theorem Step.ranked [Fintype P] (step : Step s p op s') (h : Inv s) :
    ∃ rank : P → ℕ, ∀ a b, a ≠ b → Ahead (s'.side a b) (s'.side b a) (s'.chan b a) →
      rank a < rank b := by
  obtain ⟨rank, ranked⟩ := h.ranked
  by_cases meal : op = .leave
  · subst meal
    refine ⟨update rank p (Finset.univ.sup rank + 1), fun a b ne ahead => ?_⟩
    by_cases first : a = p
    · subst first
      have last := (h.pair a b ne).not_ahead_leave (step.does b ne.symm)
      rw [step.side b ne.symm] at ahead
      exact absurd ahead last
    · rw [update_of_ne first]
      by_cases second : b = p
      · subst second
        rw [update_self]
        exact Nat.lt_succ_of_le (Finset.le_sup (Finset.mem_univ a))
      · rw [update_of_ne second]
        rw [step.side a first, step.side b second, step.chan b a second first] at ahead
        exact ranked a b ne ahead
  · exact ⟨rank, fun a b ne ahead => ranked a b ne (step.ahead h.pair meal ne ahead)⟩

theorem Inv.step [Fintype P] (h : Inv s) (step : Step s p op s') : Inv s' := by
  refine ⟨step.pair h.pair, fun a b ne inside => ?_, step.ranked h⟩
  by_cases own : a = p
  · subst own
    exact (step.does b ne.symm).holds (h.holds a b ne) inside
  · have same := step.side a own b
    have inside : s.stage a = .inside := (congrArg End.stage same).symm.trans inside
    exact (congrArg End.fork same).trans (h.holds a b ne inside)

end Preservation

/-! ## Bounded overtaking -/

section Overtaking
variable [DecidableEq P]

def entries (p : P) (es : List (Event P)) : ℕ := es.count (.entered p)

/-- After taking a request of `i`, `j` enters at most once before `i` does. -/
def OvertakenOnce (es : List (Event P)) : Prop :=
  ∀ i j win, i ≠ j → .asked j i :: win <:+: es → entries i win = 0 → entries j win ≤ 1

/-- The requests taken and not yet satisfied. -/
def Watched (s : State P) (es : List (Event P)) : Prop :=
  ∀ i j win, i ≠ j → .asked j i :: win <:+ es → entries i win = 0 →
    Watch (entries j win) (s.side j i) (s.side i j) (s.chan j i)

theorem entries_append (p : P) (es es' : List (Event P)) :
    entries p (es ++ es') = entries p es + entries p es' := List.count_append

theorem entries_events (a p : P) (op : Op P) :
    entries a (op.events p) = if op = .enter ∧ p = a then 1 else 0 := by
  cases op with
  | enter => by_cases eq : p = a <;> simp [Op.events, entries, eq]
  | _ => simp [Op.events, entries]

omit [DecidableEq P] in
/-- A request at the end of a longer trace is an earlier one, or the one just taken. -/
theorem suffix_events {es win : List (Event P)} {e : Event P} {op : Op P} {p : P}
    (h : e :: win <:+ es ++ op.events p) :
    (∃ win', e :: win' <:+ es ∧ win = win' ++ op.events p) ∨ win = [] ∧ op.events p = [e] := by
  have single (x : Event P) (h : e :: win <:+ es ++ [x]) :
      (∃ win', e :: win' <:+ es ∧ win = win' ++ [x]) ∨ win = [] ∧ [x] = [e] := by
    rcases List.suffix_concat_iff.mp h with absurd_ | ⟨front, eq, suffix⟩
    · cases absurd_
    · cases front with
      | nil =>
        cases eq
        exact .inr ⟨rfl, rfl⟩
      | cons y front =>
        cases eq
        exact .inl ⟨front, suffix, rfl⟩
  cases op with
  | takeToken q | surrender q => exact single _ h
  | enter => exact single _ h
  | _ => exact .inl ⟨win, by simpa [Op.events] using h, by simp [Op.events]⟩

variable {s s' : State P} {p : P} {op : Op P} {es : List (Event P)}

/-- What a step of `p` does to the request of `i` that `j` has taken. -/
theorem Step.watch (step : Step s p op s') (h : Inv s) {i j : P} (ne : i ≠ j) {k : ℕ}
    (watch : Watch k (s.side j i) (s.side i j) (s.chan j i)) (other : ¬(op = .enter ∧ p = i)) :
    Watch (k + if op = .enter ∧ p = j then 1 else 0) (s'.side j i) (s'.side i j) (s'.chan j i) := by
  by_cases giver : p = j
  · subst giver
    have watch := watch.giver (h.pair p i ne.symm) (step.does i ne)
    rw [step.side i ne]
    by_cases enters : op = .enter <;> simpa [Op.deed_eq_enter, enters] using watch
  · by_cases asker : p = i
    · subst asker
      have none_ : ¬(op = .enter ∧ p = j) := fun k => giver k.2
      rw [step.side j ne.symm, if_neg none_]
      refine watch.asker (h.pair j p ne.symm) (step.does j ne.symm) fun enters => ?_
      exact other ⟨Op.deed_eq_enter.mp enters, rfl⟩
    · rw [step.side j (Ne.symm giver), step.side i (Ne.symm asker),
        step.chan j i (Ne.symm giver) (Ne.symm asker), if_neg fun k => giver k.2]
      exact watch

theorem Watched.step (h : Watched s es) (inv : Inv s) (step : Step s p op s') :
    Watched s' (es ++ op.events p) := by
  intro i j win ne suffix before
  rcases suffix_events suffix with ⟨win', earlier, rfl⟩ | ⟨rfl, taken⟩
  · rw [entries_append, Nat.add_eq_zero_iff, entries_events, ite_eq_right_iff] at before
    rw [entries_append, entries_events]
    refine step.watch inv ne (h i j win' ne earlier before.1) fun enters => ?_
    exact absurd (before.2 enters) one_ne_zero
  · have takes : p = j ∧ (op = .takeToken i ∨ op = .surrender i) := by
      cases op <;> simp_all [Op.events]
    obtain ⟨rfl, takes⟩ := takes
    rw [step.side i ne]
    refine (inv.pair p i ne.symm).watch (step.does i ne) (takes.imp ?_ ?_) <;>
      rintro rfl <;> simp [Op.deed]

theorem OvertakenOnce.step (h : OvertakenOnce es) (watched : Watched s' (es ++ op.events p)) :
    OvertakenOnce (es ++ op.events p) := by
  intro i j win ne window before
  have single (e : Event P) (single : op.events p = [e]) : entries j win ≤ 1 := by
    rw [single] at window
    rcases List.infix_concat_iff.mp window with suffix | earlier
    · exact (watched i j win ne (single ▸ suffix) before).1
    · exact h i j win ne earlier before
  cases op with
  | takeToken q | surrender q => exact single _ rfl
  | enter => exact single _ rfl
  | _ => exact h i j win ne (by simpa [Op.events] using window) before

/-! ## A step or two -/

/-- One who takes something may go on with what it has then. -/
inductive Steps (s : State P) (p : P) : List (Event P) → State P → Prop
  | one {done after} : Step s p done after → Steps s p (done.events p) after
  | two {q done next between after} : done = .takeFork q ∨ done = .takeToken q →
      Step s p done between → Step between p next after →
      Steps s p (done.events p ++ next.events p) after

/-- What holds of a table and what has been seen at it. -/
structure Attended (s : State P) (es : List (Event P)) : Prop where
  inv : Inv s
  watched : Watched s es
  once : OvertakenOnce es

theorem Attended.step [Fintype P] (h : Attended s es) (step : Step s p op s') :
    Attended s' (es ++ op.events p) := by
  have watched := h.watched.step h.inv step
  exact ⟨h.inv.step step, watched, h.once.step watched⟩

theorem Attended.steps [Fintype P] {es' : List (Event P)} (h : Attended s es)
    (steps : Steps s p es' s') : Attended s' (es ++ es') := by
  cases steps with
  | one step => exact h.step step
  | two _ first second =>
    rw [← List.append_assoc]
    exact (h.step first).step second

end Overtaking

end Distra.Exclusion.Forks
