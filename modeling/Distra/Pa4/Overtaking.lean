import Distra.Exclusion.Overtaking
import Distra.Pa4.Interruptions
import Distra.Pa4.Refinement
import Mathlib.Algebra.Notation.Lemmas

/-!
# Overtaking in `pa4`

The steps of the children are steps of the granting of requests, whichever of the two mutexes with
a queue they run. A child that takes a request has heard of it, so it enters at most once before
the child that waits.
-/

namespace Distra

open Network Exclusion Relation

variable {μ : Type} {cfg : Config} {M : MutexCode μ} {lookup : Nat → μ → Nat}

/-- What a mutex does to the clock and to the own request, the time of which `lookup` reads. -/
structure MutexCode.Stamps (M : MutexCode μ) (cfg : Config) (lookup : Nat → μ → Nat) : Prop where
  first {p l l' out} : M.requestCs cfg p l = some (l', out) → lookup p l.mux = 0 →
    l.lamportTime < l'.lamportTime ∧ lookup p l'.mux = l'.lamportTime
  again {p l l' out} : M.requestCs cfg p l = some (l', out) → lookup p l.mux ≠ 0 →
    l.lamportTime ≤ l'.lamportTime ∧ lookup p l'.mux = lookup p l.mux
  take {p l q m verdict l' out} : IsChild cfg.numChildren p → IsChild cfg.numChildren q → q ≠ p →
    M.requestCsTake cfg p l q m = some (verdict, l', out) →
    max l.lamportTime m.localTime ≤ l'.lamportTime ∧ lookup p l'.mux = lookup p l.mux
  empty {p l verdict l' out} : M.requestCsEmpty cfg p l = some (verdict, l', out) →
    l.lamportTime ≤ l'.lamportTime ∧ lookup p l'.mux = lookup p l.mux
  release {p l l' out} : M.releaseCs cfg p l = some (l', out) → l.lamportTime ≤ l'.lamportTime
  handle {p l q m verdict l' out} : M.handleCsRequests cfg p l q m = some (verdict, l', out) →
    max l.lamportTime m.localTime ≤ l'.lamportTime

/-- A step of a child as the granting of requests sees it. -/
inductive Moves (own : Nat → Process μ → Nat) (p : Nat) (st st' : Process μ) : Prop
  | stay : st.lamportTime ≤ st'.lamportTime → st'.pc.phase = st.pc.phase →
      (st.pc.phase ≠ .idle → own p st' = own p st) → Moves own p st st'
  | ask : st.lamportTime < st'.lamportTime → st.pc.phase = .idle → st'.pc.phase = .waiting →
      own p st' = st'.lamportTime → Moves own p st st'
  | enter : st.lamportTime ≤ st'.lamportTime → st.pc.phase = .waiting →
      st'.pc.phase = .inside → own p st' = own p st → Moves own p st st'
  | leave : st.lamportTime ≤ st'.lamportTime → st.pc.phase = .inside → st'.pc.phase = .idle →
      Moves own p st st'

section Step

variable {v : ProcessView μ} {os : List Observation} {p : Child cfg.numChildren}
  {input : Option (Nat × Message)} {next : Next Nat (Process μ) Message} {st : Process μ}

/-- A round of `request_cs` stays where it is, or enters. -/
theorem Moves.round {own : Nat → Process μ → Nat} {i : Nat} (pc : st.pc = .requestCs i)
    (verdict : Verdict) {l : Local μ} (le : st.lamportTime ≤ l.lamportTime)
    (same : own p (st.at_ (verdict.pc i) l) = own p st) :
    Moves own p st (st.at_ (verdict.pc i) l) := by
  have waiting : st.pc.phase = .waiting := by rw [pc]; rfl
  cases verdict with
  | entered => exact .enter le waiting rfl same
  | waits | nonCsMessageReceived => exact .stay le waiting.symm fun _ => same

theorem MutexStep.moves (stamps : M.Stamps cfg lookup)
    (standing : lookup p st.mux ≠ 0 ↔ st.pc.phase ≠ .idle)
    (sender : ∀ q m, input = some (q, m) → IsChild cfg.numChildren q ∧ q ≠ p)
    (step : MutexStep cfg M p st input next) :
    Moves (fun p st => lookup p st.mux) p st next.1 := by
  cases step with
  | quiet quiet => exact .stay quiet.later quiet.phase fun _ => by rw [quiet.mux]
  | request pc requested =>
    have idle : st.pc.phase = .idle := by rw [pc]; rfl
    obtain ⟨later, own⟩ := stamps.first requested (not_not.mp (mt standing.mp (by simp [idle])))
    exact .ask later idle rfl own
  | @served i q m verdict _ _ pc taken =>
    obtain ⟨child, ne⟩ := sender q m rfl
    obtain ⟨later, same⟩ := stamps.take p.2 child ne taken
    exact .round pc verdict ((le_max_left _ _).trans later) same
  | @doneServed i q m _ _ _ _ _ pc taken _ retried =>
    have waiting : st.pc.phase = .waiting := by rw [pc]; rfl
    obtain ⟨child, ne⟩ := sender q m rfl
    obtain ⟨later, same⟩ := stamps.take p.2 child ne taken
    have queued : lookup p st.mux ≠ 0 := standing.mpr (by simp [waiting])
    obtain ⟨later', same'⟩ := stamps.again retried (same ▸ queued)
    exact .stay (((le_max_left _ _).trans later).trans later') waiting.symm
      fun _ => same'.trans same
  | @idle i verdict _ _ pc found =>
    obtain ⟨later, same⟩ := stamps.empty found
    exact .round pc verdict later same
  | release pc released => exact .leave (stamps.release released) (by rw [pc]; rfl) rfl
  | handled pc taken =>
    have idle : st.pc.phase = .idle := by rw [pc]; rfl
    exact .stay ((le_max_left _ _).trans (stamps.handle taken)) idle.symm
      fun active => absurd idle active
  | doneHandled pc finished taken =>
    have idle : st.pc.phase = .idle := by rw [pc]; rfl
    exact .stay ((le_max_left _ _).trans (stamps.handle taken)) (finished.phase.trans idle.symm)
      fun active => absurd idle active

/-- The clock is past the request that a child takes. -/
theorem MutexStep.hears (stamps : M.Stamps cfg lookup) {q : Child cfg.numChildren} (ne : q ≠ p)
    {m : Message} (type : m.type = .csRequest) (step : MutexStep cfg M p st (some (q.1, m)) next) :
    m.localTime ≤ next.1.lamportTime := by
  have apart : q.1 ≠ p.1 := fun k => ne (Subtype.ext k)
  cases step with
  | quiet quiet => exact absurd (.inl type) (quiet.takes q m rfl)
  | served _ taken => exact (le_max_right _ _).trans (stamps.take p.2 q.2 apart taken).1
  | doneServed _ _ done => simp [type] at done
  | handled _ taken => exact (le_max_right _ _).trans (stamps.handle taken)
  | doneHandled _ _ _ done => simp [type] at done

/-- The entry comes right after the rest of the step. -/
theorem Moves.steps {own : Nat → Process μ → Nat} (moves : Moves own p (v.loc p) next.1)
    (inv : (grants cfg own v os).Inv)
    (inv' : (grants cfg own ((v.consume p input).become p next)
      (os ++ childEvents own p input (v.loc p) next.1)).Inv) :
    ReflTransGen Grants.Step (grants cfg own v os)
      (grants cfg own ((v.consume p input).become p next)
        (os ++ childEvents own p input (v.loc p) next.1)) := by
  rw [grants_become] at inv' ⊢
  have vacant (idle : next.1.pc.phase = .idle) : own p next.1 = 0 := by
    simpa [idle] using inv'.standing p
  cases moves with
  | stay later phase same =>
    have same : own p next.1 = own p (v.loc p) := by
      by_cases idle : (v.loc p).pc.phase = .idle
      · rw [vacant (phase.trans idle)]
        simpa [grants, idle, eq_comm] using inv.standing p
      · exact same idle
    have phases := update_same (show next.1.pc.phase = (grants cfg own v os).phase p from phase)
    have requests := update_same (show own p next.1 = (grants cfg own v os).request p from same)
    rw [phases, requests, phase, if_neg fun k => k.1 k.2, List.append_nil]
    exact .single (.tick later)
  | ask later idle waiting same =>
    rw [waiting, same, if_neg (by simp), List.append_nil]
    exact .single (.ask idle later)
  | enter later waiting inside same =>
    have first := inv'.first p (by simp [inside])
    have requests := update_same (show own p next.1 = (grants cfg own v os).request p from same)
    rw [requests, inside, if_pos ⟨by simp [waiting], rfl⟩, same] at first ⊢
    refine .tail (.single (.tick later)) (.enter waiting ⟨first.passed, fun q ne active => ?_⟩)
    exact first.least q ne (by simpa [Function.update_of_ne ne, Grants.tick] using active)
  | leave later inside idle =>
    rw [idle, vacant idle, if_neg (by simp), List.append_nil]
    exact .single (.leave inside later)

/-! ## What is seen of a run -/

/-- A child that has taken a request enters at most once before the child that waits. -/
def Heeded (cfg : Config) (own : Nat → Process μ → Nat) (v : ProcessView μ)
    (os : List Observation) : Prop :=
  ∀ (i j : Child cfg.numChildren) m before win, i ≠ j → os = before ++ .took j i m :: win →
    m.type = .csRequest → entriesBy i win = 0 →
      (grants cfg own v os).Watch i j (entriesBy j before + 1)

theorem entries_grants (own : Nat → Process μ → Nat) (v : ProcessView μ) (os : List Observation)
    (p : Child cfg.numChildren) : (grants cfg own v os).entries p = entriesBy p os := by
  change (served cfg.numChildren os).countP (fun l => (ofLex l).2 = p) = _
  induction os with
  | nil => rfl
  | cons o os ih =>
    have split_ := served_append cfg.numChildren [o] os
    rw [← List.singleton_append, split_, List.countP_append, ih, entriesBy_append]
    congr 1
    cases o with
    | took => rfl
    | entered a t =>
      by_cases eq : a = p.1
      · subst eq
        simp [served, entryLabels, entriesBy, p.2]
      · by_cases child : IsChild cfg.numChildren a
        · simp [served, entryLabels, entriesBy, child, eq, Subtype.ext_iff]
        · simp [served, entryLabels, entriesBy, child, eq]

theorem childEvents_took {own : Nat → Process μ → Nat} {p j i : Nat}
    {input : Option (Nat × Message)} {st st' : Process μ} {m : Message}
    {front win : List Observation}
    (h : childEvents own p input st st' = front ++ .took j i m :: win) :
    front = [] ∧ p = j ∧ input = some (i, m) := by
  have entry (front : List Observation) :
      (if ¬st.pc.Inside ∧ st'.pc.Inside then [.entered p (own p st')] else []) ≠
        front ++ .took j i m :: win := by
    intro eq
    have mem : Observation.took j i m ∈ front ++ .took j i m :: win := by simp
    rw [← eq] at mem
    split at mem <;> simp at mem
  cases input with
  | none => exact absurd h (entry front)
  | some x =>
    cases front with
    | nil =>
      cases h
      exact ⟨rfl, rfl, rfl⟩
    | cons o front => exact absurd (List.cons.inj h).2 (entry front)

/-- Whoever enters in a step does not wait after it. -/
theorem entered_or_waits (own : Nat → Process μ → Nat) (v : ProcessView μ)
    (p a : Child cfg.numChildren) (input : Option (Nat × Message))
    (next : Next Nat (Process μ) Message) (C : Prop) [Decidable C] :
    entriesBy a (childEvents own p input (v.loc p) next.1) +
      (if (((v.consume p input).become p next).loc a).pc.phase = .waiting ∧ C then 1 else 0) ≤
        1 := by
  rw [entriesBy_childEvents, View.consume_become_loc]
  split
  next entered =>
    obtain ⟨same, -, inside⟩ := entered
    have waits : ¬next.1.pc.phase = .waiting := by simp [Pc.phase_eq_inside.mpr inside]
    rw [if_pos same.symm, if_neg fun k => waits k.1]
  next =>
    rw [Nat.zero_add]
    exact ite_le_one le_rfl (Nat.zero_le 1)

/-- The watch over a request that a step has brought to `j`. -/
theorem watch_heard (own : Nat → Process μ → Nat) {i j : Child cfg.numChildren} {b : Nat}
    (waiting : (((v.consume p input).become p next).loc i).pc.phase = .waiting)
    (heard : own i (((v.consume p input).become p next).loc i) ≤
      (((v.consume p input).become p next).loc j).lamportTime)
    (few : entriesBy j os ≤ b) :
    (grants cfg own ((v.consume p input).become p next)
      (os ++ childEvents own p input (v.loc p) next.1)).Watch i j (b + 1) := by
  refine ⟨waiting, heard, ?_⟩
  rw [entries_grants, entriesBy_append, Nat.add_assoc]
  exact Nat.add_le_add few (entered_or_waits own v p j input next _)

theorem Heeded.keep {own : Nat → Process μ → Nat} (h : Heeded cfg own v os)
    (steps : ReflTransGen Grants.Step (grants cfg own v os)
      (grants cfg own ((v.consume p input).become p next)
        (os ++ childEvents own p input (v.loc p) next.1)))
    (asked : ∀ (i : Child cfg.numChildren) m, i ≠ p → input = some (i.1, m) →
      m.type = .csRequest →
      (v.loc i).pc.phase = .waiting ∧ own i (v.loc i) ≤ next.1.lamportTime) :
    Heeded cfg own ((v.consume p input).become p next)
      (os ++ childEvents own p input (v.loc p) next.1) := by
  intro i j m before win ne eq type waits
  have taken (front : List Observation) (eq : childEvents own p input (v.loc p) next.1 =
      front ++ .took j i m :: win) (at_ : before = os ++ front) :
      (grants cfg own ((v.consume p input).become p next)
        (os ++ childEvents own p input (v.loc p) next.1)).Watch i j (entriesBy j before + 1) := by
    obtain ⟨rfl, same, taken⟩ := childEvents_took eq
    obtain rfl : p = j := Subtype.ext same
    obtain ⟨waiting, heard⟩ := asked i m ne taken type
    have apart : i.1 ≠ p.1 := fun k => ne (Subtype.ext k)
    rw [at_, List.append_nil]
    refine watch_heard own ?_ ?_ le_rfl
    · rw [View.consume_become_loc, if_neg apart]
      exact waiting
    · rw [View.consume_become_loc, if_neg apart, View.consume_become_loc, if_pos rfl]
      exact heard
  rcases List.append_eq_append_iff.mp eq with ⟨front, at_, eq⟩ | ⟨rest, earlier, eq⟩
  · exact taken front eq at_
  · cases rest with
    | nil =>
      rw [List.append_nil] at earlier
      exact taken [] eq.symm (by rw [earlier, List.append_nil])
    | cons o rest =>
      obtain ⟨rfl, rfl⟩ := List.cons.inj eq
      change entriesBy i (rest ++ childEvents own p input (v.loc p) next.1) = 0 at waits
      rw [entriesBy_append, Nat.add_eq_zero_iff] at waits
      refine (h i j m before rest ne earlier type waits.1).steps steps ?_
      rw [entries_grants, entries_grants, entriesBy_append, waits.2]
      rfl

end Step

/-! ## Windows -/

/-- A window over a longer trace ends in the old one, or after some of what is new. -/
theorem infix_append_cases {α : Type} {w l l' : List α} (h : w <:+: l ++ l') :
    w <:+: l ∨ ∃ front, front <+: l' ∧ front ≠ [] ∧ w <:+ l ++ front := by
  induction l' using List.reverseRecOn with
  | nil => exact .inl (by simpa using h)
  | append_singleton l' x ih =>
    rw [← List.append_assoc] at h
    rcases List.infix_concat_iff.mp h with suffix | earlier
    · exact .inr ⟨l' ++ [x], List.prefix_rfl, by simp, by rwa [← List.append_assoc]⟩
    · refine (ih earlier).imp_right fun ⟨front, before, some_, suffix⟩ => ?_
      exact ⟨front, before.trans (List.prefix_append _ _), some_, suffix⟩

/-- A step ends with its entry. -/
theorem prefix_childEvents {own : Nat → Process μ → Nat} {p : Nat} {input : Option (Nat × Message)}
    {st st' : Process μ} {front : List Observation}
    (h : front <+: childEvents own p input st st') :
    front = childEvents own p input st st' ∨ ∀ a, entriesBy a front = 0 := by
  have took (before : front <+: input.toList.map fun x => .took p x.1 x.2) (a : Nat) :
      entriesBy a front = 0 := by
    have none_ : entriesBy a (input.toList.map fun x => .took p x.1 x.2) = 0 := by
      cases input <;> rfl
    exact Nat.le_zero.mp (none_ ▸ before.sublist.countP_le)
  unfold childEvents at h ⊢
  split
  next entered =>
    rw [if_pos entered] at h
    exact (List.prefix_concat_iff.mp h).imp_right took
  next outside =>
    rw [if_neg outside, List.append_nil] at h
    exact .inr (took h)

theorem Heeded.le_one {own : Nat → Process μ → Nat} {v : ProcessView μ} {os : List Observation}
    (h : Heeded cfg own v os) {i j : Child cfg.numChildren} (ne : i ≠ j) {m : Message}
    {before win : List Observation} (eq : os = before ++ .took j i m :: win)
    (type : m.type = .csRequest) (waits : entriesBy i win = 0) : entriesBy j win ≤ 1 := by
  have bound := (h i j m before win ne eq type waits).bound
  have took : entriesBy j (.took j i m :: win) = entriesBy j win := rfl
  rw [entries_grants, eq, entriesBy_append, took] at bound
  omega

theorem boundedOvertaking_keep {own : Nat → Process μ → Nat} {v v' : ProcessView μ}
    {os : List Observation} {p : Nat} {input : Option (Nat × Message)} {st st' : Process μ}
    (once : BoundedOvertaking cfg.numChildren os) (heeded : Heeded cfg own v os)
    (heeded' : Heeded cfg own v' (os ++ childEvents own p input st st')) :
    BoundedOvertaking cfg.numChildren (os ++ childEvents own p input st st') := by
  intro i j hi hj ne m win window type waits
  have apart : (⟨i, hi⟩ : Child cfg.numChildren) ≠ ⟨j, hj⟩ := fun k => ne (congrArg Subtype.val k)
  rcases infix_append_cases window with earlier | ⟨front, fresh, -, before, eq⟩
  · exact once i j hi hj ne m win earlier type waits
  rcases prefix_childEvents fresh with rfl | silent
  · exact heeded'.le_one apart eq.symm type waits
  · rcases List.append_eq_append_iff.mp eq.symm with ⟨rest, -, taken⟩ | ⟨rest, earlier, taken⟩
    · have none_ := silent j
      rw [taken, entriesBy_append, Nat.add_eq_zero_iff] at none_
      exact (show entriesBy j win = 0 from none_.2).trans_le (Nat.zero_le 1)
    · cases rest with
      | nil =>
        rw [List.nil_append] at taken
        have none_ := silent j
        rw [← taken] at none_
        exact (show entriesBy j win = 0 from none_).trans_le (Nat.zero_le 1)
      | cons o rest =>
        obtain ⟨rfl, rfl⟩ := List.cons.inj taken
        change entriesBy i (rest ++ front) = 0 at waits
        change entriesBy j (rest ++ front) ≤ 1
        rw [entriesBy_append, Nat.add_eq_zero_iff] at waits
        rw [entriesBy_append, silent j, Nat.add_zero]
        exact heeded.le_one apart earlier type waits.1

/-- What holds of every run as long as the requests are granted in order. -/
structure Overtaken (cfg : Config) (own : Nat → Process μ → Nat) (v : ProcessView μ)
    (os : List Observation) : Prop where
  heeded : Heeded cfg own v os
  once : BoundedOvertaking cfg.numChildren os

namespace Overtaken

variable {own : Nat → Process μ → Nat} {v : ProcessView μ} {os : List Observation}

theorem initial : Overtaken cfg own v [] where
  heeded i j m before win ne eq := by simp at eq
  once i j hi hj ne m win window := by simp at window

theorem parent (h : Overtaken cfg own v os) {v' : ProcessView μ} (frame : ParentFrame v v') :
    Overtaken cfg own v' os where
  heeded := by
    simpa only [Heeded, grants_parent own os frame] using h.heeded
  once := h.once

theorem keep {v : ProcessView μ} {p : Child cfg.numChildren} {input : Option (Nat × Message)}
    {next : Next Nat (Process μ) Message} (stamps : M.Stamps cfg lookup)
    (h : Overtaken cfg (fun p st => lookup p st.mux) v os) (control : Control cfg v)
    (inv : (grants cfg (fun p st => lookup p st.mux) v os).Inv)
    (inv' : (grants cfg (fun p st => lookup p st.mux) ((v.consume p input).become p next)
      (os ++ childEvents (fun p st => lookup p st.mux) p input (v.loc p) next.1)).Inv)
    (asked : ∀ (i : Child cfg.numChildren) m rest, i ≠ p → v.chan i p = m :: rest →
      m.type = .csRequest → (v.loc i).pc.phase = .waiting ∧ lookup i (v.loc i).mux = m.localTime)
    (ready : Ready cfg v p input) (step : LocalStep cfg M p (v.loc p) input next) :
    Overtaken cfg (fun p st => lookup p st.mux) ((v.consume p input).become p next)
      (os ++ childEvents (fun p st => lookup p st.mux) p input (v.loc p) next.1) := by
  have sender (q m) (taken : input = some (q, m)) : IsChild cfg.numChildren q ∧ q ≠ p := by
    subst taken
    exact control.sender_child p.2 ready
  have moves := step.mutex.moves stamps (inv.standing p) sender
  have heeded := h.heeded.keep (moves.steps inv inv') fun i m ne taken type => by
    subst taken
    obtain ⟨-, -, rest, head⟩ := ready
    obtain ⟨waiting, stamp⟩ := asked i m rest ne head type
    exact ⟨waiting, stamp.trans_le (step.mutex.hears stamps ne type)⟩
  exact ⟨heeded, boundedOvertaking_keep h.once h.heeded heeded⟩

end Overtaken

end Distra

namespace Distra.Pa4

open Network RequestQueue Exclusion

variable {cfg : Config}

theorem Serves.heard {l l' : Locals} {fr : Nat} {m : Message} {out : Sends}
    (h : Serves l fr m l' out) : max l.lamportTime m.localTime ≤ l'.lamportTime := by
  cases h with
  | reply | release => exact l.received_heard m
  | request => exact (l.received_heard m).trans (lt_advanceLamportTime _).le

theorem mutex_stamps : mutex.Stamps cfg (fun p mux => queueLookup mux.queue p) where
  first {p l l' out} requested vacant := by
    cases (requestCs_of_vacant vacant).symm.trans requested
    exact ⟨lt_advanceLamportTime _, queueLookup_setSlot_self _ _ _⟩
  again {p l l' out} requested queued := by
    cases (requestCs_of_queued queued).symm.trans requested
    exact ⟨(lt_advanceLamportTime _).le, rfl⟩
  take {p l q m verdict l' out} child sender ne taken := by
    rcases requestCsTake_some taken with ⟨l₁, out₁, serves, test⟩ | ⟨-, -, rfl, -⟩
    · obtain rfl : l' = _ := congrArg (fun x => x.2.1) test
      exact ⟨serves.heard.trans_eq (enterIf_clock _ _ _ _).symm,
        (congrArg (queueLookup · p) (entryTest_queue p l₁ out₁)).trans
          (serves.writes.1.own child.1 sender.1 ne)⟩
    · exact ⟨l.received_heard m, rfl⟩
  empty found := by
    cases found
    exact ⟨le_rfl, rfl⟩
  release released := by
    obtain ⟨-, rfl, -⟩ := releaseCs_some released
    exact (lt_advanceLamportTime _).le
  handle {p l q m verdict l' out} taken := by
    rcases @handleCsRequests_some cfg p _ _ _ _ _ _ taken with ⟨serves, -, -⟩ | ⟨-, -, rfl, -⟩
    · exact serves.heard
    · exact l.received_heard m

/-- A request is only on its way while its child waits with it. -/
theorem Refined.asked {v : ProcessView Mux} {os : List Observation} (h : Refined cfg v os)
    {p i : Child cfg.numChildren} {m : Message} {rest : List Message} (ne : i ≠ p)
    (head : v.chan i p = m :: rest) (type : m.type = .csRequest) :
    (v.loc i).pc.phase = .waiting ∧ queueLookup (v.loc i).mux.queue i = m.localTime := by
  have link := h.inv.link i p ne
  have first : childChan csMessage cfg v i p =
      .request m.localTime :: rest.filterMap csMessage := by
    simp [childChan, head, csMessage_request type]
  refine ⟨?_, ?_⟩
  · by_contra still
    have := (link.settled still).1
    simp [Lamport.State.link, first] at this
  · refine (link.stamp m.localTime ?_).symm
    simp [Lamport.State.link, first]

theorem lamport_bounded_overtaking (r : MutexRun cfg mutex) :
    BoundedOvertaking cfg.numChildren (r.observations own) := by
  have all := MutexRun.invariant mutex_lawful own
    (J := fun v os => Refined cfg v os ∧ Overtaken cfg own v os)
    ⟨Refined.initial, .initial⟩
    (fun v os p input control inv child ready => inv.1.safe (p := ⟨p, child⟩) control ready)
    (fun v os p input next control inv child ready step => by
      have after := inv.1.keep (p := ⟨p, child⟩) control ready step
      refine ⟨after, ?_⟩
      exact inv.2.keep (p := ⟨p, child⟩) mutex_stamps control inv.1.inv.grants after.inv.grants
        (fun i m rest ne head type => inv.1.asked ne head type) ready step)
    (fun v v' os inv frame => ⟨inv.1.parent frame, inv.2.parent frame⟩) r
  exact all.2.2.2.once

end Distra.Pa4
