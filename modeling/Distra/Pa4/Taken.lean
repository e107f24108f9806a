import Distra.Network.History
import Distra.Pa4.Grants
import Distra.Pa4.Progress

/-!
# What the children take from each other

The messages that a child has taken are those it takes in the observations of a run. One `DONE` is
taken from every other child, and where the mutex excludes its own failures no step of a child
fails.
-/

namespace Distra

open Network

variable {μ : Type} {cfg : Config} {M : MutexCode μ}

/-- The messages that `p` has taken from `q`. -/
def tookFrom (p q : Nat) (os : List Observation) : List Message :=
  os.filterMap fun
    | .took p' q' m => if p' = p ∧ q' = q then some m else none
    | _ => none

def ExactlyOne (a b c : Prop) : Prop := a ∧ ¬b ∧ ¬c ∨ ¬a ∧ b ∧ ¬c ∨ ¬a ∧ ¬b ∧ c

theorem exactlyOne_of_sum {i j k : Nat} (sum : i + j + k = 1) :
    ExactlyOne (0 < i) (0 < j) (0 < k) := by
  unfold ExactlyOne
  omega

def ofType (type : MessageType) (l : List Message) : Nat := l.countP (fun m => m.type = type)

theorem tookFrom_append (p q : Nat) (os os' : List Observation) :
    tookFrom p q (os ++ os') = tookFrom p q os ++ tookFrom p q os' := List.filterMap_append

theorem tookFrom_childEvents (stamp : Nat → Process μ → Nat) (p a b : Nat)
    (input : Option (Nat × Message)) (st st' : Process μ) :
    tookFrom a b (childEvents stamp p input st st') =
      if a = p then outTo input.toList b else [] := by
  have entered : tookFrom a b
      (if ¬st.pc.Inside ∧ st'.pc.Inside then [.entered p (stamp p st')] else []) = [] := by
    split <;> rfl
  rw [childEvents, tookFrom_append, entered, List.append_nil]
  cases input with
  | none => exact (ite_self _).symm
  | some x =>
    obtain ⟨q, m⟩ := x
    by_cases actor : p = a
    · subst actor
      by_cases source : q = b <;> simp [tookFrom, outTo_cons, source]
    · have other : ¬a = p := fun k => actor k.symm
      simp [tookFrom, actor, other]

/-- The observations show all that a child takes. -/
theorem tookFrom_observations (stamp : Nat → Process μ → Nat) (r : MutexRun cfg M) {p q : Nat}
    (child : p ≠ parentId) : tookFrom p q (r.observations stamp) = taken r.transitions p q := by
  rw [MutexRun.observations]
  induction r.transitions with
  | nil => rfl
  | cons t ts ih =>
    have head : tookFrom p q (events stamp t.before.view t.event t.after.view) =
        (t.event.taken p q).toList := by
      rw [events]
      by_cases parent : t.event.actor = parentId
      · rw [if_pos parent]
        cases event : t.event with
        | take p' q' m =>
          rw [event] at parent
          have : ¬(p' = p ∧ q' = q) := fun k => child (k.1.symm.trans parent)
          simp [Event.taken, this, tookFrom]
        | _ => rfl
      · rw [if_neg parent, tookFrom_childEvents]
        cases event : t.event with
        | take p' q' m =>
          by_cases actor : p' = p
          · subst actor
            by_cases source : q' = q <;>
              simp [Event.actor, Event.input, Event.taken, outTo_cons, source]
          · have other : ¬p = p' := fun k => actor k.symm
            simp [Event.actor, Event.taken, actor, other]
        | _ => simp [Event.input, Event.taken]
    have rest : observe (events stamp) (t :: ts) =
        events stamp t.before.view t.event t.after.view ++ observe (events stamp) ts := rfl
    rw [rest, tookFrom_append, head, ih, taken, taken, List.filterMap_cons]
    cases t.event.taken p q <;> rfl

/-- The message taken leaves its channel. -/
theorem Ready.chan_eq {v : ProcessView μ} {p : Nat} {input : Option (Nat × Message)}
    (ready : Ready cfg v p input) (b : Nat) :
    v.chan b p = outTo input.toList b ++ (v.consume p input).chan b p := by
  rcases consume_chan_self ready b with ⟨m, rfl, head⟩ | ⟨other, same⟩
  · rw [head, Option.toList_some, outTo_cons, if_pos rfl]
    rfl
  · have none_ : outTo input.toList b = [] := by
      cases input with
      | none => rfl
      | some x =>
        obtain ⟨q, m⟩ := x
        have ne : q ≠ b := fun eq => other m (by rw [eq])
        rw [Option.toList_some, outTo_cons, if_neg ne]
        rfl
    rw [none_, same]
    rfl

@[simp] theorem ofType_append (type : MessageType) (l l' : List Message) :
    ofType type (l ++ l') = ofType type l + ofType type l' := List.countP_append

@[simp] theorem ofType_nil (type : MessageType) : ofType type [] = 0 := rfl

theorem ofType_eq_zero {type : MessageType} {l : List Message} :
    ofType type l = 0 ↔ ∀ m ∈ l, m.type ≠ type := by
  simp [ofType, List.countP_eq_zero]

theorem ofType_pos {type : MessageType} {l : List Message} :
    0 < ofType type l ↔ ∃ m ∈ l, m.type = type := by
  simp [ofType, List.countP_pos_iff]

theorem requests_csMessage (l : List Message) :
    Exclusion.requests (l.filterMap csMessage) = ofType .csRequest l := by
  rw [Exclusion.requests, List.countP_filterMap, ofType]
  congr 1
  funext m
  obtain ⟨type, t⟩ := m
  cases type <;> rfl

theorem replies_csMessage (l : List Message) :
    Exclusion.replies (l.filterMap csMessage) = ofType .csReply l := by
  rw [Exclusion.replies, List.countP_filterMap, ofType]
  congr 1
  funext m
  obtain ⟨type, t⟩ := m
  cases type <;> rfl

/-! ## One `DONE` from every other child -/

/-- `p` has taken the `DONE` of `q`, or it has it still to take. -/
def Notified (cfg : Config) (v : ProcessView μ) (os : List Observation) : Prop :=
  ∀ p q, IsChild cfg.numChildren p → IsChild cfg.numChildren q → q ≠ p →
    ofType .done (tookFrom p q os) = if Pending v p q then 0 else 1

theorem Notified.initial (cfg : Config) (M : MutexCode μ) :
    Notified cfg (initialState cfg M).view [] := by
  intro p q _ qchild _
  have unfinished : ¬((initialState cfg M).view.loc q).pc.Finished := by
    have pc : ((initialState cfg M).view.loc q).pc = .childSyncStarted := by
      simp [initialState, initialProcess, qchild.ne_parent]
    rintro (k | k) <;> cases pc.symm.trans k
  rw [if_pos (.inl unfinished)]
  rfl

/-- A `DONE` that is taken was the last one of its sender. -/
theorem Control.done_taken {v : ProcessView μ} (control : Control cfg v) {p q : Nat} {m : Message}
    (child : IsChild cfg.numChildren p) (ready : Ready cfg v p (some (q, m)))
    (isDone : m.type = .done) :
    (v.loc q).pc.Finished ∧ ∀ x ∈ (v.consume p (some (q, m))).chan q p, x.type ≠ .done := by
  obtain ⟨qchild, ne⟩ := control.sender_child child ready
  have link := control.incoming p q child qchild ne.symm
  have taken := ready.chan_eq q
  rw [Option.toList_some, outTo_cons, if_pos rfl] at taken
  rw [taken] at link
  constructor
  · by_contra unfinished
    exact link.quiet unfinished m (by simp) isDone
  · intro x mem isDone'
    have once := link.once
    have : 0 < ((v.consume p (some (q, m))).chan q p).countP (fun x => x.type = .done) :=
      List.countP_pos_iff.mpr ⟨x, mem, by simpa using isDone'⟩
    rw [List.countP_append, outTo_nil, List.append_nil, List.countP_singleton, if_pos (by
      simpa using isDone)] at once
    omega

theorem Notified.keep {v : ProcessView μ} {os : List Observation} (h : Notified cfg v os)
    (control : Control cfg v) (stamp : Nat → Process μ → Nat) {p : Nat}
    (child : IsChild cfg.numChildren p) {input : Option (Nat × Message)}
    (ready : Ready cfg v p input) {next : Next Nat (Process μ) Message}
    (step : ControlStep cfg.numChildren p (v.loc p).pc (v.loc p).awaitingChildren input next.1.pc
      next.1.awaitingChildren next.2) :
    Notified cfg ((v.consume p input).become p next)
      (os ++ childEvents stamp p input (v.loc p) next.1) := by
  intro a b ha hb ne
  rw [tookFrom_append, tookFrom_childEvents, ofType_append, h a b ha hb ne]
  by_cases actor : a = p
  · subst actor
    have sender : Pending ((v.consume a input).become a next) a b ↔
        ¬(v.loc b).pc.Finished ∨ ∃ x ∈ (v.consume a input).chan b a, x.type = .done := by
      rw [Pending, View.consume_become_loc, View.consume_become_chan, if_neg ne, if_neg ne,
        List.append_nil]
    rw [if_pos rfl]
    by_cases isDone : ∃ m, input = some (b, m) ∧ m.type = .done
    · obtain ⟨m, rfl, isDone⟩ := isDone
      obtain ⟨finished, last⟩ := control.done_taken child ready isDone
      have before : Pending v a b := by
        refine .inr ⟨m, ?_, isDone⟩
        rw [ready.chan_eq b, Option.toList_some, outTo_cons, if_pos rfl]
        simp
      have after : ¬Pending ((v.consume a (some (b, m))).become a next) a b := by
        rw [sender]
        rintro (unfinished | ⟨x, mem, isDone'⟩)
        · exact unfinished finished
        · exact last x mem isDone'
      rw [if_pos before, if_neg after, Option.toList_some, outTo_cons, if_pos rfl]
      simp [ofType, isDone]
    · have other (m : Message) (eq : input = some (b, m)) : m.type ≠ .done :=
        fun k => isDone ⟨m, eq, k⟩
      have none_ : ofType .done (outTo input.toList b) = 0 := by
        rw [ofType_eq_zero]
        intro m mem
        refine other m ?_
        have := mem_outTo.mp mem
        rwa [Option.mem_toList] at this
      have same : Pending ((v.consume a input).become a next) a b ↔ Pending v a b := by
        rw [sender, consume_done ready other]
        exact .rfl
      rw [none_]
      simp only [same, Nat.add_zero]
  · have same : Pending ((v.consume p input).become p next) a b ↔ Pending v a b := by
      rw [Pending, Pending, View.consume_become_loc, View.consume_become_chan,
        View.consume_chan_ne v input actor]
      by_cases source : b = p
      · subst source
        rw [if_pos rfl, if_pos rfl]
        exact step.pending_sender ha actor
      · rw [if_neg source, if_neg source, List.append_nil]
    rw [if_neg actor]
    simp only [same, ofType_nil, Nat.add_zero]

theorem Notified.parent {v v' : ProcessView μ} {os : List Observation} (h : Notified cfg v os)
    (frame : ParentFrame v v') : Notified cfg v' os := by
  intro p q child qchild ne
  rw [h p q child qchild ne]
  refine if_congr ?_ rfl rfl
  rw [Pending, Pending, frame.loc q qchild.ne_parent, frame.chan q p child.ne_parent]

/-! ## No failures -/

/-- No child has failed, and none can fail in its next step: no assertion, and no message of an
unexpected type. -/
structure Unfailing (cfg : Config) (M : MutexCode μ) (s : ProcessState μ) : Prop where
  running : ∀ p, IsChild cfg.numChildren p → ¬(s.loc p).pc.Failed
  safe : ∀ p, IsChild cfg.numChildren p → ∀ input, Ready cfg s.view p input →
    ¬Fails cfg M p (s.loc p) input
  requestCs_done : ∀ p, IsChild cfg.numChildren p → ∀ i, (s.loc p).pc = .requestCs i →
    ∀ q m, Ready cfg s.view p (some (q, m)) → ∀ l out,
      M.requestCsTake cfg p (s.loc p).locals q m = some (.nonCsMessageReceived, l, out) →
      m.type = .done
  handleCsRequests_done : ∀ p, IsChild cfg.numChildren p → (s.loc p).pc = .handleCsRequests →
    ∀ q m, Ready cfg s.view p (some (q, m)) → ∀ l out,
      M.handleCsRequests cfg p (s.loc p).locals q m = some (.nonCsMessageReceived, l, out) →
      m.type = .done

theorem Unfailing.of_mutex {s : ProcessState μ} (control : Control cfg s.view)
    (safe : ∀ p, IsChild cfg.numChildren p → ∀ input, Ready cfg s.view p input →
      ¬MutexFails cfg M p (s.loc p) input) : Unfailing cfg M s := by
  have never (p : Nat) (child : IsChild cfg.numChildren p) (input : Option (Nat × Message))
      (ready : Ready cfg s.view p input) : ¬Fails cfg M p (s.loc p) input :=
    fun fails => safe p child input ready (control.fails child ready fails)
  refine ⟨fun p child => (control.healthy p child).1, never, ?_, ?_⟩
  · intro p child i pc q m ready l out taken
    by_contra other
    exact never p child _ ready (.takeUnexpected pc taken other)
  · intro p child pc q m ready l out taken
    by_contra other
    exact never p child _ ready (.handleUnexpected pc taken other)

end Distra
