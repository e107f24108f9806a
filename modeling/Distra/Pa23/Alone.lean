import Distra.Network.History
import Distra.Pa23.Steps

/-!
# A child by itself

What a child does depends on the messages that it takes, and on nothing else. `runChild` is
`child_entry` as a function of them, and in every run a child that has exited has done the same
(`BankRun.runChild`).
-/

namespace Distra.Pa23

open Network

variable {δ : Type}

section Code

variable (B : BankCode δ) (self : Nat)

/-- The loop of `child_entry` for the messages that `receive_any` takes. None is left when it
breaks. -/
def childLoops : δ → List BankMessage → Option (Loop × δ)
  | d, [] => some (.goesOn, d)
  | d, m :: rest =>
    match B.childLoop self d m with
    | (.goesOn, d, _) => childLoops d rest
    | (.breaks, d, _) =>
      match rest with
      | [] => some (.breaks, d)
      | _ :: _ => none

/-- `child_entry` before its loop. The barrier takes `started`. -/
def beforeLoop (n : Nat) (d : δ) (started : List BankMessage) : δ :=
  started.foldl B.ipcExtReceive (B.childSyncStarted n self d).1

/-- `child_entry` after its loop, up to the history. The barrier takes `dones`. -/
def afterLoop (n : Nat) (d : δ) (dones : List BankMessage) : δ :=
  dones.foldl B.ipcExtReceive (B.childSyncDone n self d).1

/-- `child_entry`, which ends with its variables and what it sends last. -/
def runChild (n : Nat) (d : δ) (started messages dones : List BankMessage) :
    Option (δ × BankSends) :=
  match childLoops B self (beforeLoop B self n d started) messages with
  | some (.breaks, d) => some (B.sendHistory (afterLoop B self n d dones))
  | _ => none

end Code

section Loops

variable {B : BankCode δ} {self : Nat} {d d' d'' : δ} {m : BankMessage}
  {messages : List BankMessage} {loop : Loop} {out : BankSends}

/-- One more message. -/
theorem childLoops_snoc (before : childLoops B self d messages = some (.goesOn, d'))
    (last : B.childLoop self d' m = (loop, d'', out)) :
    childLoops B self d (messages ++ [m]) = some (loop, d'') := by
  induction messages generalizing d with
  | nil =>
    cases before
    rw [List.nil_append, childLoops, last]
    cases loop <;> rfl
  | cons first rest ih =>
    rw [childLoops] at before
    rw [List.cons_append, childLoops]
    split at before
    next => exact ih before
    next => split at before <;> cases before

end Loops

/-! ## Children of a run -/

/-- The messages that process `p` has taken. -/
def inputsOf (p : Nat) (ts : List (Transition Nat (Process δ) BankMessage)) : List BankMessage :=
  ts.filterMap fun t =>
    match t.event with
    | .take p' _ m => if p' = p then some m else none
    | _ => none

theorem inputsOf_snoc (p : Nat) (ts : List (Transition Nat (Process δ) BankMessage))
    (t : Transition Nat (Process δ) BankMessage) :
    inputsOf p (ts ++ [t]) = inputsOf p ts ++
      if p = t.event.actor then t.event.input.toList.map Prod.snd else [] := by
  rw [inputsOf, inputsOf, List.filterMap_append]
  congr 1
  obtain ⟨s, event, s'⟩ := t
  cases event with
  | take p' q m =>
    by_cases own : p' = p
    · subst own
      simp [Event.actor, Event.input]
    · simp [Event.actor, own, Ne.symm own]
  | act | send | empty => simp [Event.input]

/-- The messages up to some point in the loop, or up to its end. -/
def Looped (B : BankCode δ) (self n : Nat) (d : δ) (loop : Loop) (d' : δ)
    (messages : List BankMessage) : Prop :=
  ∃ started looped, messages = started ++ looped ∧ (∀ m ∈ started, m.body.type = .started) ∧
    childLoops B self (beforeLoop B self n d started) looped = some (loop, d')

/-- How far `child_entry` has come with the messages that it has taken. -/
def Phase (B : BankCode δ) (self n : Nat) (d : δ) : Pc → δ → List BankMessage → Prop
  | .childSyncStarted, d', messages => d' = d ∧ messages = []
  | .awaitAllStarted _, d', messages =>
    (∀ m ∈ messages, m.body.type = .started) ∧ d' = beforeLoop B self n d messages
  | .receiveAny _, d', messages => Looped B self n d .goesOn d' messages
  | .childSyncDone, d', messages => Looped B self n d .breaks d' messages
  | .awaitAllDone _, d', messages =>
    ∃ before dones d₁, messages = before ++ dones ∧ Looped B self n d .breaks d₁ before ∧
      (∀ m ∈ dones, m.body.type = .done) ∧ d' = afterLoop B self n d₁ dones
  | .exited, d', messages =>
    ∃ started looped dones out, messages = started ++ looped ++ dones ∧
      (∀ m ∈ started, m.body.type = .started) ∧ (∀ m ∈ dones, m.body.type = .done) ∧
      runChild B self n d started looped dones = some (d', out)
  | _, _, _ => True

section Phase

variable {cfg : BankConfig} {B : BankCode δ} {p : Nat} {d : δ} {st : Process δ}
  {input : Option (Nat × BankMessage)} {next : ProcessNext δ} {messages : List BankMessage}
  {m : BankMessage}

theorem forall_mem_snoc {type : MessageType} (all : ∀ m ∈ messages, m.body.type = type)
    (last : m.body.type = type) : ∀ x ∈ messages ++ [m], x.body.type = type := by
  intro x mem
  rcases List.mem_append.mp mem with mem | mem
  · exact all x mem
  · rw [List.mem_singleton.mp mem]
    exact last

theorem Looped.snoc {d₁ d₂ : δ} {loop : Loop} {out : BankSends} {n : Nat}
    (h : Looped B p n d .goesOn d₁ messages)
    (last : B.childLoop p d₁ m = (loop, d₂, out)) : Looped B p n d loop d₂ (messages ++ [m]) := by
  obtain ⟨started, looped, rfl, types, run⟩ := h
  refine ⟨started, looped ++ [m], (List.append_assoc _ _ _), types, ?_⟩
  exact childLoops_snoc run last

theorem Phase.step (h : Phase B p cfg.numChildren d st.pc st.data messages)
    (child : p ≠ parentId) (step : Stepped cfg B p st input next) :
    Phase B p cfg.numChildren d next.1.pc next.1.data
      (messages ++ input.toList.map Prod.snd) := by
  have taken (m : BankMessage) (q : Nat) :
      messages ++ (some (q, m)).toList.map Prod.snd = messages ++ [m] := rfl
  have none_ : messages ++ (none : Option (Nat × BankMessage)).toList.map Prod.snd = messages :=
    List.append_nil messages
  rcases step with step | ⟨x, -, -, failed⟩
  · cases step with
    | childSyncStarted _ pc =>
      rw [pc] at h
      obtain ⟨data, rfl⟩ := h
      refine ⟨nofun, ?_⟩
      rw [← data]
      rfl
    | started pc _ type =>
      rw [pc] at h
      refine ⟨forall_mem_snoc h.1 type, ?_⟩
      rw [taken, beforeLoop, List.foldl_append, Process.goTo, h.2]
      rfl
    | childStarted _ pc =>
      rw [pc] at h
      rw [none_]
      exact ⟨messages, [], (List.append_nil _).symm, h.1, congrArg _ (congrArg _ h.2.symm)⟩
    | goesOn _ pc loop | breaks _ pc loop =>
      rw [pc] at h
      exact Looped.snoc h loop
    | looked _ pc =>
      rw [pc] at h
      rw [none_]
      exact h
    | childSyncDone _ pc =>
      rw [pc] at h
      rw [none_]
      exact ⟨messages, [], st.data, (List.append_nil _).symm, h, nofun, rfl⟩
    | @done _ _ m pc _ type =>
      rw [pc] at h
      obtain ⟨before, dones, d₁, rfl, looped, types, data⟩ := h
      refine ⟨before, dones ++ [m], d₁, List.append_assoc _ _ _, looped,
        forall_mem_snoc types type, ?_⟩
      rw [afterLoop, List.foldl_append, Process.goTo, data]
      rfl
    | childDone _ pc =>
      rw [pc] at h
      obtain ⟨before, dones, d₁, rfl, ⟨started, looped, rfl, types, run⟩, types', data⟩ := h
      rw [none_]
      refine ⟨started, looped, dones, (B.sendHistory st.data).2, rfl, types, types', ?_⟩
      rw [runChild, run, data]
      rfl
    | parentStarted parent | parentDone parent | transfer parent | ack parent | sendStop parent
    | history parent | printHistory parent => exact absurd parent child
    | blocked =>
      rw [none_]
      exact h
  · rcases failed.pc with pc | pc
    · rw [pc]
      trivial
    · rw [pc]
      trivial

end Phase

theorem BankRun.phase {cfg : BankConfig} {B : BankCode δ} (r : BankRun cfg B) {p : Nat}
    (child : p ≠ parentId) :
    Phase B p cfg.numChildren (B.start p (cfg.startBalances p)) (r.final.loc p).pc
      (r.final.loc p).data (inputsOf p r.transitions) := by
  obtain ⟨ts, s, run⟩ := r
  induction run with
  | nil =>
    have pc : (initialProcess cfg B p).pc = .childSyncStarted := if_neg child
    change Phase B p cfg.numChildren _ (initialProcess cfg B p).pc _ _
    rw [pc]
    exact ⟨rfl, rfl⟩
  | @snoc ts s e s' _ step ih =>
    rw [inputsOf_snoc]
    rcases step.view with ⟨same, a, b, m, rfl⟩ | move
    · have loc : s'.loc = s.loc := congrArg View.loc same
      have silent : (if p = (Event.send a b m).actor then
          (Event.send a b m).input.toList.map Prod.snd else []) = [] := ite_self _
      rw [silent, List.append_nil]
      change Phase B p cfg.numChildren _ (s'.loc p).pc _ _
      rw [loc]
      exact ih
    · obtain ⟨-, -, next, after, step⟩ := bank_move move
      have loc : s'.loc p = if p = e.actor then next.1 else s.loc p :=
        (congrArg (fun v => v.loc p) after).trans (View.consume_become_loc _ _ _ _ _)
      change Phase B p cfg.numChildren _ (s'.loc p).pc (s'.loc p).data _
      rw [loc]
      split
      next own =>
        subst own
        exact Phase.step ih child step
      next =>
        rw [List.append_nil]
        exact ih

/-- In every run, a child that has exited has run `child_entry` with the messages that it has
taken. -/
theorem BankRun.runChild {cfg : BankConfig} {B : BankCode δ} (r : BankRun cfg B) {p : Nat}
    (child : p ≠ parentId) (exited : (r.final.loc p).pc = .exited) :
    ∃ started messages dones out, inputsOf p r.transitions = started ++ messages ++ dones ∧
      (∀ m ∈ started, m.body.type = .started) ∧ (∀ m ∈ dones, m.body.type = .done) ∧
      runChild B p cfg.numChildren (B.start p (cfg.startBalances p)) started messages dones =
        some ((r.final.loc p).data, out) := by
  have phase := r.phase child
  rw [exited] at phase
  exact phase

end Distra.Pa23
