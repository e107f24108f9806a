import Distra.Pa2.Processes
import Distra.Pa23.Progress
import Distra.Pa3.Processes

/-!
# Shutdown

The loop of `child_entry` takes any message of any process and drops a `DONE`. The `STOP` of a slow
child may come after the `DONE` of a fast one, so a child that looks at the wrong channel at the
wrong time loses a `DONE` and waits for it forever. As long as this does not happen, nobody
deadlocks.
-/

namespace Distra.Pa23

open Network

variable {δ : Type} {cfg : BankConfig} {B : BankCode δ}

/-- The channel that the main loop looks at. -/
def Pc.looksAt : Pc → Option Nat
  | .receiveAny fr => some fr
  | _ => none

/-- The next step of process `p` looks, in its main loop, at a channel that holds a `DONE`. -/
def PollsDone (s : BankState δ) (p : Nat) : Prop :=
  s.outbox p = [] ∧ ∃ fr ∈ (s.loc p).pc.looksAt, ∃ m ∈ s.chan fr p, m.body.type = .done

instance (s : BankState δ) (p : Nat) : Decidable (PollsDone s p) :=
  inferInstanceAs (Decidable (_ ∧ _))

/-- No step of a run does. -/
def Quiet (ts : List (Transition Nat (Process δ) BankMessage)) : Prop :=
  ∀ t ∈ ts, ¬PollsDone t.before t.event.actor

structure ShutsDown (r : BankRun cfg B) : Prop where
  /-- Only `ipc_ext_await_all_done` takes a `DONE`. -/
  consumes : ∀ t ∈ r.transitions, ∀ p q m, t.event = .take p q m → m.body.type = .done →
    ∃ fr, (t.before.loc p).pc = .awaitAllDone fr
  /-- No `DONE` to a child is left in the end. -/
  consumed : (r.final.loc parentId).pc = .exited → ∀ p q, IsChild cfg.numChildren p →
    IsChild cfg.numChildren q → p ≠ q → ∀ m ∈ r.final.transit p q, m.body.type ≠ .done
  goesOn : (r.final.loc parentId).pc ≠ .exited → CanStep cfg B r.final

/-- A step that does not poll a `DONE` keeps the shape, and takes a `DONE` only in
`ipc_ext_await_all_done`. -/
theorem shape_of_step (lawful : B.Lawful) {s s' : BankState δ} {e : Event Nat BankMessage}
    {flight : Flight} (h : Shape cfg s.view flight) (step : Step (start cfg B) s e s')
    (quiet : ¬PollsDone s e.actor) :
    (∃ flight', Shape cfg s'.view flight') ∧
      ∀ p q m, e = .take p q m → m.body.type = .done → ∃ fr, (s.loc p).pc = .awaitAllDone fr := by
  rcases step.view with ⟨same, p, q, m, rfl⟩ | move
  · rw [same]
    exact ⟨⟨flight, h⟩, nofun⟩
  · obtain ⟨le, ready, next, after, local_ | ⟨⟨q, m⟩, input, fails, -⟩⟩ := bank_move move
    · have orderly : Orderly (s.view.loc e.actor) e.input := by
        cases input : e.input with
        | none => trivial
        | some x =>
          intro pc done
          obtain ⟨idle, mem⟩ := step.input_mem input
          exact quiet ⟨idle, x.1, congrArg Pc.looksAt pc, x.2, mem, congrArg Body.type done⟩
      obtain ⟨flight', shaped, shape⟩ := h.step lawful le ready orderly local_
      rw [after]
      refine ⟨⟨flight', shape⟩, ?_⟩
      rintro p q m rfl done
      cases shaped with
      | done pc => exact ⟨_, pc⟩
      | _ => cases done
    · rw [input] at ready
      exact absurd fails (h.not_fails le ready)

theorem shape_of_run (lawful : B.Lawful) {ts : List (Transition Nat (Process δ) BankMessage)}
    {s : BankState δ} (run : Run (start cfg B) (initialState cfg B) ts s)
    (quiet : Quiet ts) :
    (∃ flight, Shape cfg s.view flight) ∧
      ∀ t ∈ ts, ∀ p q m, t.event = .take p q m → m.body.type = .done →
        ∃ fr, (t.before.loc p).pc = .awaitAllDone fr := by
  induction run with
  | nil => exact ⟨⟨.none, shape_initial⟩, nofun⟩
  | @snoc ts s e s' _ step ih =>
    obtain ⟨⟨flight, shape⟩, before⟩ := ih (fun t mem => quiet t (List.mem_append_left _ mem))
    obtain ⟨after, consumes⟩ :=
      shape_of_step lawful shape step (quiet _ (List.mem_append_right _ List.mem_cons_self))
    refine ⟨after, fun t mem => ?_⟩
    rcases List.mem_append.mp mem with mem | mem
    · exact before t mem
    · rw [List.mem_singleton.mp mem]
      exact consumes

/-- When the parent has exited, every child has taken every `DONE`. -/
theorem Shape.consumed {v : BankView δ} {flight : Flight} (h : Shape cfg v flight)
    (exited : (v.loc parentId).pc = .exited) {p q : Nat} (p_child : IsChild cfg.numChildren p)
    (q_child : IsChild cfg.numChildren q) (ne : p ≠ q) : v.chan p q = [] := by
  have under := h.under
  rw [exited] at under
  obtain rfl := under
  have taken : (v.loc parentId).pc.taken parentId q = 3 := by
    rw [exited, Pc.taken, if_neg q_child.ne_parent, if_pos rfl]
  have sent := (h.fits q q_child.2 parentId (parent_le _) q_child.ne_parent).le
  rw [taken] at sent
  have taken : (v.loc q).pc.taken q p = 2 := by
    rw [Pc.exited_of_sent q_child.ne_parent sent, Pc.taken, if_neg p_child.ne_parent,
      if_neg q_child.ne_parent]
  have eq := (h.fits p p_child.2 q q_child.2 ne).eq
  rw [taken, Flight.types, List.append_nil, List.drop_eq_nil_of_le] at eq
  · exact List.map_eq_nil_iff.mp eq
  · rw [List.length_take, script, if_neg p_child.ne_parent, if_neg q_child.ne_parent]
    exact Nat.min_le_right _ _

/-- Unless a main loop polls a `DONE`, every `DONE` is taken where it is awaited, and nobody
deadlocks. -/
theorem shutsDown_of_quiet (lawful : B.Lawful) (r : BankRun cfg B)
    (quiet : Quiet r.transitions) : ShutsDown r := by
  obtain ⟨⟨flight, shape⟩, consumes⟩ := shape_of_run lawful r.run quiet
  constructor
  · exact consumes
  · intro exited p q p_child q_child ne m mem
    have empty : r.final.transit p q = [] := shape.consumed exited p_child q_child ne
    rw [empty] at mem
    cases mem
  · exact shape.canStep

/-- Child 1 has 100, and child 2 gets 30 of it. -/
def oneTransfer : BankConfig where
  numChildren := 2
  pos := by decide
  le_max := by decide
  startBalances := fun p => if p = 1 then 100 else 0
  orders := [⟨1, 2, 30⟩]
  valid := by decide

/-- All calls of `get_physical_time` in the same second. -/
def sameSecond : Pa2.Physical := ⟨fun _ _ => 0, fun _ => 0⟩

def oneTransferSchedule : List (Choice Nat) :=
  [.act 1, .send 1, .send 1, .act 2, .send 2, .send 2, .take 1 2, .act 1, .take 2 1, .act 2,
    .take 0 1, .take 0 2, .act 0, .act 0, .send 0, .take 1 0, .send 1, .empty 2, .take 2 1,
    .send 2, .take 0 2, .act 0, .send 0, .send 0, .take 1 0, .take 2 0, .act 1, .send 1, .send 1,
    .act 2, .send 2, .send 2, .take 1 2, .take 2 1, .act 1, .send 1, .act 2, .send 2, .take 0 1,
    .take 0 2, .act 0, .take 0 1, .take 0 2, .act 0]

/-! ## A lost `DONE` -/

/-- A `DONE` is taken in a main loop, and then everybody waits. -/
structure Deadlocks (r : BankRun cfg B) : Prop where
  lost : ∃ t ∈ r.transitions, ∃ p q m fr, t.event = .take p q m ∧ m.body.type = .done ∧
    (t.before.loc p).pc = .receiveAny fr
  running : (r.final.loc parentId).pc ≠ .exited
  stuck : ¬CanStep cfg B r.final

/-- Every process waits for an empty channel, or has ended. -/
def Blocked (cfg : BankConfig) (B : BankCode δ) (s : BankState δ) (p : Nat) : Prop :=
  s.outbox p = [] ∧ (start cfg B p (s.loc p) = .stop ∨
    ∃ q, Waits cfg B p q (s.loc p) ∧ s.chan q p = [])

theorem Blocked.step {s s' : BankState δ} {e : Event Nat BankMessage} {p : Nat}
    (blocked : Blocked cfg B s p) (step : Step (start cfg B) s e s') (actor : e.actor = p) :
    e = .empty p ∧ s' = s := by
  obtain ⟨idle, stop | ⟨q, ⟨onMessage, waits⟩, empty⟩⟩ := blocked
  · cases step <;> subst actor <;> simp_all [Event.actor]
  · cases step with
    | receiveEmpty idle' code =>
      subst actor
      have := waits.symm.trans code
      simp only [Action.receive.injEq] at this
      obtain ⟨-, -, rfl⟩ := this
      exact ⟨rfl, State.become_self idle⟩
    | _ => subst actor; simp_all [Event.actor]

theorem Blocked.polls {s s₁ : BankState δ} {p : Nat} (blocked : Blocked cfg B s p)
    (polls : Polls cfg B p s s₁) : s₁ = s := by
  induction polls with
  | refl => rfl
  | tail _ step ih =>
    subst ih
    exact (blocked.step step rfl).2

theorem not_canStep_of_blocked {s : BankState δ}
    (blocked : ∀ p ≤ cfg.numChildren, Blocked cfg B s p) : ¬CanStep cfg B s := by
  rintro ⟨p, le, s₁, e, s₂, polls, step, actor, busy⟩
  obtain rfl := (blocked p le).polls polls
  exact busy ((blocked p le).step step actor).1

/-- Two children, and no transfers. -/
def noTransfers : BankConfig where
  numChildren := 2
  pos := by decide
  le_max := by decide
  startBalances := fun _ => 100
  orders := []
  valid := nofun

/-- Child 2 has passed the channel of the parent when the parent sends its `STOP` to child 1. -/
def untilDone : List (Choice Nat) :=
  [.act 1, .send 1, .send 1, .act 2, .send 2, .send 2, .take 1 2, .act 1, .take 2 1, .act 2,
    .take 0 1, .take 0 2, .act 0, .empty 2, .act 0, .send 0, .take 1 0, .act 1, .send 1, .send 1]

def afterDone : List (Choice Nat) :=
  [.send 0, .take 2 0, .act 2, .send 2, .send 2, .take 1 2, .act 1, .send 1, .take 0 1, .take 0 2,
    .act 0, .take 0 1]

/-- Child 2 is about to read the `DONE` of child 1 in its main loop. -/
def BeforeDone (s : BankState δ) : Prop :=
  (s.loc 2).pc = .receiveAny 1 ∧ (s.chan 1 2).head?.map (·.body.type) = some .done

/-- Child 2 waits for the `DONE` of child 1, and the parent for the history of child 2. -/
def AfterDone (s : BankState δ) : Prop :=
  (s.loc 0).pc = .receiveHistories 1 ∧ (s.loc 1).pc = .exited ∧ (s.loc 2).pc = .awaitAllDone 0 ∧
    (s.chan 2 0).map (·.body.type) = [] ∧ (s.chan 1 2).map (·.body.type) = [] ∧
    ∀ p < 3, (s.outbox p).map (·.1) = []

instance (s : BankState δ) : Decidable (BeforeDone s) := inferInstanceAs (Decidable (_ ∧ _))

instance (s : BankState δ) : Decidable (AfterDone s) := inferInstanceAs (Decidable (_ ∧ _))

theorem AfterDone.blocked {s : BankState δ} (h : AfterDone s) {p : Nat} (le : p ≤ 2) :
    Blocked noTransfers B s p := by
  obtain ⟨parent, first, second, histories, dones, idle⟩ := h
  refine ⟨List.map_eq_nil_iff.mp (idle p (Nat.lt_succ_of_le le)), ?_⟩
  have at_ (p fr : Nat) (at_ : (s.loc p).pc.AtBarrier p fr) (le : p ≤ 2) (q : Nat)
      (found : ipcReceiveAllNext 2 p fr = some q) : Waits noTransfers B p q (s.loc p) := by
    obtain ⟨_, _, _, _, code⟩ := at_.code (B := B) (show p ≤ noTransfers.numChildren from le)
    exact ipcExtReceiveAll_waits code found
  match p, le with
  | 0, le =>
    refine .inr ⟨2, at_ 0 1 ?_ le 2 rfl, List.map_eq_nil_iff.mp histories⟩
    rw [parent]
    exact .histories rfl
  | 1, le =>
    refine .inl ?_
    rw [start_child (by decide) le]
    simp only [childEntry, first]
  | 2, le =>
    refine .inr ⟨1, at_ 2 0 ?_ le 1 rfl, List.map_eq_nil_iff.mp dones⟩
    rw [second]
    exact .done

/-- The run of a schedule that loses the `DONE` of child 1. -/
theorem deadlocks_of_schedule {s₁ s₂ s₃ : BankState δ}
    (before : (initialState noTransfers B).follow? (start noTransfers B) untilDone = some s₁)
    (take : s₁.step? (start noTransfers B) (.take 2 1) = some s₂)
    (after : s₂.follow? (start noTransfers B) afterDone = some s₃)
    (lost : BeforeDone s₁) (stuck : AfterDone s₃) :
    ∃ r : BankRun noTransfers B, Deadlocks r := by
  obtain ⟨ts, run⟩ := Run.follow? .nil before
  obtain ⟨m, step, head⟩ := State.step?_take take
  obtain ⟨ts', run⟩ := Run.follow? (run.snoc step) after
  refine ⟨⟨_, s₃, run⟩, ?_⟩
  constructor
  · refine ⟨_, List.mem_append_left _ (List.mem_append_right _ List.mem_cons_self), 2, 1, m, 1, rfl,
      ?_, lost.1⟩
    have done := lost.2
    rw [head] at done
    exact Option.some.inj done
  · exact fun exited => nomatch stuck.1.symm.trans exited
  · exact not_canStep_of_blocked (fun p le => stuck.blocked le)

/-- The states at the three points of the schedule. -/
def followDone (B : BankCode δ) : Option (BankState δ × BankState δ) :=
  ((initialState noTransfers B).follow? (start noTransfers B) untilDone).bind fun s₁ =>
    (s₁.step? (start noTransfers B) (.take 2 1)).bind fun s₂ =>
      (s₂.follow? (start noTransfers B) afterDone).map fun s₃ => (s₁, s₃)

theorem deadlocks_of_followDone
    (h : (followDone B).any (fun s => BeforeDone s.1 ∧ AfterDone s.2) = true) :
    ∃ r : BankRun noTransfers B, Deadlocks r := by
  obtain ⟨⟨s₁, s₃⟩, followed, check⟩ := (Option.any_eq_true _ _).mp h
  obtain ⟨s₁', before, followed⟩ := Option.bind_eq_some_iff.mp followed
  obtain ⟨s₂, take, followed⟩ := Option.bind_eq_some_iff.mp followed
  obtain ⟨s₃', after, eq⟩ := Option.map_eq_some_iff.mp followed
  obtain ⟨rfl, rfl⟩ := Prod.mk.inj eq
  obtain ⟨lost, stuck⟩ := of_decide_eq_true check
  exact deadlocks_of_schedule before take after lost stuck

theorem shutdown_deadlocks :
    (∃ r : BankRun noTransfers Pa3.bank, Deadlocks r) ∧
      ∃ r : BankRun noTransfers (Pa2.bank sameSecond), Deadlocks r := by
  constructor
  · apply deadlocks_of_followDone
    decide +kernel
  · apply deadlocks_of_followDone
    decide +kernel

end Distra.Pa23
