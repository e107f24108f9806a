import Distra.Pa23.ShapeSteps
import Mathlib.Logic.Relation

/-!
# Somebody can go on

In a shape whose parent has not exited, some process takes a step that is not an empty poll, after
at most a few empty polls of its own. A receive that waits for a message that has been sent finds
it, and one that waits for a message that has not been sent waits for a process that can go on.
-/

namespace Distra.Pa23

open Network

variable {δ : Type} {cfg : BankConfig} {B : BankCode δ}

/-- Process `p` looks at empty channels. -/
def Polls (cfg : BankConfig) (B : BankCode δ) (p : Nat) : BankState δ → BankState δ → Prop :=
  Relation.ReflTransGen (fun s s' => Step (start cfg B) s (.empty p) s')

/-- Some process can take a step other than an empty poll, maybe after empty polls of its own: the
message that `receive_any` finds may be in the last channel that it looks at. -/
def CanStep (cfg : BankConfig) (B : BankCode δ) (s : BankState δ) : Prop :=
  ∃ p ≤ cfg.numChildren, ∃ s₁ e s₂, Polls cfg B p s s₁ ∧ Step (start cfg B) s₁ e s₂ ∧
    e.actor = p ∧ e ≠ .empty p

section Start

variable {p : Nat} {st : Process δ}

def Acts (cfg : BankConfig) (B : BankCode δ) (p : Nat) (st : Process δ) : Prop :=
  ∃ next, start cfg B p st = .act next

def Receives (cfg : BankConfig) (B : BankCode δ) (p q : Nat) (st : Process δ) : Prop :=
  ∃ onMessage onEmpty, start cfg B p st = .receive q onMessage onEmpty

theorem start_child (child : p ≠ parentId) (le : p ≤ cfg.numChildren) :
    start cfg B p st = childEntry cfg.numChildren B p st := by
  rw [start, if_neg child, if_pos le]

theorem start_parent : start cfg B parentId st = parentEntry cfg.numChildren B cfg.orders st := by
  rw [start, if_pos rfl]

theorem ipcExtReceiveAll_acts {type : MessageType} {fr : Nat} {pc : Nat → Pc}
    {callback : Nat → BankMessage → Process δ → Option (Process δ)} {next : ProcessNext δ}
    (code : start cfg B p st =
      ipcExtReceiveAll cfg.numChildren B p st type fr pc callback next)
    (last : ipcReceiveAllNext cfg.numChildren p fr = none) : Acts cfg B p st := by
  refine ⟨next, ?_⟩
  rw [code, ipcExtReceiveAll, last]

/-- A blocking receive stays where it is. -/
def Waits (cfg : BankConfig) (B : BankCode δ) (p q : Nat) (st : Process δ) : Prop :=
  ∃ onMessage, start cfg B p st = .receive q onMessage (st, [])

theorem Waits.receives {q : Nat} (waits : Waits cfg B p q st) : Receives cfg B p q st := by
  obtain ⟨onMessage, code⟩ := waits
  exact ⟨onMessage, _, code⟩

theorem ipcExtReceiveAll_waits {type : MessageType} {fr q : Nat} {pc : Nat → Pc}
    {callback : Nat → BankMessage → Process δ → Option (Process δ)} {next : ProcessNext δ}
    (code : start cfg B p st =
      ipcExtReceiveAll cfg.numChildren B p st type fr pc callback next)
    (found : ipcReceiveAllNext cfg.numChildren p fr = some q) : Waits cfg B p q st := by
  rw [Waits, code, ipcExtReceiveAll, found]
  exact ⟨_, rfl⟩

/-- The program points at which a process waits for every child in turn. -/
inductive Pc.AtBarrier (p : Nat) : Pc → Nat → Prop
  | started {fr} : AtBarrier p (.awaitAllStarted fr) fr
  | done {fr} : AtBarrier p (.awaitAllDone fr) fr
  | histories {fr} : p = parentId → AtBarrier p (.receiveHistories fr) fr

theorem Pc.AtBarrier.code {fr : Nat} (at_ : st.pc.AtBarrier p fr) (le : p ≤ cfg.numChildren) :
    ∃ type pc callback next, start cfg B p st =
      ipcExtReceiveAll cfg.numChildren B p st type fr pc callback next := by
  by_cases parent : p = parentId
  · subst parent
    rw [start_parent]
    generalize pc : st.pc = pc at at_
    cases at_ <;>
    · simp only [parentEntry, pc]
      exact ⟨_, _, _, _, rfl⟩
  · rw [start_child parent le]
    generalize pc : st.pc = pc at at_
    cases at_ with
    | histories parent' => exact absurd parent' parent
    | _ =>
      simp only [childEntry, pc]
      exact ⟨_, _, _, _, rfl⟩

end Start

section Can

variable {s : BankState δ} {p : Nat} (le : p ≤ cfg.numChildren)
include le

theorem CanStep.send {x : Nat × BankMessage} {rest : BankSends} (pending : s.outbox p = x :: rest) :
    CanStep cfg B s :=
  ⟨p, le, s, _, _, .refl, .send pending, rfl, nofun⟩

theorem CanStep.act (idle : s.outbox p = []) (acts : Acts cfg B p (s.loc p)) : CanStep cfg B s := by
  obtain ⟨next, code⟩ := acts
  exact ⟨p, le, s, _, _, .refl, .act idle code, rfl, nofun⟩

theorem CanStep.take {q : Nat} (idle : s.outbox p = []) (receives : Receives cfg B p q (s.loc p))
    (nonempty : s.chan q p ≠ []) : CanStep cfg B s := by
  obtain ⟨onMessage, onEmpty, code⟩ := receives
  obtain ⟨m, rest, head⟩ := List.exists_cons_of_ne_nil nonempty
  exact ⟨p, le, s, _, _, .refl, .receive idle code head, rfl, nofun⟩

/-- How many channels `receive_any` still has to look at before that of `q`. -/
def scanDistance (n fr q : Nat) : Nat := if fr ≤ q then q - fr else n + 1 + q - fr

omit le in
theorem scanDistance_receiveAnyNext {n fr q : Nat} (fr_le : fr ≤ n)
    (hq : q ≤ n) (ne : q ≠ p) (other : fr ≠ q) :
    scanDistance n (receiveAnyNext n p fr) q < scanDistance n fr q := by
  rw [receiveAnyNext]
  cases found : ipcReceiveAllNext n p fr with
  | none =>
    have past : ¬fr < q := ipcReceiveAllNext_last found hq ne
    rw [Option.getD_none, scanDistance, scanDistance, if_pos (Nat.zero_le q), if_neg (by omega)]
    omega
  | some next =>
    obtain ⟨lt, le, -, -⟩ := ipcReceiveAllNext_eq_some found
    rw [Option.getD_some, scanDistance, scanDistance]
    by_cases ahead : fr < q
    · have : next ≤ q := (ipcReceiveAllNext_ahead found ne).mp ahead
      rw [if_pos this, if_pos ahead.le]
      omega
    · rw [if_neg (by omega), if_neg (by omega)]
      omega

theorem start_receiveAny {st : Process δ} {fr : Nat} (child : p ≠ parentId)
    (pc : st.pc = .receiveAny fr) :
    ∃ onMessage, start cfg B p st = .receive fr onMessage
      ({ st with pc := .receiveAny (receiveAnyNext cfg.numChildren p fr) }, []) := by
  rw [start_child child le]
  simp only [childEntry, pc]
  exact ⟨_, rfl⟩

/-- A child in its main loop comes to a channel that holds a message. -/
theorem CanStep.scan {fr q : Nat} (child : p ≠ parentId) (idle : s.outbox p = [])
    (pc : (s.loc p).pc = .receiveAny fr) (role : fr ≤ cfg.numChildren)
    (hq : q ≤ cfg.numChildren) (ne : q ≠ p) (nonempty : s.chan q p ≠ []) : CanStep cfg B s := by
  -- Induction on the channels between the one looked at and that of `q`, over all states that
  -- process `p` reaches by empty polls.
  suffices scan : ∀ d fr s₁, scanDistance cfg.numChildren fr q = d → fr ≤ cfg.numChildren →
      Polls cfg B p s s₁ → s₁.outbox p = [] → s₁.chan = s.chan → (s₁.loc p).pc = .receiveAny fr →
      CanStep cfg B s by
    exact scan _ fr s rfl role .refl idle rfl pc
  intro d
  induction d using Nat.strong_induction_on with
  | _ d ih =>
    intro fr s₁ distance role polls idle same pc
    obtain ⟨onMessage, code⟩ := start_receiveAny (B := B) le child pc
    cases head : s₁.chan fr p with
    | cons m rest => exact ⟨p, le, s₁, _, _, polls, .receive idle code head, rfl, nofun⟩
    | nil =>
      have other : fr ≠ q := by
        rintro rfl
        exact nonempty (same ▸ head)
      refine ih _ (distance ▸ scanDistance_receiveAnyNext role hq ne other)
        (receiveAnyNext cfg.numChildren p fr) _ rfl ?_ (polls.tail (.receiveEmpty idle code head))
        ?_ same ?_
      · rw [receiveAnyNext]
        cases found : ipcReceiveAllNext cfg.numChildren p fr with
        | none => exact Nat.zero_le _
        | some next => exact (ipcReceiveAllNext_eq_some found).2.1
      · simp [State.become]
      · simp [State.become]

/-- A process at a barrier that can take the next message, or has taken them all. -/
theorem CanStep.barrier {fr : Nat} (idle : s.outbox p = []) (at_ : (s.loc p).pc.AtBarrier p fr)
    (ready : ∀ q, ipcReceiveAllNext cfg.numChildren p fr = some q → s.chan q p ≠ []) :
    CanStep cfg B s := by
  obtain ⟨_, _, _, _, code⟩ := at_.code (B := B) le
  cases found : ipcReceiveAllNext cfg.numChildren p fr with
  | none => exact .act le idle (ipcExtReceiveAll_acts code found)
  | some q => exact .take le idle (ipcExtReceiveAll_waits code found).receives (ready q found)

end Can

section Stuck

variable {s : BankState δ} {flight : Flight} (h : Shape cfg s.view flight)
  (stuck : ¬CanStep cfg B s)

include stuck in
theorem idle_of_stuck {p : Nat} (le : p ≤ cfg.numChildren) : s.outbox p = [] := by
  cases pending : s.outbox p with
  | nil => rfl
  | cons x rest => exact absurd (.send le pending) stuck

include h stuck

/-- A message that has been sent is in its channel. -/
theorem Shape.arrived {a b : Nat} (ha : a ≤ cfg.numChildren) (hb : b ≤ cfg.numChildren)
    (ne : a ≠ b) (waits : (s.loc b).pc.taken b a < (s.loc a).pc.sent a)
    (short : (s.loc b).pc.taken b a < (script a b).length) : s.chan a b ≠ [] := by
  intro empty
  apply (h.fits a ha b hb ne).nonempty waits short
  rw [typesIn, State.view_chan, State.transit_of_idle (idle_of_stuck stuck ha), empty]
  rfl

theorem Shape.flight_arrived {a b : Nat} (ha : a ≤ cfg.numChildren) (hb : b ≤ cfg.numChildren)
    (ne : a ≠ b) (flies : flight.types a b ≠ []) : s.chan a b ≠ [] := by
  intro empty
  have eq := (h.fits a ha b hb ne).eq
  rw [typesIn, State.view_chan, State.transit_of_idle (idle_of_stuck stuck ha), empty] at eq
  exact flies (List.append_eq_nil_iff.mp eq.symm).2

/-- Every child has left its first barrier, and none is about to send its `DONE`. -/
theorem Shape.stuck_child {p : Nat} (child : IsChild cfg.numChildren p) :
    (∃ fr, (s.loc p).pc = .receiveAny fr) ∨ (∃ fr, (s.loc p).pc = .awaitAllDone fr) ∨
      (s.loc p).pc = .exited := by
  have fresh {q : Nat} (child : IsChild cfg.numChildren q) :
      (s.loc q).pc ≠ .childSyncStarted := by
    intro pc
    apply stuck
    apply CanStep.act child.2 (idle_of_stuck stuck child.2)
    rw [Acts, start_child child.ne_parent child.2]
    simp only [childEntry, pc]
    exact ⟨_, rfl⟩
  have role := h.role p child.2
  rw [State.view_loc] at role
  cases pc : (s.loc p).pc with
  | childSyncStarted => exact absurd pc (fresh child)
  | awaitAllStarted fr =>
    have at_ : (s.loc p).pc.AtBarrier p fr := by
      rw [pc]
      exact .started
    refine absurd (CanStep.barrier child.2 (idle_of_stuck stuck child.2) at_ ?_) stuck
    intro q found
    obtain ⟨lt, hq, ne, -⟩ := ipcReceiveAllNext_eq_some found
    have child' : IsChild cfg.numChildren q := ⟨Nat.zero_lt_of_lt lt, hq⟩
    have taken : (s.loc p).pc.taken p q = 0 := by
      rw [pc]
      exact if_pos lt
    apply h.arrived stuck hq child.2 ne
    · rw [taken]
      exact Pc.sent_pos (h.role q hq) child'.ne_parent (fresh child')
    · rw [taken, script, if_neg child'.ne_parent]
      split <;> exact Nat.zero_lt_succ _
  | receiveAny fr => exact .inl ⟨fr, rfl⟩
  | childSyncDone =>
    refine absurd (CanStep.act child.2 (idle_of_stuck stuck child.2) ?_) stuck
    rw [Acts, start_child child.ne_parent child.2]
    simp only [childEntry, pc]
    exact ⟨_, rfl⟩
  | awaitAllDone fr => exact .inr (.inl ⟨fr, rfl⟩)
  | exited => exact .inr (.inr rfl)
  | bankRobbery orders =>
    rw [pc] at role
    exact absurd role.1 child.ne_parent
  | awaitAck order orders =>
    rw [pc] at role
    exact absurd role.1 child.ne_parent
  | receiveHistories fr =>
    rw [pc] at role
    exact absurd role child.ne_parent
  | panicked =>
    rw [pc] at role
    exact role.elim
  | aborted =>
    rw [pc] at role
    exact role.elim

/-- A child in its main loop has nothing to read. -/
theorem Shape.stuck_receiveAny {p q fr : Nat} (child : IsChild cfg.numChildren p)
    (pc : (s.loc p).pc = .receiveAny fr) (hq : q ≤ cfg.numChildren) (ne : q ≠ p) :
    s.chan q p = [] := by
  have role := h.role p child.2
  rw [State.view_loc, pc] at role
  by_contra nonempty
  exact stuck
    (.scan child.2 child.ne_parent (idle_of_stuck stuck child.2) pc role.2.1 hq ne nonempty)

/-- When the parent has sent its `STOP`, every child has sent its `DONE`. -/
theorem Shape.stuck_stopped (stopped : 1 ≤ (s.loc parentId).pc.sent parentId) {p : Nat}
    (child : IsChild cfg.numChildren p) :
    (∃ fr, (s.loc p).pc = .awaitAllDone fr) ∨ (s.loc p).pc = .exited := by
  apply (h.stuck_child stuck child).resolve_left
  rintro ⟨fr, pc⟩
  have taken : (s.loc p).pc.taken p parentId = 0 := by
    rw [pc]
    rfl
  apply h.arrived stuck (parent_le _) child.2 child.ne_parent.symm
  · rw [taken]
    exact stopped
  · rw [taken]
    exact Nat.zero_lt_one
  · exact h.stuck_receiveAny stuck child pc (parent_le _) child.ne_parent.symm

theorem Shape.stuck_sent (stopped : 1 ≤ (s.loc parentId).pc.sent parentId) {p : Nat}
    (child : IsChild cfg.numChildren p) : 2 ≤ (s.loc p).pc.sent p := by
  rcases h.stuck_stopped stuck stopped child with ⟨fr, pc⟩ | pc
  · rw [pc]
    exact (if_neg child.ne_parent).ge
  · rw [pc, Pc.sent, if_neg child.ne_parent]
    exact Nat.le_succ 2

/-- Nobody waits for a `DONE`. -/
theorem Shape.stuck_awaitAllDone (stopped : 1 ≤ (s.loc parentId).pc.sent parentId) {p fr : Nat}
    (le : p ≤ cfg.numChildren) : (s.loc p).pc ≠ .awaitAllDone fr := by
  intro pc
  have at_ : (s.loc p).pc.AtBarrier p fr := by
    rw [pc]
    exact .done
  refine absurd (CanStep.barrier le (idle_of_stuck stuck le) at_ ?_) stuck
  intro q found
  obtain ⟨lt, hq, ne, -⟩ := ipcReceiveAllNext_eq_some found
  have child : IsChild cfg.numChildren q := ⟨Nat.zero_lt_of_lt lt, hq⟩
  have taken : (s.loc p).pc.taken p q = 1 := by
    rw [pc]
    exact if_pos lt
  apply h.arrived stuck hq le ne
  · rw [taken]
    exact h.stuck_sent stuck stopped child
  · rw [taken, script, if_neg child.ne_parent]
    split <;> exact Nat.one_lt_succ_succ _

omit stuck in
theorem Shape.not_stopped {order : TransferOrder} {orders : List TransferOrder}
    (pc : (s.loc parentId).pc = .awaitAck order orders) {p : Nat}
    (child : IsChild cfg.numChildren p) : (s.loc p).pc.taken p parentId = 0 := by
  have := (h.fits parentId (parent_le _) p child.2 child.ne_parent.symm).le
  simp only [State.view_loc, pc] at this
  exact Nat.le_zero.mp this

/-- The message of a transfer is not overlooked. -/
theorem Shape.stuck_flight {order : TransferOrder} {orders : List TransferOrder}
    (pc : (s.loc parentId).pc = .awaitAck order orders) {a p : Nat}
    (child : IsChild cfg.numChildren p) (ha : a ≤ cfg.numChildren) (ne : a ≠ p) :
    flight.types a p = [] := by
  have taken := h.not_stopped pc child
  have waits : ∃ fr, (s.loc p).pc = .receiveAny fr := by
    rcases h.stuck_child stuck child with waits | ⟨fr, pc'⟩ | pc'
    · exact waits
    · rw [pc', Pc.taken, if_neg (show ¬fr < parentId from Nat.not_lt_zero fr), if_pos rfl] at taken
      cases taken
    · rw [pc', Pc.taken, if_pos rfl] at taken
      cases taken
  obtain ⟨fr, pc'⟩ := waits
  by_contra flies
  exact h.flight_arrived stuck ha child.2 ne flies (h.stuck_receiveAny stuck child pc' ha ne)

theorem Shape.stuck_parent : (s.loc parentId).pc = .exited := by
  have idle := idle_of_stuck stuck (parent_le cfg.numChildren)
  have role := h.role parentId (parent_le _)
  have under := h.under
  rw [State.view_loc] at role under
  cases pc : (s.loc parentId).pc with
  | exited => rfl
  | childSyncStarted =>
    rw [pc] at role
    exact absurd rfl role
  | childSyncDone =>
    rw [pc] at role
    exact absurd rfl role
  | receiveAny fr =>
    rw [pc] at role
    exact absurd rfl role.1
  | panicked =>
    rw [pc] at role
    exact role.elim
  | aborted =>
    rw [pc] at role
    exact role.elim
  | awaitAllStarted fr =>
    have at_ : (s.loc parentId).pc.AtBarrier parentId fr := by
      rw [pc]
      exact .started
    refine absurd (CanStep.barrier (parent_le _) idle at_ ?_) stuck
    intro q found
    obtain ⟨lt, hq, ne, -⟩ := ipcReceiveAllNext_eq_some found
    have child : IsChild cfg.numChildren q := ⟨Nat.zero_lt_of_lt lt, hq⟩
    have taken : (s.loc parentId).pc.taken parentId q = 0 := by
      rw [pc]
      exact if_pos lt
    apply h.arrived stuck hq (parent_le _) ne
    · rw [taken]
      apply Pc.sent_pos (h.role q hq) ne
      intro fresh
      rw [State.view_loc] at fresh
      rcases h.stuck_child stuck child with ⟨fr, pc⟩ | ⟨fr, pc⟩ | pc <;> cases fresh.symm.trans pc
    · rw [taken, script, if_neg ne, if_pos rfl]
      decide
  | bankRobbery orders =>
    refine absurd (CanStep.act (parent_le _) idle ?_) stuck
    rw [Acts, start_parent]
    cases orders with
    | nil =>
      simp only [parentEntry, pc]
      exact ⟨_, rfl⟩
    | cons order orders =>
      simp only [parentEntry, pc]
      exact ⟨_, rfl⟩
  | awaitAck order orders =>
    rw [pc] at role under
    obtain ⟨-, ⟨⟨src, dst⟩, distinct⟩, -⟩ := role
    rcases under with rfl | rfl | rfl
    · have none_ := h.stuck_flight stuck pc src (parent_le _) src.ne_parent.symm
      rw [Flight.types, if_pos ⟨rfl, rfl⟩] at none_
      cases none_
    · have none_ := h.stuck_flight stuck pc dst src.2 distinct
      rw [Flight.types, if_pos ⟨rfl, rfl⟩] at none_
      cases none_
    · have receives : Receives cfg B parentId order.dst (s.loc parentId) := by
        rw [Receives, start_parent]
        simp only [parentEntry, pc]
        exact ⟨_, _, rfl⟩
      refine absurd (CanStep.take (parent_le _) idle receives ?_) stuck
      apply h.flight_arrived stuck dst.2 (parent_le _) dst.ne_parent
      rw [Flight.types, if_pos ⟨rfl, rfl⟩]
      simp
  | awaitAllDone fr =>
    refine absurd pc (h.stuck_awaitAllDone stuck ?_ (parent_le _))
    rw [pc]
    exact Nat.le_refl 1
  | receiveHistories fr =>
    have stopped : 1 ≤ (s.loc parentId).pc.sent parentId := by
      rw [pc]
      exact Nat.le_refl 1
    have at_ : (s.loc parentId).pc.AtBarrier parentId fr := by
      rw [pc]
      exact .histories rfl
    refine absurd (CanStep.barrier (parent_le _) idle at_ ?_) stuck
    intro q found
    obtain ⟨lt, hq, ne, -⟩ := ipcReceiveAllNext_eq_some found
    have child : IsChild cfg.numChildren q := ⟨Nat.zero_lt_of_lt lt, hq⟩
    have taken : (s.loc parentId).pc.taken parentId q = 2 := by
      rw [pc]
      exact if_pos lt
    have exited : (s.loc q).pc = .exited := by
      apply (h.stuck_stopped stuck stopped child).resolve_left
      rintro ⟨fr', waits⟩
      exact h.stuck_awaitAllDone stuck stopped hq waits
    apply h.arrived stuck hq (parent_le _) ne
    · rw [taken, exited, Pc.sent, if_neg ne]
      exact Nat.lt_succ_self 2
    · rw [taken, script, if_neg ne, if_pos rfl]
      decide

end Stuck

theorem Shape.canStep {s : BankState δ} {flight : Flight} (h : Shape cfg s.view flight)
    (running : (s.loc parentId).pc ≠ .exited) : CanStep cfg B s := by
  by_contra stuck
  exact running (h.stuck_parent stuck)

end Distra.Pa23
