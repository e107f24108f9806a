import Distra.Pa2.Transfers
import Distra.Pa23.Doomed
import Distra.Pa3.ClockBound

/-!
# Runs that complete

As long as no `DONE` has been lost and no child is doomed to lose one, the processes can go on to
their end: while the parent has not sent its `STOP`s there is no `DONE`, and after that every child
first finishes its scan, and then waits for its `STOP` at the channel of the parent.
-/

namespace Distra.Pa23

open Network

variable {δ : Type} {cfg : BankConfig} {B : BankCode δ} {s s' : BankState δ}
  {e : Event Nat BankMessage} {ts : List (Transition Nat (Process δ) BankMessage)} {flight : Flight}
  {p : Nat}

/-- Nothing has been lost, and nothing is about to be lost. -/
structure Safe (cfg : BankConfig) (B : BankCode δ) (s : BankState δ) : Prop where
  reached : ∃ ts, Run (start cfg B) (initialState cfg B) ts s
  shape : ∃ flight, Shape cfg s.view flight
  clear : ∀ p, IsChild cfg.numChildren p → ¬Doomed s p

/-- The processes can go on safely. -/
def Advances (cfg : BankConfig) (B : BankCode δ) (s : BankState δ) : Prop :=
  ∃ ts s', Run (start cfg B) s ts s' ∧ (∃ t ∈ ts, ¬Polling t) ∧ Safe cfg B s'

theorem Advances.after (run : Run (start cfg B) s ts s') (h : Advances cfg B s') :
    Advances cfg B s := by
  obtain ⟨ts', s'', run', ⟨t, mem, busy⟩, safe⟩ := h
  exact ⟨ts ++ ts', s'', run.trans run', ⟨t, List.mem_append_right _ mem, busy⟩, safe⟩

theorem Advances.of_step (step : Step (start cfg B) s e s') (busy : ∀ p, e ≠ .empty p)
    (safe : Safe cfg B s') : Advances cfg B s :=
  ⟨_, s', Run.nil.snoc step, ⟨_, List.mem_singleton_self _, fun ⟨p, eq⟩ => busy p eq⟩, safe⟩

/-- A safe step: no main loop takes a `DONE`, none is written to a child in the middle of a scan,
and no child passes the channel of the parent while a `DONE` stands in another. -/
theorem Safe.step (lawful : B.Lawful) (h : Safe cfg B s) (step : Step (start cfg B) s e s')
    (takes : ∀ p q m, e = .take p q m → m.body.type = .done → (s.loc p).pc ≠ .receiveAny q)
    (writes : ∀ p q m, e = .send q p m → m.body.type = .done →
      ∀ fr ∈ (s.loc p).pc.looksAt, fr = parentId)
    (starts : ∀ p, e = .empty p → (s.loc p).pc = .receiveAny parentId →
      ∀ q, ∀ m ∈ s.chan q p, m.body.type ≠ .done) : Safe cfg B s' := by
  obtain ⟨ts, run⟩ := h.reached
  obtain ⟨flight, shape⟩ := h.shape
  refine ⟨⟨_, run.snoc step⟩, shape.orderly_step lawful step (fun q m => takes _ q m) rfl,
    fun p child doomed => ?_⟩
  rcases doomed.before step with
    before | ⟨q, m, sent, done, fr, looks, inside⟩ | ⟨eq, pc, q, m, mem, done⟩
  · exact h.clear p child before
  · exact inside (writes p q m sent done fr looks)
  · exact starts p eq pc q m mem done

section Safe

variable (lawful : B.Lawful) (drops : B.Drops) (h : Safe cfg B s)
include lawful drops h

theorem Safe.within {a b : Nat} (some_ : s.transit a b ≠ []) :
    (a ≤ cfg.numChildren ∧ b ≤ cfg.numChildren) ∧ a ≠ b := by
  obtain ⟨ts, run⟩ := h.reached
  exact BankRun.within lawful drops ⟨ts, s, run⟩ some_

/-- The parent sends no `DONE`. -/
theorem Safe.not_done_of_parent {m : BankMessage} (mem : m ∈ s.transit parentId p) :
    m.body.type ≠ .done := by
  obtain ⟨flight, shape⟩ := h.shape
  obtain ⟨⟨-, le⟩, ne⟩ := h.within lawful drops (List.ne_nil_of_mem mem)
  exact shape.not_done_of_parent le ne mem

/-- A child that scans is none of the parent, and has not sent its `DONE`. -/
theorem Safe.child_of_receiveAny (le : p ≤ cfg.numChildren) {fr : Nat}
    (pc : (s.loc p).pc = .receiveAny fr) :
    IsChild cfg.numChildren p ∧ ∀ q, IsChild cfg.numChildren q → ∀ m ∈ s.transit p q,
      m.body.type ≠ .done := by
  obtain ⟨flight, shape⟩ := h.shape
  have role := shape.role p le
  rw [State.view_loc, pc] at role
  have child : IsChild cfg.numChildren p := ⟨Nat.pos_of_ne_zero role.1, le⟩
  refine ⟨child, fun q child' m mem done => ?_⟩
  obtain ⟨-, ne⟩ := h.within lawful drops (List.ne_nil_of_mem mem)
  have sent := shape.sentDone child child' ne mem (Body.eq_done done)
  rw [State.view_loc, pc] at sent
  exact sent

/-! ## Scans that come to their end -/

/-- What a child in the middle of a scan still has in its buffer can be written. -/
theorem Safe.flush_scan {fr : Nat} (le : p ≤ cfg.numChildren) (pc : (s.loc p).pc = .receiveAny fr)
    {x : Nat × BankMessage} {rest : BankSends} (pending : s.outbox p = x :: rest) :
    Advances cfg B s := by
  obtain ⟨q, m⟩ := x
  have step : Step (start cfg B) s (.send p q m) _ := .send pending
  have mem := step.send_transit
  obtain ⟨⟨-, hq⟩, -⟩ := h.within lawful drops (List.ne_nil_of_mem mem)
  obtain ⟨-, silent⟩ := h.child_of_receiveAny lawful drops le pc
  refine .of_step step nofun (h.step lawful step nofun (fun a b m' eq done fr looks => ?_) nofun)
  cases eq
  have pc' := Pc.receiveAny_of_looksAt looks
  obtain ⟨child, -⟩ := h.child_of_receiveAny lawful drops hq pc'
  exact absurd done (silent q child m mem)

/-- What a child finds in the middle of a scan is no `DONE`. -/
theorem Safe.take_scan {fr : Nat} (le : p ≤ cfg.numChildren) (pc : (s.loc p).pc = .receiveAny fr)
    (inside : fr ≠ parentId) (idle : s.outbox p = []) (some_ : s.chan fr p ≠ []) :
    Advances cfg B s := by
  obtain ⟨child, -⟩ := h.child_of_receiveAny lawful drops le pc
  obtain ⟨onMessage, code⟩ := start_receiveAny (B := B) le child.ne_parent pc
  obtain ⟨m, rest, head⟩ := List.exists_cons_of_ne_nil some_
  have step : Step (start cfg B) s (.take p fr m) _ := .receive idle code head
  refine .of_step step nofun (h.step lawful step (fun a b m' eq done _ => ?_) nofun nofun)
  cases eq
  have mem : m ∈ s.chan fr p := head ▸ List.mem_cons_self
  exact h.clear p child ⟨fr, congrArg Pc.looksAt pc, inside, fr, le_rfl, m, mem, done⟩

/-- It finds nothing, and goes on to the next channel. -/
theorem Safe.look_scan {fr : Nat} (le : p ≤ cfg.numChildren) (pc : (s.loc p).pc = .receiveAny fr)
    (inside : fr ≠ parentId) (idle : s.outbox p = []) (empty : s.chan fr p = []) :
    ∃ s', Step (start cfg B) s (.empty p) s' ∧ Safe cfg B s' ∧ (∀ a ≠ p, s'.loc a = s.loc a) ∧
      (s'.loc p).pc = .receiveAny (receiveAnyNext cfg.numChildren p fr) := by
  obtain ⟨child, -⟩ := h.child_of_receiveAny lawful drops le pc
  obtain ⟨onMessage, code⟩ := start_receiveAny (B := B) le child.ne_parent pc
  have step : Step (start cfg B) s (.empty p) _ := .receiveEmpty idle code empty
  refine ⟨_, step, h.step lawful step nofun nofun fun a eq pc' => ?_,
    fun a ne => Function.update_of_ne ne _ _, by simp [State.become]⟩
  cases eq
  exact absurd (Pc.receiveAny.inj (pc.symm.trans pc')) inside

end Safe

section Safe

variable (lawful : B.Lawful) (drops : B.Drops)
include lawful drops

/-- A child in the middle of a scan can take or write a message, or come to the end of its scan. -/
theorem Safe.park (h : Safe cfg B s) (le : p ≤ cfg.numChildren) :
    Advances cfg B s ∨ ∃ ts s', Run (start cfg B) s ts s' ∧ Safe cfg B s' ∧
      (∀ a ≠ p, s'.loc a = s.loc a) ∧ ∀ fr ∈ (s'.loc p).pc.looksAt, fr = parentId := by
  by_cases scans : ∃ fr, (s.loc p).pc = .receiveAny fr ∧ fr ≠ parentId
  · obtain ⟨fr, pc, inside⟩ := scans
    -- Induction on the channels that the scan still has before it.
    generalize left : cfg.numChildren - fr = d
    induction d using Nat.strong_induction_on generalizing s fr with
    | _ d ih =>
      cases pending : s.outbox p with
      | cons x rest => exact .inl (h.flush_scan lawful drops le pc pending)
      | nil =>
        by_cases empty : s.chan fr p = []
        · obtain ⟨s₁, step, safe, loc, pc'⟩ := h.look_scan lawful drops le pc inside pending empty
          cases found : ipcReceiveAllNext cfg.numChildren p fr with
          | none =>
            refine .inr ⟨_, s₁, Run.nil.snoc step, safe, loc, fun fr' looks => ?_⟩
            rw [receiveAnyNext, found] at pc'
            exact (Pc.receiveAny.inj (pc'.symm.trans (Pc.receiveAny_of_looksAt looks))).symm
          | some next =>
            obtain ⟨lt, bound, -⟩ := ipcReceiveAllNext_eq_some found
            rw [receiveAnyNext, found, Option.getD_some] at pc'
            rcases ih _ (by omega) safe next pc' (Nat.ne_of_gt (Nat.zero_lt_of_lt lt)) rfl with
              advances | ⟨ts, s', run, safe', same, parked⟩
            · exact .inl (advances.after (Run.nil.snoc step))
            · exact .inr ⟨_, s', (Run.nil.snoc step).trans run, safe',
                fun a ne => (same a ne).trans (loc a ne), parked⟩
        · exact .inl (h.take_scan lawful drops le pc inside pending empty)
  · refine .inr ⟨[], s, .nil, h, fun _ _ => rfl, fun fr looks => ?_⟩
    by_contra inside
    exact scans ⟨fr, Pc.receiveAny_of_looksAt looks, inside⟩

/-- All children can come to the end of their scans. -/
theorem Safe.park_all (h : Safe cfg B s) :
    Advances cfg B s ∨ ∃ ts s', Run (start cfg B) s ts s' ∧ Safe cfg B s' ∧
      s'.loc parentId = s.loc parentId ∧
        ∀ p, IsChild cfg.numChildren p → ∀ fr ∈ (s'.loc p).pc.looksAt, fr = parentId := by
  suffices upTo : ∀ k ≤ cfg.numChildren, Advances cfg B s ∨ ∃ ts s', Run (start cfg B) s ts s' ∧
      Safe cfg B s' ∧ s'.loc parentId = s.loc parentId ∧
        ∀ p, IsChild k p → ∀ fr ∈ (s'.loc p).pc.looksAt, fr = parentId from upTo _ le_rfl
  intro k
  induction k with
  | zero => exact fun _ => .inr ⟨[], s, .nil, h, rfl, fun p child => by
      have := child.1
      have := child.2
      omega⟩
  | succ k ih =>
    intro le
    rcases ih (Nat.le_of_succ_le le) with advances | ⟨ts, s₁, run, safe, top, parked⟩
    · exact .inl advances
    · rcases safe.park lawful drops le with advances | ⟨ts', s₂, run', safe', same, own⟩
      · exact .inl (advances.after run)
      · refine .inr ⟨_, s₂, run.trans run', safe', ?_, fun p child => ?_⟩
        · rw [same parentId (Nat.succ_ne_zero k).symm, top]
        · by_cases last : p = k + 1
          · exact last ▸ own
          · rw [same p last]
            exact parked p ⟨child.1, Nat.le_of_lt_succ (lt_of_le_of_ne child.2 last)⟩

/-! ## Steps to the end -/

/-- Where all main loops look at the channel of the parent, and its `STOP`s are on their way, there
is a safe step. -/
theorem Safe.advances_parked (h : Safe cfg B s)
    (parked : ∀ p, IsChild cfg.numChildren p → ∀ fr ∈ (s.loc p).pc.looksAt, fr = parentId)
    (stopped : 1 ≤ (s.loc parentId).pc.sent parentId)
    (running : (s.loc parentId).pc ≠ .exited) : Advances cfg B s := by
  by_contra stuck
  have scans {p fr : Nat} (le : p ≤ cfg.numChildren) (pc : (s.loc p).pc = .receiveAny fr) :
      IsChild cfg.numChildren p ∧ fr = parentId := by
    obtain ⟨child, -⟩ := h.child_of_receiveAny lawful drops le pc
    exact ⟨child, parked p child fr (congrArg Pc.looksAt pc)⟩
  have idle (p : Nat) : s.outbox p = [] := by
    cases pending : s.outbox p with
    | nil => rfl
    | cons x rest =>
      obtain ⟨q, m⟩ := x
      have step : Step (start cfg B) s (.send p q m) _ := .send pending
      obtain ⟨⟨-, hq⟩, -⟩ := h.within lawful drops (List.ne_nil_of_mem step.send_transit)
      refine absurd (.of_step step (by simp)
        (h.step lawful step (by simp) (fun a b m' eq _ fr looks => ?_) (by simp))) stuck
      cases eq
      exact (scans hq (Pc.receiveAny_of_looksAt looks)).2
  obtain ⟨flight, shape⟩ := h.shape
  refine not_canStep_of_blocked (fun p le => ⟨idle p, ?_⟩) (shape.canStep (B := B) running)
  cases code : start cfg B p (s.loc p) with
  | stop => exact .inl rfl
  | poll => exact (can_of_code code (by simp)).elim
  | act next =>
    have step := Step.act (idle p) code
    exact absurd (.of_step step (by simp) (h.step lawful step (by simp) (by simp) (by simp))) stuck
  | receive q onMessage onEmpty =>
    by_cases empty : s.chan q p = []
    · by_cases loops : ∃ fr, (s.loc p).pc = .receiveAny fr
      · obtain ⟨fr, pc⟩ := loops
        obtain ⟨child, rfl⟩ := scans le pc
        obtain ⟨-, _, receives⟩ := receives_of_receiveAny pc code (by simp)
        cases receives
        -- The `STOP` has not been taken yet, so it is there.
        have taken : (s.view.loc p).pc.taken p parentId = 0 := by
          rw [State.view_loc, pc]
          rfl
        refine absurd ?_ ((shape.fits parentId (parent_le _) p le child.ne_parent.symm).nonempty
          (taken ▸ stopped) (taken ▸ Nat.zero_lt_one))
        rw [typesIn, State.view_chan, State.transit_of_idle (idle parentId), empty]
        rfl
      · have stays := blocked_of_receive code fun fr pc => loops ⟨fr, pc⟩
        rw [stays] at code
        exact .inr ⟨q, ⟨onMessage, code⟩, empty⟩
    · obtain ⟨m, rest, head⟩ := List.exists_cons_of_ne_nil empty
      have step : Step (start cfg B) s (.take p q m) _ := .receive (idle p) code head
      refine absurd (.of_step step (by simp)
        (h.step lawful step (fun a b m' eq done pc => ?_) (by simp) (by simp))) stuck
      cases eq
      obtain ⟨-, rfl⟩ := scans le pc
      have mem : m ∈ s.chan parentId p := head ▸ List.mem_cons_self
      exact h.not_done_of_parent lawful drops (List.mem_append_left _ mem) done

/-- As long as the parent has not sent its `STOP`s, there is no `DONE`. -/
theorem Safe.not_done (h : Safe cfg B s) (early : ¬1 ≤ (s.loc parentId).pc.sent parentId) {q : Nat}
    {m : BankMessage} (child : p ≠ parentId) (mem : m ∈ s.transit q p) : m.body.type ≠ .done := by
  intro done
  obtain ⟨flight, shape⟩ := h.shape
  obtain ⟨⟨hq, le⟩, ne⟩ := h.within lawful drops (List.ne_nil_of_mem mem)
  by_cases parent : q = parentId
  · subst parent
    exact h.not_done_of_parent lawful drops mem done
  · exact early (shape.stopped_of_done ⟨Nat.pos_of_ne_zero parent, hq⟩
      ⟨Nat.pos_of_ne_zero child, le⟩ ne mem done)

/-- As long as there is no `DONE`, every step is safe. -/
theorem Safe.early_step (h : Safe cfg B s) (early : ¬1 ≤ (s.loc parentId).pc.sent parentId)
    (step : Step (start cfg B) s e s') : Safe cfg B s' := by
  have not_done {p fr q : Nat} {m : BankMessage} (pc : (s.loc p).pc = .receiveAny fr)
      (mem : m ∈ s.transit q p) : m.body.type ≠ .done := by
    obtain ⟨⟨-, le⟩, -⟩ := h.within lawful drops (List.ne_nil_of_mem mem)
    obtain ⟨child, -⟩ := h.child_of_receiveAny lawful drops le pc
    exact h.not_done lawful drops early child.ne_parent mem
  refine h.step lawful step ?_ ?_ ?_
  · rintro a q m rfl done pc
    exact not_done pc (List.mem_append_left _ (step.input_mem rfl).2) done
  · rintro a q m rfl done fr looks
    exact absurd done (not_done (Pc.receiveAny_of_looksAt looks) step.send_transit)
  · exact fun a _ pc q m mem => not_done pc (List.mem_append_left _ mem)

/-- Looks at empty channels are safe as long as there is no `DONE`, and leave the parent alone. -/
theorem Safe.polls (h : Safe cfg B s) (early : ¬1 ≤ (s.loc parentId).pc.sent parentId)
    (le : p ≤ cfg.numChildren) (polls : Polls cfg B p s s') :
    ∃ ts, Run (start cfg B) s ts s' ∧ Safe cfg B s' ∧ s'.loc parentId = s.loc parentId := by
  induction polls with
  | refl => exact ⟨[], .nil, h, rfl⟩
  | @tail s₁ s₂ _ step ih =>
    obtain ⟨ts, run, safe, top⟩ := ih
    refine ⟨_, run.snoc step, safe.early_step lawful drops (top ▸ early) step, ?_⟩
    rw [← top]
    by_cases parent : p = parentId
    · subst parent
      cases step with
      | pollEmpty _ code => exact (can_of_code code nofun).elim
      | receiveEmpty idle code =>
        have stays := blocked_of_receive code fun fr pc =>
          (safe.child_of_receiveAny lawful drops le pc).1.ne_parent rfl
        rw [stays, State.become_self idle]
    · exact step.loc_of_ne (Ne.symm parent)

theorem Safe.advances (h : Safe cfg B s) (running : (s.loc parentId).pc ≠ .exited) :
    Advances cfg B s := by
  by_cases stopped : 1 ≤ (s.loc parentId).pc.sent parentId
  · rcases h.park_all lawful drops with advances | ⟨ts, s₁, run, safe, top, parked⟩
    · exact advances
    · rw [← top] at stopped running
      exact (safe.advances_parked lawful drops parked stopped running).after run
  · obtain ⟨flight, shape⟩ := h.shape
    obtain ⟨p, le, s₁, e, s₂, polls, step, actor, busy⟩ := shape.canStep (B := B) running
    obtain ⟨ts, run, safe, top⟩ := h.polls lawful drops stopped le polls
    refine Advances.after run (.of_step step ?_ (safe.early_step lawful drops (top ▸ stopped) step))
    rintro a rfl
    exact busy (actor ▸ rfl)

end Safe

/-! ## Every run -/

/-- The processes can come to their end. -/
def Completable (cfg : BankConfig) (B : BankCode δ) (s : BankState δ) : Prop :=
  ∃ ts s', Run (start cfg B) s ts s' ∧ Completed cfg s'

/-- Nothing but looks at empty channels keeps a run from its end, or from a state in which all
processes wait for a `DONE` that has been lost. -/
structure Terminates (r : BankRun cfg B) : Prop where
  bounded : ∀ l : List (Transition Nat (Process δ) BankMessage), l.Sublist r.transitions →
    (∀ t ∈ l, ¬Polling t) → l.length ≤ bankStepLimit cfg.numChildren cfg.orders.length
  continues : ∃ ts s, Run (start cfg B) r.final ts s ∧ ¬CanStep cfg B s
  ended : ¬CanStep cfg B r.final → (Completed cfg r.final ↔ Awaits r.transitions)

theorem Polls.run (polls : Polls cfg B p s s') : ∃ ts, Run (start cfg B) s ts s' := by
  induction polls with
  | refl => exact ⟨[], .nil⟩
  | tail _ step ih =>
    obtain ⟨ts, run⟩ := ih
    exact ⟨_, run.snoc step⟩

section Runs

variable (lawful : B.Lawful) (drops : B.Drops)
include lawful drops

theorem BankRun.terminates (r : BankRun cfg B) : Terminates r where
  bounded _ sub busy :=
    ((bank_climbs lawful drops).length_le r.run sub busy).trans (bank_measure_le lawful drops r.run)
  continues := by
    obtain ⟨ts, s, run, -, still⟩ := (bank_climbs lawful drops).exists_stopped
      (fun _ _ run => bank_measure_le lawful drops run) (fun _ => True)
      (fun s => ¬CanStep cfg B s) (fun _ s _ _ moves => by
        obtain ⟨p, -, s₁, e, s₂, polls, step, actor, busy⟩ := not_not.mp moves
        obtain ⟨ts, run⟩ := polls.run
        refine ⟨_, s₂, run.snoc step, ⟨_, List.mem_append_right _ (List.mem_singleton_self _), ?_⟩,
          trivial⟩
        rintro ⟨a, rfl⟩
        exact busy (actor ▸ rfl)) r.run trivial
    exact ⟨ts, s, run, still⟩
  ended still := by
    constructor
    · exact fun completed =>
        awaits_of_exited lawful drops r (completed.exited parentId (parent_le _))
    · intro awaits
      obtain ⟨flight, shape⟩ := shape_of_awaits lawful r.run awaits
      exact completed_of_exited lawful drops r (not_not.mp fun running =>
        still (shape.canStep running))

/-- A doomed child is doomed for ever, if no `DONE` gets lost. -/
theorem Doomed.run (r : BankRun cfg B) (doomed : Doomed r.final p)
    (run : Run (start cfg B) r.final ts s) (awaits : Awaits (r.transitions ++ ts)) :
    Doomed s p := by
  induction run with
  | nil => exact doomed
  | @snoc ts s e s' run step ih =>
    rw [← List.append_assoc] at awaits
    obtain ⟨before, last⟩ := awaits_snoc.mp awaits
    have run := r.run.trans run
    obtain ⟨flight, shape⟩ := shape_of_awaits lawful run before
    refine (ih before).step shape (fun a b => BankRun.within lawful drops ⟨_, s, run⟩) step
      fun q m take done pc => ?_
    obtain ⟨fr, pc'⟩ := last p q m take done
    cases pc.symm.trans pc'

theorem BankRun.completable_iff (r : BankRun cfg B) :
    Completable cfg B r.final ↔
      Awaits r.transitions ∧ ∀ p, IsChild cfg.numChildren p → ¬Doomed r.final p := by
  constructor
  · rintro ⟨ts, s, run, completed⟩
    have awaits := awaits_of_exited lawful drops ⟨_, s, r.run.trans run⟩
      (completed.exited parentId (parent_le _))
    refine ⟨awaits.left, fun p child doomed => ?_⟩
    obtain ⟨fr, looks, -⟩ := doomed.run lawful drops r run awaits
    rw [completed.exited p child.2] at looks
    cases looks
  · rintro ⟨awaits, clear⟩
    have safe : Safe cfg B r.final := ⟨⟨_, r.run⟩, shape_of_awaits lawful r.run awaits, clear⟩
    obtain ⟨ts, s, run, -, exited⟩ := (bank_climbs lawful drops).exists_stopped
      (fun _ _ run => bank_measure_le lawful drops run) (Safe cfg B)
      (fun s => (s.loc parentId).pc = .exited)
      (fun _ _ _ safe running => safe.advances lawful drops running) r.run safe
    exact ⟨ts, s, run, completed_of_exited lawful drops ⟨_, s, r.run.trans run⟩ exited⟩

end Runs

/-- A `DONE` that has been lost is not awaited. -/
theorem Deadlocks.not_awaits {r : BankRun cfg B} (h : Deadlocks r) : ¬Awaits r.transitions := by
  intro awaits
  obtain ⟨t, mem, p, q, m, fr, take, done, pc⟩ := h.lost
  obtain ⟨fr', pc'⟩ := awaits t mem p q m take done
  cases pc.symm.trans pc'

/-- All but so many steps of any run look at an empty channel, any run can be continued until no
other step is left, and then all processes have ended, unless a `DONE` has been lost. The Lamport
clocks must not leave the array of a history. -/
theorem banks_terminate (cfg : BankConfig) (physical : Pa2.Physical) :
    (Pa3.clockLimit cfg ≤ maxT → ∀ r : BankRun cfg Pa3.bank, Terminates r) ∧
      ∀ r : BankRun cfg (Pa2.bank physical), Terminates r :=
  ⟨fun _ r => r.terminates Pa3.bank_lawful Pa3.bank_drops,
    fun r => r.terminates (Pa2.bank_lawful physical) (Pa2.bank_drops physical)⟩

/-- Not all of these runs come to an end of all processes. -/
theorem banks_terminate_noTransfers :
    (∃ r : BankRun noTransfers Pa3.bank, Terminates r ∧ ¬CanStep noTransfers Pa3.bank r.final ∧
      ¬Completed noTransfers r.final) ∧
    ∃ r : BankRun noTransfers (Pa2.bank sameSecond), Terminates r ∧
      ¬CanStep noTransfers (Pa2.bank sameSecond) r.final ∧ ¬Completed noTransfers r.final := by
  obtain ⟨lamport, physical⟩ := banks_terminate noTransfers sameSecond
  constructor
  · obtain ⟨r, deadlocks⟩ : ∃ r : BankRun noTransfers Pa3.bank, Deadlocks r := by
      apply deadlocks_of_followDone
      decide +kernel
    have terminates := lamport (by decide) r
    exact ⟨r, terminates, deadlocks.stuck,
      fun completed => deadlocks.not_awaits ((terminates.ended deadlocks.stuck).mp completed)⟩
  · obtain ⟨r, deadlocks⟩ : ∃ r : BankRun noTransfers (Pa2.bank sameSecond), Deadlocks r := by
      apply deadlocks_of_followDone
      decide +kernel
    have terminates := physical r
    exact ⟨r, terminates, deadlocks.stuck,
      fun completed => deadlocks.not_awaits ((terminates.ended deadlocks.stuck).mp completed)⟩

/-- A run can be completed if and only if no `DONE` has been lost, and no child in the middle of a
scan has one before it. -/
theorem banks_completable_iff (cfg : BankConfig) (physical : Pa2.Physical) :
    (Pa3.clockLimit cfg ≤ maxT → ∀ r : BankRun cfg Pa3.bank, Completable cfg Pa3.bank r.final ↔
      Awaits r.transitions ∧ ∀ p, IsChild cfg.numChildren p → ¬Doomed r.final p) ∧
      ∀ r : BankRun cfg (Pa2.bank physical), Completable cfg (Pa2.bank physical) r.final ↔
        Awaits r.transitions ∧ ∀ p, IsChild cfg.numChildren p → ¬Doomed r.final p :=
  ⟨fun _ r => r.completable_iff Pa3.bank_lawful Pa3.bank_drops,
    fun r => r.completable_iff (Pa2.bank_lawful physical) (Pa2.bank_drops physical)⟩

/-- At their start both banks can come to their end, and after a lost `DONE` they cannot. -/
theorem banks_completable_iff_noTransfers :
    (Completable noTransfers Pa3.bank (initialState noTransfers Pa3.bank) ∧
      ∃ r : BankRun noTransfers Pa3.bank, ¬Completable noTransfers Pa3.bank r.final) ∧
    Completable noTransfers (Pa2.bank sameSecond) (initialState noTransfers (Pa2.bank sameSecond)) ∧
      ∃ r : BankRun noTransfers (Pa2.bank sameSecond),
        ¬Completable noTransfers (Pa2.bank sameSecond) r.final := by
  obtain ⟨lamport, physical⟩ := banks_completable_iff noTransfers sameSecond
  have lamport := lamport (by decide)
  refine ⟨⟨?_, ?_⟩, ?_, ?_⟩
  · refine (lamport ⟨[], _, .nil⟩).mpr ⟨fun _ mem => absurd mem List.not_mem_nil, ?_⟩
    exact fun p _ => not_doomed_initial p
  · obtain ⟨r, deadlocks⟩ : ∃ r : BankRun noTransfers Pa3.bank, Deadlocks r := by
      apply deadlocks_of_followDone
      decide +kernel
    exact ⟨r, fun completable => deadlocks.not_awaits ((lamport r).mp completable).1⟩
  · refine (physical ⟨[], _, .nil⟩).mpr ⟨fun _ mem => absurd mem List.not_mem_nil, ?_⟩
    exact fun p _ => not_doomed_initial p
  · obtain ⟨r, deadlocks⟩ : ∃ r : BankRun noTransfers (Pa2.bank sameSecond), Deadlocks r := by
      apply deadlocks_of_followDone
      decide +kernel
    exact ⟨r, fun completable => deadlocks.not_awaits ((physical r).mp completable).1⟩

end Distra.Pa23
