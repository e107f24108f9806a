import Distra.Pa23.Shutdown
import Distra.Pa23.Termination

/-!
# Children that are about to lose a `DONE`

A child in the middle of a scan that comes to a `DONE` before it looks at the channel of the parent
again takes it in its main loop, whatever the others do. Only a `DONE` written during the scan, or a
scan that starts too late, gets a child there. Where every `DONE` is taken as it should be, the
parent's end is that of all.
-/

namespace Distra.Pa23

open Network

variable {δ : Type} {cfg : BankConfig} {B : BankCode δ} {s s' : BankState δ}
  {e : Event Nat BankMessage} {ts : List (Transition Nat (Process δ) BankMessage)} {flight : Flight}
  {p : Nat}

/-- Every `DONE` is taken in `ipc_ext_await_all_done`. -/
def Awaits (ts : List (Transition Nat (Process δ) BankMessage)) : Prop :=
  ∀ t ∈ ts, ∀ p q m, t.event = .take p q m → m.body.type = .done →
    ∃ fr, (t.before.loc p).pc = .awaitAllDone fr

/-- In its main loop, child `p` comes to a `DONE` before it looks at the channel of the parent. -/
def Doomed (s : BankState δ) (p : Nat) : Prop :=
  ∃ fr ∈ (s.loc p).pc.looksAt, fr ≠ parentId ∧ ∃ q, fr ≤ q ∧ ∃ m ∈ s.chan q p, m.body.type = .done

/-- All processes have ended, with nothing left in the channels, and the histories are printed. -/
structure Completed (cfg : BankConfig) (s : BankState δ) : Prop where
  exited : ∀ p ≤ cfg.numChildren, (s.loc p).pc = .exited
  printed : (s.loc parentId).printed ≠ none
  flushed : ∀ p, s.outbox p = []
  empty : ∀ p q, s.chan p q = []

/-! ## Lost and not lost -/

theorem Awaits.left {ts' : List (Transition Nat (Process δ) BankMessage)}
    (h : Awaits (ts ++ ts')) : Awaits ts :=
  fun t mem => h t (List.mem_append_left _ mem)

theorem awaits_snoc {t : Transition Nat (Process δ) BankMessage} :
    Awaits (ts ++ [t]) ↔ Awaits ts ∧ ∀ p q m, t.event = .take p q m → m.body.type = .done →
      ∃ fr, (t.before.loc p).pc = .awaitAllDone fr := by
  simp only [Awaits, List.forall_mem_append, List.forall_mem_singleton]

/-- A step that takes no `DONE` in a main loop keeps the shape. -/
theorem Shape.orderly_step (lawful : B.Lawful) (h : Shape cfg s.view flight)
    (step : Step (start cfg B) s e s')
    (awaits : ∀ q m, e = .take p q m → m.body.type = .done → (s.loc p).pc ≠ .receiveAny q)
    (actor : e.actor = p) : ∃ flight', Shape cfg s'.view flight' := by
  subst actor
  rcases step.view with ⟨same, -⟩ | move
  · rw [same]
    exact ⟨flight, h⟩
  · obtain ⟨le, ready, next, after, local_ | ⟨⟨q, m⟩, input, fails, -⟩⟩ := bank_move move
    · have orderly : Orderly (s.view.loc e.actor) e.input := by
        cases e with
        | take p q m => exact fun pc done => awaits q m rfl (congrArg Body.type done) pc
        | _ => trivial
      obtain ⟨flight', -, shape⟩ := h.step lawful le ready orderly local_
      rw [after]
      exact ⟨flight', shape⟩
    · rw [input] at ready
      exact absurd fails (h.not_fails le ready)

theorem shape_of_awaits (lawful : B.Lawful) (run : Run (start cfg B) (initialState cfg B) ts s)
    (awaits : Awaits ts) : ∃ flight, Shape cfg s.view flight := by
  induction run with
  | nil => exact ⟨.none, shape_initial⟩
  | snoc _ step ih =>
    obtain ⟨before, last⟩ := awaits_snoc.mp awaits
    obtain ⟨flight, shape⟩ := ih before
    refine shape.orderly_step lawful step (fun q m take done pc => ?_) rfl
    obtain ⟨fr, pc'⟩ := last _ q m take done
    cases pc.symm.trans pc'

/-- The parent prints at its end. -/
theorem printed_iff (lawful : B.Lawful) (drops : B.Drops) (r : BankRun cfg B) :
    (r.final.loc parentId).printed = none ↔ (r.final.loc parentId).pc ≠ .exited := by
  refine r.local_invariant lawful drops
    (K := fun p st => p = parentId → (st.printed = none ↔ st.pc ≠ .exited)) ?_ ?_ parentId rfl
  · rintro p rfl
    simp [initialProcess]
  · rintro p - st flight input next flight' before step rfl
    have before := before rfl
    cases step with
    | dropped ne => exact absurd rfl ne
    | shaped step =>
      cases step with
      | childSyncStarted ne | childStarted ne | looked ne | stop ne | childSyncDone ne
      | childDone ne => exact absurd rfl ne
      | printHistory => simp
      | blocked => exact before
      | started pc | parentStarted _ pc | depart _ pc | forward _ pc | deliver _ _ pc | ack _ pc
      | sendStop _ pc | done pc | parentDone _ pc | history _ pc =>
        rw [pc] at before
        simpa [Process.goTo] using before

/-- Where a `DONE` has not been taken as it should, it is lost. -/
theorem lost_of_not_awaits (lawful : B.Lawful) (drops : B.Drops)
    (run : Run (start cfg B) (initialState cfg B) ts s) (lost : ¬Awaits ts) :
    ∃ p q, Lost cfg s.view p q := by
  induction run with
  | nil => exact absurd nofun lost
  | @snoc ts s e s' run step ih =>
    by_cases before : Awaits ts
    · obtain ⟨flight, shape⟩ := shape_of_awaits lawful run before
      simp only [awaits_snoc, before, true_and, not_forall] at lost
      obtain ⟨p, q, m, take, done, other⟩ := lost
      subst take
      rcases step.view with ⟨-, _, _, _, eq⟩ | move
      · cases eq
      · obtain ⟨le, ready, next, after, local_ | ⟨_, input, fails, -⟩⟩ := bank_move move
        · rw [after]
          have unprinted := (printed_iff lawful drops ⟨ts, s, run⟩).mpr
          have isDone := Body.eq_done done
          have silent {run : δ × BankSends} {loop : Loop}
              (loops : B.childLoop p (s.loc p).data m = (loop, run)) :
              ∀ x ∈ run.2, x.2.body.type ≠ .balanceHistory := by
            intro x mem
            apply lawful.childLoop p (s.loc p).data m
            rw [loops]
            exact mem
          cases local_ with
          | goesOn child pc loops =>
            exact ⟨p, q, shape.lost le child pc unprinted ready isDone (.inl rfl) (silent loops)⟩
          | breaks child pc loops =>
            exact ⟨p, q, shape.lost le child pc unprinted ready isDone (.inr rfl) (silent loops)⟩
          | done pc => exact absurd ⟨_, pc⟩ other
          | started _ _ type | ack _ _ type => cases done.symm.trans type
          | history _ _ _ body => cases done.symm.trans (congrArg Body.type body)
        · cases input
          exact absurd fails (shape.not_fails le ready)
    · obtain ⟨p, q, lost⟩ := ih before
      refine ⟨p, q, ?_⟩
      rcases step.view with ⟨same, -⟩ | move
      · rw [same]
        exact lost
      · obtain ⟨-, ready, next, after, stepped⟩ := bank_move move
        rw [after]
        exact lost.step lawful ready stepped

/-- What is lost is missed for ever. -/
theorem awaits_of_exited (lawful : B.Lawful) (drops : B.Drops) (r : BankRun cfg B)
    (exited : (r.final.loc parentId).pc = .exited) : Awaits r.transitions := by
  by_contra lost
  obtain ⟨p, q, lost⟩ := lost_of_not_awaits lawful drops r.run lost
  have lacks := lost.lacks
  rw [State.view_loc, exited] at lacks
  exact lacks

/-! ## The end -/

section End

variable (h : Shape cfg s.view flight) (exited : (s.loc parentId).pc = .exited)
include h exited

theorem Shape.all_exited (le : p ≤ cfg.numChildren) : (s.loc p).pc = .exited := by
  by_cases parent : p = parentId
  · rw [parent, exited]
  · apply Pc.exited_of_sent parent
    have sent := (h.fits p le parentId (parent_le _) parent).le
    rw [State.view_loc, exited, Pc.taken, if_neg parent, if_pos rfl] at sent
    exact sent

theorem Shape.all_empty {a b : Nat} (ha : a ≤ cfg.numChildren) (hb : b ≤ cfg.numChildren)
    (ne : a ≠ b) : s.transit a b = [] := by
  have under := h.under
  rw [State.view_loc, exited] at under
  obtain rfl : flight = .none := under
  have eq := (h.fits a ha b hb ne).eq
  rw [State.view_loc, h.all_exited exited ha, h.all_exited exited hb, Flight.types,
    List.append_nil, List.drop_eq_nil_of_le] at eq
  · exact List.map_eq_nil_iff.mp eq
  · have length : (script a b).length ≤ Pc.exited.taken b a := by
      rw [script, Pc.taken]
      split
      · exact le_rfl
      · split <;> decide
    rw [List.length_take]
    exact (Nat.min_le_right _ _).trans length

end End

theorem completed_of_exited (lawful : B.Lawful) (drops : B.Drops) (r : BankRun cfg B)
    (exited : (r.final.loc parentId).pc = .exited) : Completed cfg r.final := by
  obtain ⟨flight, shape⟩ :=
    shape_of_awaits lawful r.run (awaits_of_exited lawful drops r exited)
  have empty (a b : Nat) : r.final.transit a b = [] := by
    by_contra some_
    obtain ⟨⟨ha, hb⟩, ne⟩ := r.within lawful drops some_
    exact some_ (shape.all_empty exited ha hb ne)
  refine ⟨fun p le => shape.all_exited exited le, fun none_ => ?_, fun p => ?_, fun a b => ?_⟩
  · exact (printed_iff lawful drops r).mp none_ exited
  · refine List.eq_nil_iff_forall_not_mem.mpr fun x mem => ?_
    have sent : x.2 ∈ outTo (r.final.outbox p) x.1 := mem_outTo.mpr mem
    rw [(List.append_eq_nil_iff.mp (empty p x.1)).2] at sent
    cases sent
  · exact (List.append_eq_nil_iff.mp (empty a b)).1

/-! ## Main loops -/

theorem Pc.receiveAny_of_looksAt {pc : Pc} {fr : Nat} (looks : fr ∈ pc.looksAt) :
    pc = .receiveAny fr := by
  cases pc <;> cases looks
  rfl

theorem le_of_code {st : Process δ} {a : Action Nat (Process δ) BankMessage}
    (code : start cfg B p st = a) (running : a ≠ .stop) : p ≤ cfg.numChildren := by
  by_contra far
  have child : p ≠ parentId := fun eq => far (eq ▸ parent_le _)
  rw [start, if_neg child, if_neg far] at code
  exact running code.symm

theorem can_of_code {st : Process δ} {a : Action Nat (Process δ) BankMessage}
    (code : start cfg B p st = a) (running : a ≠ .stop) : Can cfg B p st a :=
  code ▸ can_start (le_of_code code running)

/-- A child in its main loop does nothing but receive, and the parent nothing at all. -/
theorem receives_of_receiveAny {st : Process δ} {fr : Nat} (pc : st.pc = .receiveAny fr)
    {a : Action Nat (Process δ) BankMessage} (code : start cfg B p st = a) (running : a ≠ .stop) :
    p ≠ parentId ∧ ∃ onMessage, a = .receive fr onMessage
      ({ st with pc := .receiveAny (receiveAnyNext cfg.numChildren p fr) }, []) := by
  have le := le_of_code code running
  have child : p ≠ parentId := by
    rintro rfl
    rw [start_parent, parentEntry, pc] at code
    exact running code.symm
  obtain ⟨onMessage, receives⟩ := start_receiveAny (B := B) le child pc
  exact ⟨child, onMessage, code.symm.trans receives⟩

/-- A step of its own leads no process into the middle of a scan. -/
theorem looksAt_of_act {st : Process δ} {next : ProcessNext δ}
    (code : start cfg B p st = .act next) : ∀ fr ∈ next.1.pc.looksAt, fr = parentId := by
  have other (fr : Nat) : st.pc ≠ .receiveAny fr := fun pc => by
    obtain ⟨-, onMessage, receives⟩ := receives_of_receiveAny pc code (by simp)
    cases receives
  have step : LocalStep cfg B p st none next := can_of_code code (by simp)
  rintro fr looks
  have pc := Pc.receiveAny_of_looksAt looks
  cases step with
  | childStarted => exact (Pc.receiveAny.inj pc).symm
  | looked _ at_ => exact absurd at_ (other _)
  | blocked => exact absurd pc (other fr)
  | _ => cases pc

/-- Neither does a message. -/
theorem looksAt_of_take {st : Process δ} {q : Nat} {m : BankMessage} {next : ProcessNext δ}
    (step : Stepped cfg B p st (some (q, m)) next) : ∀ fr ∈ next.1.pc.looksAt, fr = parentId := by
  rintro fr looks
  have pc := Pc.receiveAny_of_looksAt looks
  rcases step with step | ⟨-, -, -, failed⟩
  · cases step with
    | goesOn => exact (Pc.receiveAny.inj pc).symm
    | _ => cases pc
  · rcases failed.pc with pc' | pc' <;> cases pc.symm.trans pc'

/-- A look at an empty channel changes nothing, unless it is that of a main loop. -/
theorem blocked_of_receive {st : Process δ} {q : Nat} {onMessage : BankMessage → ProcessNext δ}
    {onEmpty : ProcessNext δ} (code : start cfg B p st = .receive q onMessage onEmpty)
    (other : ∀ fr, st.pc ≠ .receiveAny fr) : onEmpty = (st, []) := by
  have barrier {type : MessageType} {fr : Nat} {pc : Nat → Pc}
      {callback : Nat → BankMessage → Process δ → Option (Process δ)} {next : ProcessNext δ}
      (code : ipcExtReceiveAll cfg.numChildren B p st type fr pc callback next =
        .receive q onMessage onEmpty) : onEmpty = (st, []) := by
    unfold ipcExtReceiveAll at code
    split at code <;> cases code
    rfl
  unfold start at code
  split at code
  next parent =>
    subst parent
    unfold parentEntry at code
    split at code <;> first | exact barrier code | cases code
    rfl
  next =>
    split at code
    · unfold childEntry at code
      split at code
      next => cases code
      next => exact barrier code
      next pc => exact absurd pc (other _)
      next => cases code
      next => exact barrier code
      next => cases code
    · cases code

/-! ## What dooms a child -/

theorem not_doomed_initial (p : Nat) : ¬Doomed (initialState cfg B) p := by
  rintro ⟨fr, -, -, q, -, m, mem, -⟩
  cases mem

/-- A child is doomed by a `DONE` that is written while it scans, or by the start of its scan. -/
theorem Doomed.before (step : Step (start cfg B) s e s') (doomed : Doomed s' p) :
    Doomed s p ∨
      (∃ q m, e = .send q p m ∧ m.body.type = .done ∧ ∃ fr ∈ (s.loc p).pc.looksAt, fr ≠ parentId) ∨
        (e = .empty p ∧ (s.loc p).pc = .receiveAny parentId ∧
          ∃ q, ∃ m ∈ s.chan q p, m.body.type = .done) := by
  obtain ⟨fr, looks, inside, q, ahead, m, mem, done⟩ := doomed
  have still (loc : s'.loc p = s.loc p) (chan : s'.chan q p = s.chan q p) : Doomed s p :=
    ⟨fr, loc ▸ looks, inside, q, ahead, m, chan ▸ mem, done⟩
  cases step with
  | @send a b m' rest pending =>
    have sent : m ∈ s.chan.post a (outTo [(b, m')]) q p := mem
    by_cases sender : q = a
    · subst sender
      rw [Channels.post_self] at sent
      rcases List.mem_append.mp sent with mem | mem
      · exact .inl ⟨fr, looks, inside, q, ahead, m, mem, done⟩
      · rw [outTo_cons] at mem
        split at mem
        next receiver =>
          obtain rfl : m = m' := by simpa using mem
          exact .inr (.inl ⟨q, m, receiver ▸ rfl, done, fr, looks, inside⟩)
        next => cases mem
    · rw [Channels.post_ne _ sender] at sent
      exact .inl ⟨fr, looks, inside, q, ahead, m, sent, done⟩
  | @act a next idle code =>
    by_cases own : p = a
    · subst own
      simp only [State.become, Function.update_self] at looks
      exact absurd (looksAt_of_act code fr looks) inside
    · exact .inl (still (Function.update_of_ne own _ _) rfl)
  | poll _ code | pollEmpty _ code =>
    exact (can_of_code code (by simp)).elim
  | @receive a b m' rest onMessage onEmpty idle code head =>
    by_cases own : p = a
    · subst own
      have can := can_of_code code (by simp)
      simp only [State.become, Function.update_self] at looks
      refine absurd (looksAt_of_take ((can.1 m').imp id fun failed => ?_) fr looks) inside
      exact ⟨_, rfl, failed⟩
    · exact .inl (still (Function.update_of_ne own _ _) (Channels.pop_ne _ fun at_ => own at_.2))
  | @receiveEmpty a b onMessage onEmpty idle code empty =>
    by_cases own : p = a
    · subst own
      by_cases scans : ∃ fr₀, (s.loc p).pc = .receiveAny fr₀
      · obtain ⟨fr₀, pc⟩ := scans
        obtain ⟨-, onMessage', receives⟩ := receives_of_receiveAny pc code (by simp)
        cases receives
        simp only [State.become, Function.update_self] at looks
        cases Pc.receiveAny_of_looksAt looks
        by_cases start_ : b = parentId
        · exact .inr (.inr ⟨rfl, start_ ▸ pc, q, m, mem, done⟩)
        · refine .inl ⟨b, congrArg Pc.looksAt pc, start_, q, ?_, m, mem, done⟩
          rw [receiveAnyNext] at ahead inside
          cases found : ipcReceiveAllNext cfg.numChildren p b with
          | none =>
            rw [found] at inside
            exact absurd rfl inside
          | some next =>
            rw [found] at ahead
            exact (ipcReceiveAllNext_eq_some found).1.le.trans ahead
      · have stays := blocked_of_receive code fun fr pc => scans ⟨fr, pc⟩
        refine .inl (still ?_ rfl)
        rw [stays, State.become_self idle]
    · exact .inl (still (Function.update_of_ne own _ _) rfl)

/-- A child that has sent its `DONE` has taken its `STOP`. -/
theorem Shape.stopped_of_sentDone {v : BankView δ} (h : Shape cfg v flight) {q : Nat}
    (sender : IsChild cfg.numChildren q) (sentDone : (v.loc q).pc.SentDone) :
    1 ≤ (v.loc parentId).pc.sent parentId := by
  have role := h.role q sender.2
  have sent : 2 ≤ (v.loc q).pc.sent q := by
    cases pc : (v.loc q).pc with
    | awaitAllDone => exact (if_neg sender.ne_parent).ge
    | exited => simp [Pc.sent, sender.ne_parent]
    | _ =>
      rw [pc] at sentDone role
      first
        | exact sentDone.elim
        | exact role.elim
  have taken := (h.fits parentId (parent_le _) q sender.2 sender.ne_parent.symm).le
  rw [Pc.taken_of_sent sender.ne_parent sent] at taken
  exact taken

/-- The parent sends no `DONE`. -/
theorem Shape.not_done_of_parent {v : BankView δ} (h : Shape cfg v flight)
    (le : p ≤ cfg.numChildren) (ne : parentId ≠ p) {m : BankMessage}
    (mem : m ∈ v.chan parentId p) : m.body.type ≠ .done := by
  intro done
  have listed : m.body.type ∈ typesIn v parentId p := List.mem_map_of_mem mem
  rw [(h.fits parentId (parent_le _) p le ne).eq, done] at listed
  rcases List.mem_append.mp listed with mem | mem
  · have := List.mem_of_mem_take (List.mem_of_mem_drop mem)
    simp [script] at this
  · cases flight with
    | none => cases mem
    | toSrc => cases (Flight.mem_toSrc mem).1
    | toDst => cases (Flight.mem_toDst mem).1
    | ack => cases (Flight.mem_ack mem).1

/-- After the `STOP`s, a main loop finds a `DONE` in the channel of every other child, or
nothing. -/
theorem Shape.done_of_head {v : BankView δ} (h : Shape cfg v flight) (le : p ≤ cfg.numChildren)
    (child : p ≠ parentId) {fr : Nat} (pc : (v.loc p).pc = .receiveAny fr)
    (inside : fr ≠ parentId) (stopped : 1 ≤ (v.loc parentId).pc.sent parentId) {m : BankMessage}
    (head : ∃ rest, v.chan fr p = m :: rest) : m.body.type = .done := by
  have found := h.loop_head le child pc head
  have none_ := h.under.none stopped
  obtain ⟨body, time⟩ := m
  cases found with
  | stop => exact absurd rfl inside
  | toSrc | toDst => cases none_
  | done => rfl

section Doomed

variable (h : Shape cfg s.view flight)
include h

/-- Where a `DONE` is on its way to a child, the parent has sent its `STOP`s. -/
theorem Shape.stopped_of_done {q : Nat} (sender : IsChild cfg.numChildren q)
    (child : IsChild cfg.numChildren p) (ne : q ≠ p) {m : BankMessage} (mem : m ∈ s.transit q p)
    (done : m.body.type = .done) : 1 ≤ (s.loc parentId).pc.sent parentId :=
  h.stopped_of_sentDone sender (h.sentDone sender child ne mem (Body.eq_done done))

/-- A child that is doomed remains so until it takes a `DONE`. -/
theorem Doomed.step (within : ∀ a b, s.transit a b ≠ [] →
      (a ≤ cfg.numChildren ∧ b ≤ cfg.numChildren) ∧ a ≠ b)
    (doomed : Doomed s p) (step : Step (start cfg B) s e s')
    (awaits : ∀ q m, e = .take p q m → m.body.type = .done → (s.loc p).pc ≠ .receiveAny q) :
    Doomed s' p := by
  obtain ⟨fr, looks, inside, q, ahead, m, mem, done⟩ := doomed
  have pc := Pc.receiveAny_of_looksAt looks
  have inTransit : m ∈ s.transit q p := List.mem_append_left _ mem
  obtain ⟨⟨hq, le⟩, ne⟩ := within q p (List.ne_nil_of_mem inTransit)
  have still (loc : s'.loc p = s.loc p) (chan : m ∈ s'.chan q p) : Doomed s' p :=
    ⟨fr, loc ▸ looks, inside, q, ahead, m, chan, done⟩
  cases step with
  | @send a b m' rest pending =>
    refine still rfl ?_
    by_cases sender : q = a
    · subst sender
      simp only [State.flush, Channels.post_self]
      exact List.mem_append_left _ mem
    · simp only [State.flush, Channels.post_ne _ sender]
      exact mem
  | @act a next idle code =>
    by_cases own : p = a
    · subst own
      obtain ⟨-, _, receives⟩ := receives_of_receiveAny pc code (by simp)
      cases receives
    · exact still (Function.update_of_ne own _ _) mem
  | poll _ code | pollEmpty _ code => exact (can_of_code code (by simp)).elim
  | @receive a b m' rest onMessage onEmpty idle code head =>
    by_cases own : p = a
    · subst own
      obtain ⟨child, _, receives⟩ := receives_of_receiveAny pc code (by simp)
      cases receives
      have sender : IsChild cfg.numChildren q := ⟨(Nat.pos_of_ne_zero inside).trans_le ahead, hq⟩
      have stopped :=
        h.stopped_of_done sender ⟨Nat.pos_of_ne_zero child, le⟩ ne inTransit done
      have found : ∃ rest, s.view.chan fr p = m' :: rest :=
        ⟨_, by rw [State.view_chan, State.transit, head]; rfl⟩
      exact absurd pc (awaits fr m' rfl (h.done_of_head le child pc inside stopped found))
    · refine still (Function.update_of_ne own _ _) ?_
      have same : (s.pop b a).chan q p = s.chan q p := Channels.pop_ne _ fun at_ => own at_.2
      exact same ▸ mem
  | @receiveEmpty a b onMessage onEmpty idle code empty =>
    by_cases own : p = a
    · subst own
      obtain ⟨-, _, receives⟩ := receives_of_receiveAny pc code (by simp)
      cases receives
      have other : fr ≠ q := by
        rintro rfl
        rw [empty] at mem
        cases mem
      have lt : fr < q := lt_of_le_of_ne ahead other
      cases found : ipcReceiveAllNext cfg.numChildren p fr with
      | none => exact absurd lt (ipcReceiveAllNext_last found hq ne)
      | some next =>
        refine ⟨next, ?_, ?_, q, (ipcReceiveAllNext_ahead found ne).mp lt, m, mem, done⟩
        · simp [State.become, receiveAnyNext, found, Pc.looksAt]
        · exact Nat.ne_of_gt (Nat.zero_lt_of_lt (ipcReceiveAllNext_eq_some found).1)
    · exact still (Function.update_of_ne own _ _) mem

end Doomed

end Distra.Pa23
