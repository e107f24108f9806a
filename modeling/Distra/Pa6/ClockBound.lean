import Distra.Pa4.ClockBudget
import Distra.Pa6.Requests

/-!
# The clocks of `pa6`

The clock of a child ticks once for every message that it takes or sends. So no clock goes beyond
the number of messages sent and taken, two multicasts and the requests and replies of every two
children.
-/

namespace Distra.Pa6

open Network

variable {cfg : Config}

/-! ## One tick for every message -/

/-- A piece of code that sends to other children, with a tick for every message. -/
structure Stamped (n p : Nat) (l l' : Locals) (out : Sends) : Prop where
  clock : l'.lamportTime = l.lamportTime + out.length
  times : ∀ x ∈ out, x.2.localTime ≤ l'.lamportTime
  dests : ∀ x ∈ out, IsChild n x.1 ∧ x.1 ≠ p

section Stamped

variable {n p c : Nat} {l l' l'' : Locals} {out out' : Sends} {m : Message}

theorem Stamped.refl (n p : Nat) (l : Locals) : Stamped n p l l [] := ⟨rfl, nofun, nofun⟩

theorem Stamped.trans (h : Stamped n p l l' out) (h' : Stamped n p l' l'' out') :
    Stamped n p l l'' (out ++ out') where
  clock := by
    rw [h'.clock, h.clock, List.length_append, Nat.add_assoc]
  times x mem := by
    rcases List.mem_append.mp mem with mem | mem
    · exact (h.times x mem).trans (h'.clock ▸ Nat.le_add_right _ _)
    · exact h'.times x mem
  dests x mem := (List.mem_append.mp mem).elim (h.dests x) (h'.dests x)

theorem Stamped.single (child : IsChild n c) (ne : c ≠ p)
    (clock : l'.lamportTime = advanceLamportTime l.lamportTime) (type : MessageType) :
    Stamped n p l l' [(c, ⟨type, l'.lamportTime⟩)] where
  clock := clock
  times x mem := by
    rw [List.mem_singleton.mp mem]
  dests x mem := by
    rw [List.mem_singleton.mp mem]
    exact ⟨child, ne⟩

theorem requestFork_stamped (asked : requestFork l c = some (l', out)) (child : IsChild n c)
    (ne : c ≠ p) : Stamped n p l l' out := by
  unfold requestFork at asked
  split at asked <;> cases asked
  exact .single child ne rfl _

theorem giveUpFork_stamped (given : giveUpFork l c = some (l', out)) (child : IsChild n c)
    (ne : c ≠ p) : Stamped n p l l' out := by
  unfold giveUpFork at given
  split at given <;> cases given
  exact .single child ne rfl _

theorem requestForks_stamped (L : List Nat) (children : ∀ c ∈ L, IsChild n c)
    (run : requestForks p L l = some (l', out)) : Stamped n p l l' out := by
  induction L generalizing l out with
  | nil =>
    cases run
    exact .refl n p _
  | cons c rest ih =>
    have left : ∀ a ∈ rest, IsChild n a := fun a mem => children a (List.mem_cons_of_mem _ mem)
    unfold requestForks at run
    split at run
    next => exact ih left run
    next other =>
      split at run
      next =>
        obtain ⟨⟨l₁, out₁⟩, asked, run⟩ := Option.bind_eq_some_iff.mp run
        obtain ⟨⟨l₂, out₂⟩, later, eq⟩ := Option.bind_eq_some_iff.mp run
        cases eq
        exact (requestFork_stamped asked (children c List.mem_cons_self) other).trans
          (ih left later)
      next => exact ih left run

theorem releaseForks_stamped (L : List Nat) (children : ∀ c ∈ L, IsChild n c)
    (run : releaseForks p L l = some (l', out)) : Stamped n p l l' out := by
  induction L generalizing l out with
  | nil =>
    cases run
    exact .refl n p _
  | cons c rest ih =>
    have left : ∀ a ∈ rest, IsChild n a := fun a mem => children a (List.mem_cons_of_mem _ mem)
    unfold releaseForks at run
    split at run
    next => exact ih left run
    next other =>
      dsimp only at run
      split at run
      next =>
        obtain ⟨⟨l₁, out₁⟩, given, run⟩ := Option.bind_eq_some_iff.mp run
        obtain ⟨⟨l₂, out₂⟩, later, eq⟩ := Option.bind_eq_some_iff.mp run
        cases eq
        have given := giveUpFork_stamped given (children c List.mem_cons_self) other
        have both := given.trans (ih left later)
        exact ⟨both.clock, both.times, both.dests⟩
      next =>
        have later := ih left run
        exact ⟨later.clock, later.times, later.dests⟩

theorem children_of_range : ∀ c ∈ List.range' 1 n, IsChild n c := by
  intro c mem
  have := List.mem_range'_1.mp mem
  exact ⟨this.1, by omega⟩

theorem Serves.stamped (serves : Serves l c m l' out) (child : IsChild n c) (ne : c ≠ p) :
    Stamped n p (received l m) l' out := by
  cases serves with
  | fork | keep => exact ⟨rfl, nofun, nofun⟩
  | giveUp => exact .single child ne rfl _

theorem endRound_stamped {verdict : Verdict}
    (round : endRound cfg p l out = some (verdict, l', out')) :
    ∃ out₁, out' = out ++ out₁ ∧ Stamped cfg.numChildren p l l' out₁ := by
  unfold endRound at round
  split at round
  next =>
    cases round
    exact ⟨[], (List.append_nil _).symm, .refl _ _ _⟩
  next =>
    obtain ⟨⟨l₁, out₁⟩, requested, eq⟩ := Option.bind_eq_some_iff.mp round
    cases eq
    exact ⟨out₁, rfl, requestForks_stamped _ children_of_range requested⟩

end Stamped

/-! ## One step -/

/-- Neither forks nor requests for forks. -/
def others (l : List Message) : Nat := l.countP fun m => m.type ≠ .csRequest ∧ m.type ≠ .csReply

/-- The multicasts behind a child: `STARTED` and `DONE`. -/
def multicasts : Pc → Nat
  | .childSyncStarted => 0
  | .handleCsRequests | .exited => 2
  | _ => 1

theorem others_append (l l' : List Message) : others (l ++ l') = others l + others l' :=
  List.countP_append

theorem length_eq_types (l : List Message) :
    l.length = ofType .csRequest l + ofType .csReply l + others l := by
  induction l with
  | nil => rfl
  | cons m l ih =>
    rw [List.length_cons, ih]
    cases type : m.type <;> simp [ofType, others, type] <;> omega

theorem multicasts_finalLoop (awaiting : Int) : multicasts (finalLoop awaiting) = 2 := by
  unfold finalLoop
  split <;> rfl

theorem others_forks {out : Sends} (forks : ForkSends out) (q : Nat) :
    others (outTo out q) = 0 := by
  rw [others, List.countP_eq_zero]
  intro m mem
  rcases forks (q, m) (mem_outTo.mp mem) with type | type
  · simp [show m.type = .csRequest from type]
  · simp [show m.type = .csReply from type]

/-- What a step of `p` sends, and what it adds to the clock. -/
structure Priced (cfg : Config) (p : Nat) (st : Process Mux) (input : Option (Nat × Message))
    (next : Next Nat (Process Mux) Message) : Prop where
  ticks : Ticks Process.lamportTime Message.localTime st input next
    (input.toList.length + next.2.length)
  dests : ∀ x ∈ next.2, x.1 ≤ cfg.numChildren ∧ x.1 ≠ p
  parent : ∀ m ∈ outTo next.2 parentId, m.type ≠ .csRequest ∧ m.type ≠ .csReply
  others : ∀ q, others (outTo next.2 q) + multicasts st.pc ≤ multicasts next.1.pc

section Priced

variable {p : Nat} {st st' : Process Mux} {input : Option (Nat × Message)}
  {next : Next Nat (Process Mux) Message} {l l' : Locals} {out : Sends} {q : Nat} {m : Message}

/-- The clock with which the mutex starts to work. -/
def Arrived (st : Process Mux) (input : Option (Nat × Message)) (l : Locals) : Prop :=
  ∀ K, st.lamportTime ≤ K → (∀ x ∈ input, x.2.localTime ≤ K) →
    l.lamportTime ≤ K + input.toList.length

theorem Arrived.none (st : Process Mux) : Arrived st none st.locals := fun _ clock _ => clock

theorem Arrived.some (st : Process Mux) (q : Nat) (m : Message) :
    Arrived st (some (q, m)) (received st.locals m) :=
  fun _ clock taken => synchronizeTime_le (taken (q, m) rfl) clock

theorem Stamped.priced (h : Stamped cfg.numChildren p l l' out) (forks : ForkSends out)
    (arrived : Arrived st input l) (clock : st'.lamportTime = l'.lamportTime)
    (same : multicasts st.pc ≤ multicasts st'.pc) : Priced cfg p st input (st', out) where
  ticks := by
    refine ⟨fun K before taken => ?_, fun x mem => ?_⟩
    · have := arrived K before taken
      have := h.clock
      dsimp only
      omega
    · exact (h.times x mem).trans (Nat.le_of_eq clock.symm)
  dests x mem := ⟨(h.dests x mem).1.2, (h.dests x mem).2⟩
  parent m mem := absurd rfl (h.dests _ (mem_outTo.mp mem)).1.ne_parent
  others q := by
    rw [others_forks forks, Nat.zero_add]
    exact same

theorem priced_multicast (child : IsChild cfg.numChildren p) {type : MessageType}
    (other : type ≠ .csRequest ∧ type ≠ .csReply)
    (clock : st'.lamportTime = advanceLamportTime st.lamportTime)
    (grown : multicasts st.pc + 1 ≤ multicasts st'.pc) :
    Priced cfg p st none
      (st', sendMulticast cfg.numChildren p ⟨type, advanceLamportTime st.lamportTime⟩) where
  ticks := by
    refine ⟨fun K before _ => ?_, fun x mem => ?_⟩
    · have pos := cfg.pos
      have := length_otherProcesses child.2
      simp only [sendMulticast, List.length_map, clock, advanceLamportTime]
      omega
    · obtain ⟨_, _, rfl⟩ := List.mem_map.mp mem
      exact Nat.le_of_eq clock.symm
  dests x mem := by
    obtain ⟨dst, other, rfl⟩ := List.mem_map.mp mem
    exact mem_otherProcesses.mp other
  parent m mem := by
    obtain ⟨_, _, eq⟩ := List.mem_map.mp (mem_outTo.mp mem)
    cases eq
    exact other
  others q := by
    have one := outTo_multicast (otherProcesses cfg.numChildren p) (otherProcesses_nodup _ _)
      (⟨type, advanceLamportTime st.lamportTime⟩ : Message) q
    have few : others (outTo (sendMulticast cfg.numChildren p
        (⟨type, advanceLamportTime st.lamportTime⟩ : Message)) q) ≤ 1 := by
      rw [sendMulticast, one]
      split
      · exact List.countP_le_length
      · exact Nat.zero_le _
    dsimp only
    omega

theorem priced {v : ProcessView Mux} (control : Control cfg v) (child : IsChild cfg.numChildren p)
    (ready : Ready cfg v p input) (step : LocalStep cfg mutex p (v.loc p) input next) :
    Priced cfg p (v.loc p) input next := by
  have still (st : Process Mux) (input : Option (Nat × Message)) {l : Locals} {st' : Process Mux}
      (arrived : Arrived st input l) (clock : st'.lamportTime = l.lamportTime)
      (same : multicasts st.pc ≤ multicasts st'.pc) : Priced cfg p st input (st', []) :=
    (Stamped.refl _ p l).priced (by simp [ForkSends]) arrived clock same
  cases step with
  | syncStarted pc => exact priced_multicast child (by simp) rfl (by rw [pc]; exact Nat.le_refl _)
  | barrier pc => exact still _ _ (.some _ _ _) rfl (by rw [pc]; exact Nat.le_refl _)
  | barrierWait pc => exact still _ _ (.none _) rfl (Nat.le_refl _)
  | barrierEnd pc => exact still _ _ (.none _) rfl (by rw [pc]; exact Nat.le_refl _)
  | request pc more requested =>
    have forks := (requestCs_some requested).sends_forks
    exact (requestForks_stamped _ children_of_range requested).priced forks (.none _) rfl
      (by rw [pc]; exact Nat.le_refl _)
  | finish pc =>
    refine priced_multicast child (by simp) rfl ?_
    rw [pc]
    exact Nat.le_of_eq (multicasts_finalLoop _).symm
  | @served i q m verdict l out pc taken cs =>
    obtain ⟨qchild, ne⟩ := control.sender_child child ready
    rcases requestCsTake_some taken with ⟨l₁, out₁, serves, round⟩ | ⟨-, nonCs, -, -⟩
    · obtain ⟨out₂, rfl, rest⟩ := endRound_stamped round
      refine ((serves.stamped qchild ne).trans rest).priced (take_sends taken) (.some _ _ _) rfl ?_
      rw [pc]
      cases verdict <;> exact Nat.le_refl _
    · exact absurd nonCs cs
  | @doneServed i q m l out l' out' pc taken type retried =>
    rcases requestCsTake_some taken with ⟨_, _, serves, -⟩ | ⟨-, -, rfl, -⟩
    · cases serves <;> simp_all
    · have forks := (requestCs_some retried).sends_forks
      exact (requestForks_stamped _ children_of_range retried).priced forks (.some _ _ _) rfl
        (by rw [pc]; exact Nat.le_refl _)
  | @idle i verdict l out pc found =>
    obtain ⟨out₂, rfl, rest⟩ := endRound_stamped found
    refine rest.priced (endRound_sends found (by simp [ForkSends])) (.none _) rfl ?_
    rw [pc]
    cases verdict <;> exact Nat.le_refl _
  | release pc released =>
    have forks := releaseForks_sends _ _ released
    exact (releaseForks_stamped _ children_of_range released).priced forks (.none _) rfl
      (by rw [pc]; exact Nat.le_refl _)
  | @handled q m verdict l out pc taken cs =>
    obtain ⟨qchild, ne⟩ := control.sender_child child ready
    have forks := @handle_sends cfg p q m _ _ _ _ taken
    have taken := (@handleCsRequests_eq cfg p _ q m).symm.trans taken
    split at taken
    next type =>
      split at taken <;> cases taken
      have clock : ((v.loc p).at_ .handleCsRequests
          ⟨{ (v.loc p).mux with hasFork := Function.update (v.loc p).mux.hasFork q false },
            advanceLamportTime (received (v.loc p).locals m).lamportTime⟩).locals.lamportTime =
          advanceLamportTime (received (v.loc p).locals m).lamportTime := rfl
      refine (Stamped.single qchild ne clock _).priced forks (.some _ _ _) rfl ?_
      rw [pc]
      exact Nat.le_refl _
    next =>
      cases taken
      exact absurd rfl cs
  | @doneHandled q m l out pc taken type =>
    have taken := (@handleCsRequests_eq cfg p _ q m).symm.trans taken
    rw [if_neg (by simp [type])] at taken
    cases taken
    refine still _ _ (.some _ _ _) rfl ?_
    rw [pc]
    exact Nat.le_of_eq (multicasts_finalLoop _).symm
  | handleWait pc => exact still _ _ (.none _) rfl (Nat.le_refl _)

theorem Priced.own (h : Priced cfg p st input next) : outTo next.2 p = [] := by
  rw [List.eq_nil_iff_forall_not_mem]
  intro m mem
  exact (h.dests _ (mem_outTo.mp mem)).2 rfl

theorem Priced.toParent (h : Priced cfg p st input next) {type : MessageType}
    (cs : type = .csRequest ∨ type = .csReply) : ofType type (outTo next.2 parentId) = 0 := by
  rw [ofType_eq_zero]
  intro m mem eq
  rcases cs with rfl | rfl
  · exact (h.parent m mem).1 eq
  · exact (h.parent m mem).2 eq

theorem parentStep_ticks {n : Nat} {st' : Process Mux} (step : ParentStep n st input st') :
    Ticks Process.lamportTime Message.localTime st input (st', []) input.toList.length := by
  refine ⟨fun K clock taken => ?_, nofun⟩
  cases step with
  | started | done => exact synchronizeTime_le (taken _ rfl) clock
  | allStarted | allDone | blocked => exact clock
  | unexpected => exact Nat.le_add_right_of_le clock

end Priced

/-! ## Every run -/

def channels (n : Nat) : Finset (Nat × Nat) := Finset.range (n + 1) ×ˢ Finset.range (n + 1)

theorem mem_channels {n a b : Nat} (ha : a ≤ n) (hb : b ≤ n) : (a, b) ∈ channels n :=
  Finset.mem_product.mpr
    ⟨Finset.mem_range.mpr (Nat.lt_succ_of_le ha), Finset.mem_range.mpr (Nat.lt_succ_of_le hb)⟩

/-- What has been sent outside the pairs of children, and what it all adds up to. -/
structure Metered (cfg : Config) (v : ProcessView Mux)
    (t : Traffic Nat (Process Mux) Message) : Prop where
  silent : ∀ b, t.sent parentId b = []
  own : ∀ a, t.sent a a = []
  parent : ∀ a, sentTypes .csRequest (t.sent a parentId) = 0 ∧
    sentTypes .csReply (t.sent a parentId) = 0
  others : ∀ p, IsChild cfg.numChildren p → ∀ q,
    others ((t.sent p q).map Prod.snd) ≤ multicasts (v.loc p).pc
  timed : Timed Process.lamportTime Message.localTime v (t.handled (channels cfg.numChildren))

section Metered

variable {v : ProcessView Mux} {t : Traffic Nat (Process Mux) Message} {p : Nat}
  {input : Option (Nat × Message)} {next : Next Nat (Process Mux) Message}

theorem Metered.initial (cfg : Config) : Metered cfg (initialState cfg mutex).view .none where
  silent _ := rfl
  own _ := rfl
  parent _ := ⟨rfl, rfl⟩
  others _ _ _ := Nat.zero_le _
  timed := ⟨fun _ => Nat.zero_le _, fun _ _ _ mem => absurd mem List.not_mem_nil⟩

theorem Metered.step (h : Metered cfg v t) (child : IsChild cfg.numChildren p)
    (ready : Ready cfg v p input) (priced : Priced cfg p (v.loc p) input next) :
    Metered cfg ((v.consume p input).become p next) (t.step p input next) := by
  have sent (a b : Nat) : (t.step p input next).sent a b =
      t.sent a b ++ if a = p then (outTo next.2 b).map (next.1, ·) else [] := rfl
  refine ⟨fun b => ?_, fun a => ?_, fun a => ?_, fun a ha q => ?_, ?_⟩
  · rw [sent, if_neg child.ne_parent.symm, h.silent]
    rfl
  · rw [sent, h.own]
    split
    next actor =>
      rw [actor, priced.own]
      rfl
    next => rfl
  · obtain ⟨request, reply⟩ := h.parent a
    rw [sent]
    split
    next =>
      rw [sentTypes_append, sentTypes_append, sentTypes_map, sentTypes_map, request, reply,
        priced.toParent (.inl rfl), priced.toParent (.inr rfl)]
      exact ⟨rfl, rfl⟩
    next =>
      rw [List.append_nil]
      exact ⟨request, reply⟩
  · have before := h.others a ha q
    rw [sent, View.consume_become_loc, List.map_append, others_append]
    split
    next actor =>
      subst actor
      have := priced.others q
      simp only [List.map_map, Function.comp_def, List.map_id']
      omega
    next => exact before
  · refine h.timed.step_handled ready.offers (fun x mem => ?_) (fun x mem => ?_) priced.ticks
    · exact mem_channels child.2 (priced.dests x mem).1
    · exact mem_channels (ready.le x mem) child.2

theorem Metered.parentStep (h : Metered cfg v t) (offers : v.Offers parentId input)
    (sources : ∀ x ∈ input, x.1 ≤ cfg.numChildren) {st : Process Mux}
    (step : ParentStep cfg.numChildren (v.loc parentId) input st) :
    Metered cfg ((v.consume parentId input).become parentId (st, []))
      (t.step parentId input (st, [])) := by
  have sent (a b : Nat) : (t.step parentId input (st, [])).sent a b = t.sent a b := by
    simp [Traffic.step]
  refine ⟨fun b => ?_, fun a => ?_, fun a => ?_, fun a ha q => ?_, ?_⟩
  · rw [sent, h.silent]
  · rw [sent, h.own]
  · rw [sent]
    exact h.parent a
  · rw [sent, View.consume_become_loc, if_neg ha.ne_parent]
    exact h.others a ha q
  · refine h.timed.step_handled offers (by simp) (fun x mem => ?_) (parentStep_ticks step)
    exact mem_channels (sources x mem) (parent_le _)

theorem metered (r : MutexRun cfg mutex) : Metered cfg r.final.view r.traffic :=
  MutexRun.induction_traffic unfailing (.initial cfg)
    (fun r _ _ _ inv child ready step =>
      inv.step child ready (priced (refined r).1 child ready step))
    (fun _ _ _ inv offers sources step => inv.parentStep offers sources step) r

end Metered

/-- The messages that a process sends to another one at most. -/
def share (a b : Nat) : Nat := if a = parentId ∨ a = b then 0 else 2 + 10 * min a b

theorem length_sent_le (r : MutexRun cfg mutex) {a b : Nat} (ha : a ≤ cfg.numChildren)
    (hb : b ≤ cfg.numChildren) : (r.traffic.sent a b).length ≤ share a b := by
  have metered := metered r
  unfold share
  split
  next none_ =>
    rcases none_ with rfl | rfl
    · rw [metered.silent]
      exact Nat.le_refl _
    · rw [metered.own]
      exact Nat.le_refl _
  next both =>
    have child : IsChild cfg.numChildren a := ⟨Nat.pos_of_ne_zero fun k => both (.inl k), ha⟩
    have types := length_eq_types ((r.traffic.sent a b).map Prod.snd)
    rw [List.length_map] at types
    have other := metered.others a child b
    have two : multicasts (r.final.loc a).pc ≤ 2 := by
      unfold multicasts
      split <;> omega
    have other : others ((r.traffic.sent a b).map Prod.snd) ≤ 2 := other.trans two
    have cs : sentTypes .csRequest (r.traffic.sent a b) ≤ 5 * min a b ∧
        sentTypes .csReply (r.traffic.sent a b) ≤ 5 * min a b := by
      by_cases parent : b = parentId
      · obtain ⟨request, reply⟩ := metered.parent a
        rw [parent, request, reply]
        exact ⟨Nat.zero_le _, Nat.zero_le _⟩
      · have bchild : IsChild cfg.numChildren b := ⟨Nat.pos_of_ne_zero parent, hb⟩
        have ne : b ≠ a := fun k => both (.inr k.symm)
        have := replies_le r child bchild ne
        have := written_le_sent .csRequest r b a
        have := requests_le_min r bchild child ne.symm
        exact ⟨requests_le_min r child bchild ne, by omega⟩
    unfold sentTypes at cs
    omega

/-- What has been taken has been sent. -/
theorem length_taken_le (r : MutexRun cfg mutex) (a b : Nat) :
    (r.traffic.taken b a).length ≤ (r.traffic.sent a b).length := by
  have sent := congrArg List.length (map_snd_sent r.transitions r.final a b)
  rw [r.run.fifo rfl] at sent
  simp only [List.length_map, List.length_append] at sent
  change (taken r.transitions b a).length ≤ ((traffic r.transitions r.final).sent a b).length
  omega

/-- The ticks of a whole run with `n` children. -/
def clockLimit (n : Nat) : Nat := ∑ c ∈ channels n, 2 * share c.1 c.2

theorem handled_le (r : MutexRun cfg mutex) :
    r.traffic.handled (channels cfg.numChildren) ≤ clockLimit cfg.numChildren := by
  refine Finset.sum_le_sum fun c mem => ?_
  obtain ⟨ha, hb⟩ := Finset.mem_product.mp mem
  have := length_sent_le r (Nat.le_of_lt_succ (Finset.mem_range.mp ha))
    (Nat.le_of_lt_succ (Finset.mem_range.mp hb))
  have := length_taken_le r c.1 c.2
  omega

theorem clockLimit_le {n : Nat} (few : n ≤ 15) : clockLimit n ≤ int16Max := by
  revert n
  decide +kernel

/-- A child asks every other one once at most in a critical section. So two children ask each other
no more than ten times the number of the smaller one, with no more replies than requests, and with
15 children at most no clock and no time stamp overflows. -/
theorem forks_traffic_bounded (few : cfg.numChildren ≤ 15) (r : MutexRun cfg mutex) :
    (∀ p q, IsChild cfg.numChildren p → IsChild cfg.numChildren q → q ≠ p →
      (askedFrom (writtenAt r.transitions p q)).Nodup ∧
        ∀ pc ∈ askedFrom (writtenAt r.transitions p q),
          ∃ i, (1 ≤ i ∧ i ≤ 5 * p) ∧ pc = .requestCs i) ∧
    (∀ i j, IsChild cfg.numChildren i → IsChild cfg.numChildren j → i < j →
      ofType .csRequest (written r.transitions i j) +
          ofType .csRequest (written r.transitions j i) ≤ 10 * i ∧
        ofType .csReply (written r.transitions i j) +
            ofType .csReply (written r.transitions j i) ≤
          ofType .csRequest (written r.transitions i j) +
            ofType .csRequest (written r.transitions j i)) ∧
    (∀ p, (r.final.loc p).lamportTime ≤ int16Max) ∧
    ∀ p q, ∀ m ∈ r.final.transit p q, m.localTime ≤ int16Max := by
  have timed := (metered r).timed
  have limit : r.traffic.handled (channels cfg.numChildren) ≤ int16Max :=
    (handled_le r).trans (clockLimit_le few)
  refine ⟨fun p q hp hq ne => asked_once r hp hq ne, fun i j hi hj lt => ⟨?_, ?_⟩,
    fun p => (timed.clock p).trans limit, fun p q m mem => (timed.times p q m mem).trans limit⟩
  · have := (written_le_sent .csRequest r i j).trans
      (requests_le_min r hi hj (Nat.ne_of_gt lt))
    have := (written_le_sent .csRequest r j i).trans
      (requests_le_min r hj hi (Nat.ne_of_lt lt))
    omega
  · have := (written_le_sent .csReply r i j).trans (replies_le r hi hj (Nat.ne_of_gt lt))
    have := (written_le_sent .csReply r j i).trans (replies_le r hj hi (Nat.ne_of_lt lt))
    omega

theorem forks_traffic_bounded_two :
    ∃ r : MutexRun twoChildren mutex, (r.final.loc 1).pc = .criticalSection 1 ∧
      (askedFrom (writtenAt r.transitions 1 2)).Nodup ∧
      ofType .csRequest (written r.transitions 1 2) +
        ofType .csRequest (written r.transitions 2 1) ≤ 10 ∧
      ∀ p, (r.final.loc p).lamportTime ≤ int16Max := by
  have check : ((initialState twoChildren mutex).follow? (spawnChildren twoChildren mutex true)
      (bothAsk ++ [.take 2 1, .send 2, .send 2, .take 1 2])).any
      (fun s => (s.loc 1).pc = .criticalSection 1) = true := by
    decide +kernel
  obtain ⟨s, ts, -, run, check⟩ := State.run_of_follow? check
  have inside : (s.loc 1).pc = .criticalSection 1 := of_decide_eq_true check
  have bounded := @forks_traffic_bounded twoChildren (by decide) ⟨_, s, run⟩
  refine ⟨⟨_, s, run⟩, inside, ?_, ?_, bounded.2.2.1⟩
  · exact (bounded.1 1 2 (by decide) (by decide) (by decide)).1
  · exact (bounded.2.1 1 2 (by decide) (by decide) (by decide)).1

end Distra.Pa6
