import Distra.Pa3.ChildHistory
import Distra.Pa3.Machine

/-!
# The history of one child in machine words

The code of `pa3` does the same in machine words as with clocks that count without end, up to the
first value of `lamport_time` beyond `MAX_T`. So the history of a child is exact if there is none.
-/

namespace Distra.Machine

open Pa23 Accounts

theorem maxT_lt : maxT < int16Max := by decide

/-! ## Histories -/

section Histories

variable (history : BalanceHistory)

theorem sent_recordHistory (state : BalanceState) (small : state.time.toNat ≤ maxT) :
    (recordHistory history state).sent = Distra.recordHistory history.sent state.sent ∧
      (recordHistory history state).overrun = history.overrun := by
  have time := toInt_of_le (small.trans maxT_lt.le)
  refine ⟨?_, ?_⟩
  · have entries : (recordHistory history state).sent.history =
        Function.update history.sent.history state.time.toNat state.sent := by
      funext t
      simp only [BalanceHistory.sent, recordHistory, Function.update_apply, time, Nat.cast_inj]
      by_cases lt : t < maxT + 1
      · rw [dif_pos lt, dif_pos lt]
        by_cases own : state.time.toNat = t
        · rw [if_pos own, if_pos own.symm]
        · rw [if_neg own, if_neg (Ne.symm own)]
      · rw [dif_neg lt, dif_neg lt, if_neg]
        rintro rfl
        exact lt (Nat.lt_succ_of_le small)
    have len : (recordHistory history state).sent.historyLen = succUInt8 history.sent.historyLen :=
      BitVec.toNat_add _ _
    exact congrArg₂ (Distra.BalanceHistory.mk history.id) len entries
  · have inside : 0 ≤ state.time.toInt ∧ state.time.toInt ≤ maxT := by
      rw [time]
      exact ⟨Int.natCast_nonneg _, Int.ofNat_le.mpr small⟩
    simp only [recordHistory, inside, and_self, decide_true, Bool.not_true, Bool.or_false]

theorem sent_foldl_recordHistory (balance : Balance) {ts : List Nat} (small : ∀ t ∈ ts, t ≤ maxT) :
    let filled := ts.foldl (fun history t => recordHistory history ⟨balance, BitVec.ofNat 16 t, 0⟩)
      history
    filled.sent = ts.foldl (fun history t => Distra.recordHistory history ⟨balance, t, 0⟩)
        history.sent ∧
      filled.overrun = history.overrun := by
  induction ts generalizing history with
  | nil => exact ⟨rfl, rfl⟩
  | cons t ts ih =>
    obtain ⟨first, others⟩ := List.forall_mem_cons.mp small
    have time := toNat_ofNat_of_le (first.trans maxT_lt.le)
    obtain ⟨sent, overrun⟩ := sent_recordHistory history ⟨balance, BitVec.ofNat 16 t, 0⟩
      (time.trans_le first)
    rw [BalanceState.sent, time] at sent
    obtain ⟨sent', overrun'⟩ := ih (recordHistory history ⟨balance, BitVec.ofNat 16 t, 0⟩) others
    rw [sent] at sent'
    exact ⟨sent', overrun'.trans overrun⟩

theorem sent_fillHistory (balance : Balance) {recvT : Timestamp} (small : recvT.toNat ≤ maxT) :
    (fillHistory history balance recvT).sent =
        Distra.fillHistory history.sent balance recvT.toNat ∧
      (fillHistory history balance recvT).overrun = history.overrun := by
  have missing : (recvT.toInt - history.historyLen.toNat).toNat =
      recvT.toNat - history.historyLen.toNat := by
    rw [toInt_of_le (small.trans maxT_lt.le), Int.toNat_sub]
  rw [fillHistory, missing]
  refine sent_foldl_recordHistory history balance fun t mem => ?_
  have := List.mem_range'_1.mp mem
  omega

end Histories

/-! ## One process -/

/-- The variables have the same values, the clock set aside. -/
structure Holds (w : Locals) (l : Pa3.Locals) : Prop where
  bufTime : w.bufTime.toNat = l.bufTime
  nonneg : l.bufTime ≤ int16Max
  balance : w.balance = l.balance
  history : w.history.sent = l.history
  inside : w.history.overrun = false

/-- The two are the same for as long as the clock is within `MAX_T`. -/
structure Agrees (w : Locals) (l : Pa3.Locals) : Prop where
  lamportTime : Tracks maxT w.lamportTime l.lamportTime
  holds : l.lamportTime ≤ maxT → Holds w l

/-- So is what they send. -/
def Same (run : Locals × BankSends) (run' : Pa3.Locals × BankSends) : Prop :=
  Agrees run.1 run'.1 ∧ (run'.1.lamportTime ≤ maxT → run.2 = run'.2)

theorem agrees_initial (self : Nat) (balance : Balance) :
    Agrees (initialLocals self balance) (Pa3.initialLocals self balance) := by
  refine ⟨⟨⟨fun _ => Nat.zero_le _, fun _ => Int.natCast_nonneg _⟩, fun _ => rfl⟩,
    fun _ => ⟨rfl, Nat.zero_le _, rfl, ?_, rfl⟩⟩
  have entries : (initialHistory self balance).sent.history =
      (Distra.initialHistory self balance).history := by
    funext t
    simp only [BalanceHistory.sent, initialHistory, Distra.initialHistory, Function.update_apply]
    cases t with
    | zero => rfl
    | succ t => split <;> rfl
  exact congrArg (Distra.BalanceHistory.mk self 1) entries

section Agrees

variable {w : Locals} {l : Pa3.Locals} {m : BankMessage} {n c : Nat} (h : Agrees w l)
include h

theorem Agrees.synchronize {t : Timestamp} {t' : Nat}
    (same : l.lamportTime ≤ maxT → t.toNat = t' ∧ t' ≤ int16Max) :
    Agrees { w with lamportTime := synchronizeTime t w.lamportTime }
      { l with lamportTime := Distra.synchronizeTime t' l.lamportTime } := by
  refine ⟨h.lamportTime.synchronize maxT_lt same, fun small => ?_⟩
  obtain ⟨bufTime, nonneg, balance, history, inside⟩ :=
    h.holds ((lt_synchronizeTime _ _).le.trans small)
  exact ⟨bufTime, nonneg, balance, history, inside⟩

/-- An advance and the time stamp of the message after it. -/
theorem Agrees.advance :
    Agrees
      { w with
        lamportTime := advanceLamportTime w.lamportTime
        bufTime := (advanceLamportTime w.lamportTime).value }
      { l with
        lamportTime := Distra.advanceLamportTime l.lamportTime
        bufTime := Distra.advanceLamportTime l.lamportTime } := by
  have tracks := h.lamportTime.advance maxT_lt
  refine ⟨tracks, fun small => ?_⟩
  obtain ⟨-, -, balance, history, inside⟩ := h.holds ((Nat.le_succ _).trans small)
  exact ⟨tracks.value small, small.trans maxT_lt.le, balance, history, inside⟩

theorem Agrees.fill :
    Agrees { w with history := fillHistory w.history w.balance w.lamportTime.value }
      { l with history := Distra.fillHistory l.history l.balance l.lamportTime } := by
  refine ⟨h.lamportTime, fun small => ?_⟩
  obtain ⟨bufTime, nonneg, balance, history, inside⟩ := h.holds small
  have value := h.lamportTime.value small
  obtain ⟨sent, kept⟩ := sent_fillHistory w.history w.balance (value.trans_le small)
  refine ⟨bufTime, nonneg, balance, sent.trans ?_, kept.trans inside⟩
  rw [history, balance, value]

theorem Agrees.record {state : BalanceState} {state' : Distra.BalanceState}
    (same : Holds w l → l.lamportTime ≤ maxT → state.sent = state' ∧ state'.time ≤ maxT) :
    Agrees { w with history := recordHistory w.history state }
      { l with history := Distra.recordHistory l.history state' } := by
  refine ⟨h.lamportTime, fun small => ?_⟩
  have holds := h.holds small
  obtain ⟨rfl, time⟩ := same holds small
  obtain ⟨sent, kept⟩ := sent_recordHistory w.history _ time
  rw [holds.history] at sent
  exact ⟨holds.bufTime, holds.nonneg, holds.balance, sent, kept.trans holds.inside⟩

theorem Agrees.setBalance {balance balance' : Balance} (same : Holds w l → balance = balance') :
    Agrees { w with balance := balance } { l with balance := balance' } := by
  refine ⟨h.lamportTime, fun small => ?_⟩
  have holds := h.holds small
  exact ⟨holds.bufTime, holds.nonneg, same holds, holds.history, holds.inside⟩

theorem Agrees.ipcExtReceive (nonneg : m.localTime ≤ int16Max) :
    Agrees (ipcExtReceive w m) (Pa3.ipcExtReceive l m) := by
  have time : (received m).toNat = m.localTime := toNat_ofNat_of_le nonneg
  obtain ⟨tracks, holds⟩ := h.synchronize fun _ => ⟨time, nonneg⟩
  refine ⟨tracks, fun small => ?_⟩
  obtain ⟨-, -, balance, history, inside⟩ := holds small
  exact ⟨time, nonneg, balance, history, inside⟩

theorem Agrees.childReceived (nonneg : m.localTime ≤ int16Max) :
    Agrees (childReceived w m) (Pa3.childReceived l m) :=
  (h.ipcExtReceive nonneg).fill

/-- A multicast after an `advance_lamport_time`. -/
theorem Agrees.multicast (self : Nat) (body : Body) :
    Same
      ({ w with
          lamportTime := advanceLamportTime w.lamportTime
          bufTime := (advanceLamportTime w.lamportTime).value },
        sendMulticast n self ⟨body, stamp (advanceLamportTime w.lamportTime)⟩)
      ({ l with
          lamportTime := Distra.advanceLamportTime l.lamportTime
          bufTime := Distra.advanceLamportTime l.lamportTime },
        sendMulticast n self ⟨body, Distra.advanceLamportTime l.lamportTime⟩) := by
  refine ⟨h.advance, fun small => ?_⟩
  have stamped : stamp (advanceLamportTime w.lamportTime) =
      Distra.advanceLamportTime l.lamportTime := h.advance.lamportTime.value small
  rw [stamped]

theorem Agrees.sendHistory : Same (sendHistory w) (Pa3.sendHistory l) := by
  have before := (h.synchronize fun small => ⟨(h.holds small).bufTime, (h.holds small).nonneg⟩).fill
  refine ⟨before.advance, fun small => ?_⟩
  have stamped : stamp (Machine.sendHistory w).1.lamportTime = (Pa3.sendHistory l).1.lamportTime :=
    before.advance.lamportTime.value small
  have history : (Machine.sendHistory w).1.history.sent = (Pa3.sendHistory l).1.history :=
    (before.advance.holds small).history
  change [(parentId, (⟨.balanceHistory (Machine.sendHistory w).1.history.sent,
    stamp (Machine.sendHistory w).1.lamportTime⟩ : BankMessage))] = _
  rw [stamped, history]
  rfl

/-- The two entries of a child that has sent an amount. -/
theorem Agrees.pay (amount : Balance) :
    Agrees
      { lamportTime := advanceLamportTime w.lamportTime
        bufTime := (advanceLamportTime w.lamportTime).value
        balance := w.balance - amount
        history :=
          recordHistory
            (recordHistory w.history ⟨w.balance - amount, w.lamportTime.value, amount⟩)
            ⟨w.balance - amount, (advanceLamportTime w.lamportTime).value, amount⟩ }
      { lamportTime := Distra.advanceLamportTime l.lamportTime
        bufTime := Distra.advanceLamportTime l.lamportTime
        balance := l.balance - amount
        history :=
          Distra.recordHistory
            (Distra.recordHistory l.history ⟨l.balance - amount, l.lamportTime, amount⟩)
            ⟨l.balance - amount, Distra.advanceLamportTime l.lamportTime, amount⟩ } := by
  have paid := h.advance.setBalance fun holds => congrArg (· - amount) holds.balance
  refine (paid.record fun holds small => ⟨?_, ?_⟩).record fun holds small => ⟨?_, small⟩
  · have small : l.lamportTime ≤ maxT := (Nat.le_succ _).trans small
    rw [BalanceState.sent, h.lamportTime.value small]
    exact congrArg (Distra.BalanceState.mk · _ _) holds.balance
  · exact (Nat.le_succ _).trans small
  · rw [BalanceState.sent, h.advance.lamportTime.value small]
    exact congrArg (Distra.BalanceState.mk · _ _) holds.balance

theorem Agrees.childReacts :
    (childReacts c w m).1 = (Pa3.childReacts c l m).1 ∧
      Same (childReacts c w m).2 (Pa3.childReacts c l m).2 := by
  have stamped (small : Distra.advanceLamportTime l.lamportTime ≤ maxT) :
      stamp (advanceLamportTime w.lamportTime) = Distra.advanceLamportTime l.lamportTime :=
    h.advance.lamportTime.value small
  obtain ⟨body, t⟩ := m
  cases body with
  | transfer order =>
    by_cases src : order.src = c
    · simp only [Machine.childReacts, Pa3.childReacts, if_pos src, true_and]
      exact ⟨h.pay order.amount, fun small => by rw [stamped small]⟩
    · by_cases dst : order.dst = c
      · simp only [Machine.childReacts, Pa3.childReacts, if_neg src, if_pos dst, true_and]
        have received := h.advance.setBalance fun holds => congrArg (· + order.amount) holds.balance
        exact ⟨received, fun small => by rw [stamped small]⟩
      · simp only [Machine.childReacts, Pa3.childReacts, if_neg src, if_neg dst, true_and]
        exact ⟨h.advance, fun _ => rfl⟩
  | _ => exact ⟨rfl, h, fun _ => rfl⟩

theorem Agrees.childLoop (nonneg : m.localTime ≤ int16Max) :
    (childLoop c w m).1 = (Pa3.childLoop c l m).1 ∧
      Same (childLoop c w m).2 (Pa3.childLoop c l m).2 :=
  (h.childReceived nonneg).childReacts

theorem Agrees.foldl_ipcExtReceive {messages : List BankMessage}
    (nonneg : ∀ m ∈ messages, m.localTime ≤ int16Max) :
    Agrees (messages.foldl Machine.ipcExtReceive w) (messages.foldl Pa3.ipcExtReceive l) := by
  induction messages generalizing w l with
  | nil => exact h
  | cons m rest ih =>
    obtain ⟨first, others⟩ := List.forall_mem_cons.mp nonneg
    exact ih (h.ipcExtReceive first) others

end Agrees

/-! ## The `TRANSFER`s that a child takes -/

/-- The clock after a message in the loop. -/
def afterMessage (lamportTime : LamportTime) (m : BankMessage) : LamportTime :=
  let recvT := synchronizeTime (received m) lamportTime
  match m.body with
  | .transfer _ => advanceLamportTime recvT
  | _ => recvT

/-- They are posted at the clock right after `synchronize_time`. -/
def postings (lamportTime : LamportTime) (messages : List BankMessage) :
    List (Posting Nat Balance) :=
  Pa23.postings (fun time m => (synchronizeTime (received m) time).value.toNat) afterMessage
    lamportTime messages

theorem childLoop_lamportTime (c : Nat) (w : Locals) (m : BankMessage) :
    (childLoop c w m).2.1.lamportTime = afterMessage w.lamportTime m := by
  obtain ⟨body, t⟩ := m
  cases body with
  | transfer order =>
    simp only [childLoop, childReacts, afterMessage]
    split_ifs <;> rfl
  | _ => rfl

section Run

variable {w : Locals} {l : Pa3.Locals} {n c : Nat} {started messages dones : List BankMessage}

/-- The postings of one message and of those after it. -/
theorem postings_cons {m : BankMessage} {rest : List BankMessage} {lamportTime : LamportTime}
    {time : Nat} (tracks : Tracks maxT lamportTime time) (nonneg : m.localTime ≤ int16Max)
    (small : Distra.synchronizeTime m.localTime time ≤ maxT)
    (others : postings (afterMessage lamportTime m) rest =
      Pa3.postings (Pa3.afterMessage time m) rest) :
    postings lamportTime (m :: rest) = Pa3.postings time (m :: rest) := by
  have recvT := (tracks.synchronize maxT_lt fun _ =>
    ⟨toNat_ofNat_of_le nonneg, nonneg⟩).value small
  obtain ⟨body, t⟩ := m
  cases body with
  | transfer order => exact congrArg₂ List.cons (congrArg (Posting.mk · _) recvT) others
  | _ => exact others

theorem Agrees.childLoops {loop : Loop} {l' : Pa3.Locals} (h : Agrees w l)
    (nonneg : ∀ m ∈ messages, m.localTime ≤ int16Max)
    (run : childLoops Pa3.bank c l messages = some (loop, l')) :
    ∃ w', childLoops bank c w messages = some (loop, w') ∧ Agrees w' l' ∧
      l.lamportTime ≤ l'.lamportTime ∧
      (l'.lamportTime ≤ maxT →
        postings w.lamportTime messages = Pa3.postings l.lamportTime messages) := by
  induction messages generalizing w l with
  | nil =>
    cases run
    exact ⟨w, rfl, h, le_rfl, fun _ => rfl⟩
  | cons m rest ih =>
    obtain ⟨first, nonneg⟩ := List.forall_mem_cons.mp nonneg
    obtain ⟨same, agrees, -⟩ := h.childLoop (c := c) first
    have clock := Pa3.childLoop_lamportTime c l m
    have clock' := childLoop_lamportTime c w m
    rcases step : Pa3.childLoop c l m with ⟨flag, l₁, out⟩
    rcases step' : Machine.childLoop c w m with ⟨flag', w₁, out'⟩
    rw [step] at same agrees clock
    rw [step'] at same agrees clock'
    obtain rfl : flag' = flag := same
    have posted (small : l₁.lamportTime ≤ maxT)
        (others : postings w₁.lamportTime rest = Pa3.postings l₁.lamportTime rest) :
        postings w.lamportTime (m :: rest) = Pa3.postings l.lamportTime (m :: rest) := by
      rw [clock] at small others
      rw [clock'] at others
      exact postings_cons h.lamportTime first ((Pa3.le_afterMessage _ m).trans small) others
    have later : l.lamportTime ≤ l₁.lamportTime := by
      rw [clock]
      exact (Pa3.lt_afterMessage _ m).le
    rw [Pa23.childLoops, show Pa3.bank.childLoop c l m = (flag', l₁, out) from step] at run
    rw [Pa23.childLoops, show bank.childLoop c w m = (flag', w₁, out') from step']
    cases flag' with
    | goesOn =>
      obtain ⟨w', run', agrees', grows, others⟩ := ih agrees nonneg run
      exact ⟨w', run', agrees', later.trans grows,
        fun small => posted (grows.trans small) (others small)⟩
    | breaks =>
      cases rest with
      | nil =>
        cases run
        exact ⟨w₁, rfl, agrees, later, fun small => posted small rfl⟩
      | cons => cases run

theorem Agrees.beforeLoop (h : Agrees w l) (nonneg : ∀ m ∈ started, m.localTime ≤ int16Max) :
    Agrees (beforeLoop bank c n w started) (beforeLoop Pa3.bank c n l started) :=
  (h.multicast c .started).1.foldl_ipcExtReceive nonneg

theorem Agrees.afterLoop (h : Agrees w l) (nonneg : ∀ m ∈ dones, m.localTime ≤ int16Max) :
    Agrees (afterLoop bank c n w dones) (afterLoop Pa3.bank c n l dones) :=
  (h.multicast c .done).1.foldl_ipcExtReceive nonneg

/-- `child_entry` up to its history. -/
theorem Agrees.runChild {run : Pa3.Locals × BankSends} (h : Agrees w l)
    (nonneg : ∀ m ∈ started ++ messages ++ dones, m.localTime ≤ int16Max)
    (eq : runChild Pa3.bank c n l started messages dones = some run) :
    ∃ w' l', run = Pa3.sendHistory l' ∧
      Pa23.runChild bank c n w started messages dones = some (Machine.sendHistory w') ∧
      Agrees w' l' ∧
      (l'.lamportTime ≤ maxT →
        postings (Pa23.beforeLoop bank c n w started).lamportTime messages =
          Pa3.postings (Pa23.beforeLoop Pa3.bank c n l started).lamportTime messages) := by
  simp only [List.forall_mem_append] at nonneg
  obtain ⟨⟨first, second⟩, third⟩ := nonneg
  rw [Pa23.runChild] at eq
  split at eq
  next l₁ loops =>
    obtain ⟨w₁, loops', agrees, -, posted⟩ := (h.beforeLoop first).childLoops second loops
    have agrees' := agrees.afterLoop (c := c) (n := n) third
    refine ⟨_, _, (Option.some_inj.mp eq).symm, ?_, agrees', fun small => posted ?_⟩
    · rw [Pa23.runChild, loops']
      rfl
    · exact (Pa3.le_afterLoop c n l₁ dones).trans small
  next => cases eq

end Run

/-! ## Every sequence of messages -/

/-- Whatever the child takes, its history is that of its account, up to the clock right before the
last advance, if no value of the clock is beyond `MAX_T`. -/
theorem child_history_exact_within (n c : Nat) (balance : Balance)
    (started messages dones : List BankMessage) (stopTime : Nat)
    (nonneg : ∀ m ∈ started ++ (messages ++ [⟨.stop, stopTime⟩]) ++ dones, m.localTime ≤ int16Max)
    (noStop : ∀ m ∈ messages, m.body.type ≠ .stop)
    (valid : ∀ m ∈ messages, ∀ order, m.body = .transfer order → order.src ≠ order.dst) :
    ∃ l out,
      runChild bank c n (initialLocals c balance) started (messages ++ [⟨.stop, stopTime⟩]) dones =
        some (l, out) ∧
      (l.lamportTime.highest ≤ maxT →
        l.history.overrun = false ∧
        ∃ history last,
          out = [(parentId, ⟨.balanceHistory history, stamp l.lamportTime⟩)] ∧
          l.lamportTime = advanceLamportTime last ∧
          Pa3.Exact c balance
            (postings (beforeLoop bank c n (initialLocals c balance) started).lamportTime messages)
            history last.value.toNat) := by
  obtain ⟨l, history, last, run, clock, exact⟩ :=
    Pa3.child_history_exact n c balance started messages dones stopTime noStop valid
  obtain ⟨w', l', eq, run', agrees, posted⟩ :=
    (agrees_initial c balance).runChild (w := initialLocals c balance) nonneg run
  obtain ⟨rfl, sent⟩ := Prod.ext_iff.mp eq
  obtain rfl : last = Distra.synchronizeTime l'.bufTime l'.lamportTime := (Nat.succ.inj clock).symm
  refine ⟨_, _, run', fun highest => ?_⟩
  obtain ⟨same, sends⟩ := agrees.sendHistory
  have small := same.lamportTime.small.mp highest
  have small' : Distra.synchronizeTime l'.bufTime l'.lamportTime ≤ maxT :=
    (Nat.le_succ _).trans small
  have stamped : stamp (sendHistory w').1.lamportTime = (Pa3.sendHistory l').1.lamportTime :=
    same.lamportTime.value small
  have before := agrees.synchronize fun small =>
    ⟨(agrees.holds small).bufTime, (agrees.holds small).nonneg⟩
  have lastTime : (synchronizeTime w'.bufTime w'.lamportTime).value.toNat =
      Distra.synchronizeTime l'.bufTime l'.lamportTime := before.lamportTime.value small'
  have sent : (sendHistory w').2 =
      [(parentId, ⟨.balanceHistory history, stamp (sendHistory w').1.lamportTime⟩)] := by
    rw [sends small, stamped]
    exact sent.symm
  refine ⟨(same.holds small).inside, history, _, sent, rfl, ?_⟩
  have posted := posted ((lt_synchronizeTime _ _).le.trans small')
  rw [postings, Pa3.postings, postings_snoc (by simp [Body.type]),
    postings_snoc (by simp [Body.type])] at posted
  have exact := exact small
  rw [Pa3.postings, ← posted] at exact
  rw [lastTime]
  exact exact

theorem child_history_exact_twoTransfers :
    ∃ l history last,
      runChild bank 1 2 (initialLocals 1 100) [⟨.started, 1⟩]
          ([⟨.transfer ⟨1, 2, 10⟩, 3⟩, ⟨.ack, 7⟩, ⟨.transfer ⟨2, 1, 5⟩, 10⟩] ++ [⟨.stop, 12⟩])
          [⟨.done, 15⟩] = some (l, [(parentId, ⟨.balanceHistory history, stamp l.lamportTime⟩)]) ∧
        l.lamportTime = advanceLamportTime last ∧ last.value = 17 ∧
        Pa3.Exact 1 100 [⟨4, ⟨1, 2, 10⟩⟩, ⟨11, ⟨2, 1, 5⟩⟩] history 17 := by
  obtain ⟨l, out, run, exact⟩ :=
    child_history_exact_within 2 1 100 [⟨.started, 1⟩]
      [⟨.transfer ⟨1, 2, 10⟩, 3⟩, ⟨.ack, 7⟩, ⟨.transfer ⟨2, 1, 5⟩, 10⟩] [⟨.done, 15⟩] 12
      (by decide) (by simp [Body.type]) (by simp)
  have clocks := congrArg (Option.map fun r : Locals × BankSends => r.1.lamportTime) run
  have final : l.lamportTime = ⟨18, 18⟩ := (Option.some_inj.mp clocks).symm
  have within : l.lamportTime.highest ≤ maxT := by
    rw [final]
    decide
  obtain ⟨-, history, last, rfl, clock, exact⟩ := exact within
  have value : last.value = 17 := by
    have value := congrArg LamportTime.value (final.symm.trans clock)
    change (18 : Timestamp) = last.value + 1 at value
    bv_omega
  rw [value] at exact
  exact ⟨l, history, last, run, clock, value, exact⟩

/-- A `STOP` with the highest time stamp takes the clock around, and nothing is filled in. -/
theorem child_history_wraps :
    ∃ l history last,
      runChild bank 1 1 (initialLocals 1 100) [] ([] ++ [⟨.stop, 32767⟩]) [] =
        some (l, [(parentId, ⟨.balanceHistory history, stamp l.lamportTime⟩)]) ∧
      l.lamportTime = advanceLamportTime last ∧ l.lamportTime.value.toInt ≤ maxT ∧
      history.historyLen = 1 ∧ (history.historyLen : Int) ≠ last.value.toInt :=
  ⟨_, _, _, rfl, rfl, by decide, rfl, by decide⟩

end Distra.Machine
