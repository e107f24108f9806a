import Distra.Network.Lockstep
import Distra.Pa3.ClockBound
import Distra.Pa3.MachineHistory

/-!
# The runs in machine words

With transfers that end before `MAX_T`, the processes of `pa3` in machine words have the same runs
as those with clocks that count without end. So no clock wraps, and no write goes outside of an
array.
-/

namespace Distra.Machine

open Pa23 Network

/-! ## The parent -/

section Parent

variable {w : Locals} {l : Pa3.Locals} (h : Agrees w l)
include h

theorem Agrees.transfer (order : TransferOrder) :
    Same (transfer w order) (Pa3.transfer l order) := by
  have tracks := h.lamportTime.advance maxT_lt
  refine ⟨⟨tracks, fun small => ?_⟩, fun small => ?_⟩
  · obtain ⟨bufTime, nonneg, balance, history, inside⟩ := h.holds ((Nat.le_succ _).trans small)
    exact ⟨bufTime, nonneg, balance, history, inside⟩
  · have stamped : stamp (advanceLamportTime w.lamportTime) =
        Distra.advanceLamportTime l.lamportTime := tracks.value small
    rw [Machine.transfer, stamped]
    rfl

theorem Agrees.transferReceived {m : BankMessage} (nonneg : m.localTime ≤ int16Max) :
    Agrees (transferReceived w m) (Pa3.transferReceived l m) :=
  h.synchronize fun _ => ⟨toNat_ofNat_of_le nonneg, nonneg⟩

end Parent

/-! ## One process next to the other -/

/-- The process stands where the other one does, with the same variables. -/
structure Mirrors (st : Process Locals) (st' : Process Pa3.Locals) : Prop where
  pc : st.pc = st'.pc
  data : Agrees st.data st'.data
  allHistory : st.allHistory = st'.allHistory
  printed : st.printed = st'.printed

/-- The clock that counts without end is within `MAX_T`. -/
def InTime {α : Type} (_ : α) (st' : Process Pa3.Locals) : Prop := st'.data.lamportTime ≤ maxT

/-- The time stamp is that of a `timestamp_t`, and not negative. -/
def Stamped (m : BankMessage) : Prop := m.localTime ≤ int16Max

section Process

variable {st : Process Locals} {st' : Process Pa3.Locals} {n p fr : Nat} {pc : Pc}
  {run : Locals × BankSends} {run' : Pa3.Locals × BankSends} (h : Mirrors st st')
include h

theorem Mirrors.goTo (same : Same run run') :
    (st.goTo pc run).Agrees Mirrors InTime (st'.goTo pc run') :=
  ⟨⟨rfl, same.1, h.allHistory, h.printed⟩, same.2⟩

/-- Only the point in the code changes. -/
theorem Mirrors.moves (pc : Pc) :
    Next.Agrees (P := Nat) (M := BankMessage) Mirrors InTime
      ({ st with pc := pc }, []) ({ st' with pc := pc }, []) :=
  ⟨⟨rfl, h.data, h.allHistory, h.printed⟩, fun _ => rfl⟩

theorem Mirrors.stays :
    Next.Agrees (P := Nat) (M := BankMessage) Mirrors InTime (st, []) (st', []) :=
  ⟨h, fun _ => rfl⟩

theorem Mirrors.ipcExtReceiveAll {type : MessageType} {pc : Nat → Pc}
    {callback : Nat → BankMessage → Process Locals → Option (Process Locals)}
    {callback' : Nat → BankMessage → Process Pa3.Locals → Option (Process Pa3.Locals)}
    {next : ProcessNext Locals} {next' : ProcessNext Pa3.Locals}
    (calls : ∀ q m {u u'}, Mirrors u u' → Option.Rel Mirrors (callback q m u) (callback' q m u'))
    (after : next.Agrees Mirrors InTime next') :
    (ipcExtReceiveAll n bank p st type fr pc callback next).Agrees Stamped
      (Next.Agrees Mirrors InTime)
      (ipcExtReceiveAll n Pa3.bank p st' type fr pc callback' next') := by
  unfold Pa23.ipcExtReceiveAll
  cases ipcReceiveAllNext n p fr with
  | none => exact .act after
  | some q =>
    refine .receive (fun m stamped => ?_) h.stays
    by_cases expected : m.body.type = type
    · rw [if_pos expected, if_pos expected]
      have received : Mirrors { st with pc := pc q, data := bank.ipcExtReceive st.data m }
          { st' with pc := pc q, data := Pa3.bank.ipcExtReceive st'.data m } :=
        ⟨rfl, h.data.ipcExtReceive stamped, h.allHistory, h.printed⟩
      have called := calls q m received
      generalize callback q m { st with pc := pc q, data := bank.ipcExtReceive st.data m } = result
        at called
      generalize callback' q m { st' with pc := pc q, data := Pa3.bank.ipcExtReceive st'.data m } =
        result' at called
      cases called with
      | some related => exact related.stays
      | none => exact h.moves .aborted
    · rw [if_neg expected, if_neg expected]
      exact h.moves .panicked

theorem Mirrors.childEntry :
    (childEntry n bank p st).Agrees Stamped (Next.Agrees Mirrors InTime)
      (childEntry n Pa3.bank p st') := by
  unfold Pa23.childEntry
  rw [h.pc]
  cases st'.pc with
  | childSyncStarted => exact .act (h.goTo (h.data.multicast p .started))
  | awaitAllStarted fr =>
    exact h.ipcExtReceiveAll (fun _ _ => .some) (h.goTo ⟨h.data, fun _ => rfl⟩)
  | receiveAny fr =>
    refine .receive (fun m stamped => ?_) (h.moves _)
    obtain ⟨flag, same⟩ := h.data.childLoop (c := p) stamped
    change (bank.childLoop p st.data m).1 = (Pa3.bank.childLoop p st'.data m).1 at flag
    change Same (bank.childLoop p st.data m).2 (Pa3.bank.childLoop p st'.data m).2 at same
    generalize bank.childLoop p st.data m = result at flag same ⊢
    generalize Pa3.bank.childLoop p st'.data m = result' at flag same ⊢
    obtain ⟨loop, run⟩ := result
    obtain ⟨loop', run'⟩ := result'
    obtain rfl : loop = loop' := flag
    cases loop with
    | goesOn => exact h.goTo same
    | breaks => exact h.goTo same
  | childSyncDone => exact .act (h.goTo (h.data.multicast p .done))
  | awaitAllDone fr => exact h.ipcExtReceiveAll (fun _ _ => .some) (h.goTo h.data.sendHistory)
  | _ => exact .stop

theorem Mirrors.parentFillHistoryCallback (q : Nat) (m : BankMessage) :
    Option.Rel Mirrors (parentFillHistoryCallback q m st) (parentFillHistoryCallback q m st') := by
  unfold Pa23.parentFillHistoryCallback
  rw [h.allHistory]
  cases m.body with
  | balanceHistory history =>
    by_cases due : st'.allHistory.historyLen = q - 1
    · simp only [if_pos due]
      exact .some ⟨h.pc, h.data, rfl, h.printed⟩
    · simp only [if_neg due]
      exact .none
  | _ => exact .none

theorem Mirrors.parentEntry (orders : List TransferOrder) :
    (parentEntry n bank orders st).Agrees Stamped (Next.Agrees Mirrors InTime)
      (parentEntry n Pa3.bank orders st') := by
  unfold Pa23.parentEntry
  rw [h.pc]
  cases st'.pc with
  | awaitAllStarted fr =>
    exact h.ipcExtReceiveAll (fun _ _ => .some) (h.goTo ⟨h.data, fun _ => rfl⟩)
  | bankRobbery orders =>
    cases orders with
    | cons order orders => exact .act (h.goTo (h.data.transfer order))
    | nil => exact .act (h.goTo (h.data.multicast parentId .stop))
  | awaitAck order orders =>
    refine .receive (fun m stamped => ?_) h.stays
    exact h.goTo ⟨h.data.transferReceived stamped, fun _ => rfl⟩
  | awaitAllDone fr =>
    exact h.ipcExtReceiveAll (fun _ _ => .some) ⟨⟨rfl, h.data, rfl, h.printed⟩, fun _ => rfl⟩
  | receiveHistories fr =>
    refine h.ipcExtReceiveAll (fun q m _ _ related => related.parentFillHistoryCallback q m) ?_
    exact ⟨⟨rfl, h.data, h.allHistory, congrArg some h.allHistory⟩, fun _ => rfl⟩
  | _ => exact .stop

end Process

/-! ## All processes -/

variable (cfg : BankConfig)

theorem start_agrees : (start cfg bank).Agrees Stamped Mirrors InTime (start cfg Pa3.bank) := by
  intro p st st' related
  unfold start
  split_ifs
  · exact related.parentEntry cfg.orders
  · exact related.childEntry
  · exact .stop

theorem initialState_agrees :
    (initialState cfg bank).Agrees Mirrors (initialState cfg Pa3.bank) :=
  ⟨fun p => ⟨rfl, agrees_initial p _, rfl, rfl⟩, rfl, rfl⟩

variable {cfg}

theorem stamped_of_chan (small : Pa3.clockLimit cfg ≤ maxT) (r : BankRun cfg Pa3.bank) {p q : Nat}
    {m : BankMessage} (mem : m ∈ r.final.chan p q) : Stamped m := by
  have transit : m ∈ r.final.transit p q := List.mem_append_left _ mem
  exact (((Pa3.timed_le r).times p q m transit).trans small).trans maxT_lt.le

theorem inTime (small : Pa3.clockLimit cfg ≤ maxT) (r : BankRun cfg Pa3.bank) (p : Nat) :
    (r.final.loc p).data.lamportTime ≤ maxT :=
  ((Pa3.timed_le r).clock p).trans small

/-- Every run in machine words is one of the clocks that count without end. -/
theorem lockstep (small : Pa3.clockLimit cfg ≤ maxT) (r : BankRun cfg bank) :
    ∃ r' : BankRun cfg Pa3.bank, r.final.Agrees Mirrors r'.final ∧
      r'.transitions.map Transition.event = r.transitions.map Transition.event :=
  Execution.lockstep (start_agrees cfg) (initialState_agrees cfg)
    (fun _ r' => ⟨inTime small r', fun _ _ _ => stamped_of_chan small r'⟩) r

/-- And the other way around. -/
theorem lockstep_flip (small : Pa3.clockLimit cfg ≤ maxT) (r' : BankRun cfg Pa3.bank) :
    ∃ r : BankRun cfg bank, r.final.Agrees Mirrors r'.final ∧
      r.transitions.map Transition.event = r'.transitions.map Transition.event := by
  obtain ⟨r, agrees, events⟩ :=
    Execution.lockstep (start_agrees cfg).flip (initialState_agrees cfg).flip
      (fun r' r => ⟨inTime small r', fun p q m mem => by
        obtain ⟨_, agrees, -⟩ := lockstep small r
        rw [agrees.chan] at mem
        exact stamped_of_chan small _ mem⟩) r'
  exact ⟨r, agrees.flip, events⟩

/-- The same steps, messages and values of variables. In the run in machine words no clock wraps,
and no write goes outside of an array. -/
structure Alike (r : BankRun cfg bank) (r' : BankRun cfg Pa3.bank) : Prop where
  events : r.transitions.map Transition.event = r'.transitions.map Transition.event
  outbox : r.final.outbox = r'.final.outbox
  chan : r.final.chan = r'.final.chan
  pc : ∀ p, (r.final.loc p).pc = (r'.final.loc p).pc
  printed : ∀ p, (r.final.loc p).printed = (r'.final.loc p).printed
  balance : ∀ p, (r.final.loc p).data.balance = (r'.final.loc p).data.balance
  history : ∀ p, (r.final.loc p).data.history.sent = (r'.final.loc p).data.history
  clock : ∀ p, (r.final.loc p).data.lamportTime.value.toInt = (r'.final.loc p).data.lamportTime
  highest : ∀ p, (r.final.loc p).data.lamportTime.highest ≤ maxT
  inside : ∀ p, (r.final.loc p).data.history.overrun = false

theorem alike {r : BankRun cfg bank} {r' : BankRun cfg Pa3.bank}
    (small : ∀ p, (r'.final.loc p).data.lamportTime ≤ maxT)
    (agrees : r.final.Agrees Mirrors r'.final)
    (events : r.transitions.map Transition.event = r'.transitions.map Transition.event) :
    Alike r r' where
  events := events
  outbox := agrees.outbox
  chan := agrees.chan
  pc p := (agrees.loc p).pc
  printed p := (agrees.loc p).printed
  balance p := ((agrees.loc p).data.holds (small p)).balance
  history p := ((agrees.loc p).data.holds (small p)).history
  clock p := by
    have value := (agrees.loc p).data.lamportTime.value (small p)
    rw [toInt_of_le (value.trans_le ((small p).trans maxT_lt.le)), value]
  highest p := (agrees.loc p).data.lamportTime.small.mpr (small p)
  inside p := ((agrees.loc p).data.holds (small p)).inside

theorem exists_alike (small : Pa3.clockLimit cfg ≤ maxT) (r : BankRun cfg bank) :
    ∃ r' : BankRun cfg Pa3.bank, Alike r r' := by
  obtain ⟨r', agrees, events⟩ := lockstep small r
  exact ⟨r', alike (inTime small r') agrees events.symm⟩

/-- With one child there is nothing to ask of the transfers. -/
theorem inside_of_alone (alone : cfg.numChildren = 1) (r : BankRun cfg bank) (p : Nat) :
    (r.final.loc p).data.lamportTime.highest ≤ maxT ∧
      (r.final.loc p).data.history.overrun = false := by
  obtain ⟨r', same⟩ := exists_alike ((Pa3.clockLimit_of_alone alone).trans_le (by decide)) r
  exact ⟨same.highest p, same.inside p⟩

/-- So whatever has been shown of the runs of `Pa3.bank` holds of the code in machine words. -/
theorem runs_alike (cfg : BankConfig) (small : Pa3.clockLimit cfg ≤ maxT) :
    (∀ r : BankRun cfg bank, ∃ r', Alike r r') ∧
      ∀ r' : BankRun cfg Pa3.bank, ∃ r : BankRun cfg bank, Alike r r' := by
  refine ⟨exists_alike small, fun r' => ?_⟩
  obtain ⟨r, agrees, events⟩ := lockstep_flip small r'
  exact ⟨r, alike (inTime small r') agrees events⟩

theorem runs_alike_oneTransfer :
    ∃ (r : BankRun oneTransfer bank) (allHistory : AllHistory),
      (r.final.loc parentId).printed = some allHistory ∧
        ∀ p, (r.final.loc p).data.lamportTime.highest ≤ maxT ∧
          (r.final.loc p).data.history.overrun = false := by
  obtain ⟨r', allHistory, follow, printed, -⟩ :=
    Pa3.prints_of_schedule oneTransferSchedule (by decide +kernel)
  obtain ⟨r, same⟩ := (runs_alike oneTransfer (by decide)).2 r'
  exact ⟨r, allHistory, (same.printed parentId).trans printed,
    fun p => ⟨same.highest p, same.inside p⟩⟩

end Distra.Machine
