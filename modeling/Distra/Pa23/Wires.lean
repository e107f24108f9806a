import Distra.Ipc.Replay
import Distra.Pa23.Completion
import Distra.Pa23.Payloads

/-!
# The messages of `pa2` and `pa3` as bytes

A channel never holds more than four messages, one of them a history at most, and nothing is ever on
its way to a process that has ended. So over pipes the processes do what they do over FIFO channels,
and as long as nobody has exited, they can come to their end whenever they can there.
-/

namespace Distra.Pa23

open Network Ipc Message

/-! ## Messages -/

/-- `ipc_ext_set_status` of `pa2` and `pa3`: the length of the payload is left as it is. In `pa2` so
is the time, which is that of the message all the same. -/
def ipcExtSetStatus (buf : Ipc.Message) (type : MessageType) (time : Nat) : Ipc.Message :=
  store (store buf 0 (uint16Bytes messageMagic)) 4
    (uint16Bytes (typeCode type) ++ uint16Bytes (BitVec.ofNat 16 time))

/-- A structure as the payload. -/
def withPayload (buf : Ipc.Message) (type : MessageType) (time : Nat) (bytes : List Byte) :
    Ipc.Message :=
  store (store buf 0 (MessageHeader.bytes
    ⟨messageMagic, BitVec.ofNat 16 bytes.length, typeCode type, BitVec.ofNat 16 time⟩))
    headerSize bytes

/-- What a receiver looks at. -/
def decodeBank (msg : Ipc.Message) : BankMessage where
  body :=
    match typeOf (header msg).sType with
    | .started => .started
    | .done => .done
    | .ack => .ack
    | .stop => .stop
    | .transfer => .transfer (readTransferOrder (payload msg))
    | .balanceHistory => .balanceHistory (readBalanceHistory (payload msg))
    | .csRequest => .csRequest
    | .csReply => .csReply
    | .csRelease => .csRelease
  -- whatever the sign of what is left in an unused buffer
  localTime := (header msg).sLocalTime.toNat

/-- A `STOP` carries what is left of the last text. -/
def payloadLimit : MessageType → Nat
  | .started | .done | .stop => textLimit
  | .transfer => 4
  | .balanceHistory => 1538
  | _ => 0

def BodyPacks : Body → Prop
  | .transfer order => order.Packs
  | .balanceHistory history => history.Packs
  | _ => True

/-- The bytes of a message. -/
def EncodesBank (m : BankMessage) (msg : Ipc.Message) : Prop :=
  match m.body with
  | .started | .done => ∃ buf text, text.length ≤ textLimit ∧
      msg = ipcExtSetPayload buf m.body.type m.localTime text
  | .stop => ∃ buf, payloadLen buf ≤ textLimit ∧ msg = ipcExtSetStatus buf .stop m.localTime
  | .transfer order => ∃ buf, msg = withPayload buf .transfer m.localTime order.bytes
  | .balanceHistory history =>
    ∃ buf, msg = withPayload buf .balanceHistory m.localTime history.bytes
  | .ack | .csRequest | .csReply | .csRelease =>
    ∃ buf, msg = Ipc.ipcExtSetStatus buf m.body.type m.localTime

section Messages

variable {buf msg : Ipc.Message} {type : MessageType} {time : Nat} {bytes : List Byte}

theorem header_setStatus : header (ipcExtSetStatus buf type time) =
    ⟨messageMagic, (header buf).sPayloadLen, typeCode type, BitVec.ofNat 16 time⟩ := by
  have magic : uint16 (ipcExtSetStatus buf type time) 0 = messageMagic := uint16_bytes messageMagic
  have type_ : uint16 (ipcExtSetStatus buf type time) 4 = typeCode type := uint16_bytes _
  have time_ : uint16 (ipcExtSetStatus buf type time) 6 = BitVec.ofNat 16 time := uint16_bytes _
  have len : uint16 (ipcExtSetStatus buf type time) 2 = uint16 buf 2 := rfl
  rw [header, magic, type_, time_, len]
  rfl

theorem header_withPayload : header (withPayload buf type time bytes) =
    ⟨messageMagic, BitVec.ofNat 16 bytes.length, typeCode type, BitVec.ofNat 16 time⟩ := by
  rw [withPayload, header_of_load (load_store_before _ _ (Nat.zero_add _).le), header_store]

theorem payloadLen_withPayload (short : bytes.length < 2 ^ 16) :
    payloadLen (withPayload buf type time bytes) = bytes.length := by
  rw [payloadLen, header_withPayload, BitVec.toNat_ofNat, Nat.mod_eq_of_lt short]

theorem load_payload (msg : Ipc.Message) (len : Nat) :
    load (payload msg) 0 len = load msg headerSize len := by
  refine List.ext_getElem (by simp) fun i _ _ => ?_
  simp [load, payload]

/-- A receiver has the bytes of the structure. -/
theorem load_withPayload (short : bytes.length < 2 ^ 16)
    (same : Same msg (withPayload buf type time bytes)) :
    load (payload msg) 0 bytes.length = bytes := by
  have stored := load_store_self (store buf 0 (MessageHeader.bytes
    ⟨messageMagic, BitVec.ofNat 16 bytes.length, typeCode type, BitVec.ofNat 16 time⟩))
    headerSize bytes
  refine Eq.trans ?_ ((load_payload _ _).trans stored)
  refine load_eq_load.mpr fun i _ lt => same.payload i ?_
  rw [payloadLen_withPayload short]
  omega

theorem length_encoded {m : BankMessage} (encodes : EncodesBank m msg) :
    (wire msg).length ≤ headerSize + payloadLimit m.body.type := by
  obtain ⟨body, time⟩ := m
  rw [length_wire]
  refine Nat.add_le_add_left ?_ _
  cases body with
  | started | done =>
    obtain ⟨buf, text, short, rfl⟩ := encodes
    rw [payloadLen, header_ipcExtSetPayload, BitVec.toNat_ofNat]
    exact (Nat.mod_le _ _).trans short
  | stop =>
    obtain ⟨buf, short, rfl⟩ := encodes
    rw [payloadLen, header_setStatus]
    exact short
  | transfer order =>
    obtain ⟨buf, rfl⟩ := encodes
    exact (payloadLen_withPayload (by simp)).le
  | balanceHistory history =>
    obtain ⟨buf, rfl⟩ := encodes
    rw [payloadLen_withPayload (by simp), length_balanceHistory]
    exact le_rfl
  | ack | csRequest | csReply | csRelease =>
    obtain ⟨buf, rfl⟩ := encodes
    rw [payloadLen, header_ipcExtSetStatus]
    exact le_rfl

/-- What a message is, its header with the rest of the structure. -/
theorem decodeBank_of_header {len : BitVec 16} {m : BankMessage} (lt : m.localTime < 2 ^ 16)
    (eq : header msg = ⟨messageMagic, len, typeCode m.body.type, BitVec.ofNat 16 m.localTime⟩)
    (transfer : ∀ order, m.body = .transfer order → readTransferOrder (payload msg) = order)
    (history : ∀ h, m.body = .balanceHistory h → readBalanceHistory (payload msg) = h) :
    decodeBank msg = m := by
  obtain ⟨body, time⟩ := m
  rw [decodeBank, eq, typeOf_typeCode, BitVec.toNat_ofNat, Nat.mod_eq_of_lt lt]
  cases body with
  | transfer order => simp only [Body.type, transfer order rfl]
  | balanceHistory h => simp only [Body.type, history h rfl]
  | _ => rfl

theorem decode_encoded {m : BankMessage} {msg' : Ipc.Message} (lt : m.localTime < 2 ^ 16)
    (packs : BodyPacks m.body) (encodes : EncodesBank m msg) (same : Same msg' msg) :
    decodeBank msg' = m := by
  obtain ⟨body, time⟩ := m
  cases body with
  | started | done =>
    obtain ⟨buf, text, -, rfl⟩ := encodes
    exact decodeBank_of_header lt (same.header.trans header_ipcExtSetPayload) nofun nofun
  | stop =>
    obtain ⟨buf, -, rfl⟩ := encodes
    exact decodeBank_of_header lt (same.header.trans header_setStatus) nofun nofun
  | transfer order =>
    obtain ⟨buf, rfl⟩ := encodes
    refine decodeBank_of_header lt (same.header.trans header_withPayload) ?_ nofun
    rintro _ ⟨⟩
    exact readTransferOrder_of_load packs (load_withPayload (by simp) same)
  | balanceHistory h =>
    obtain ⟨buf, rfl⟩ := encodes
    refine decodeBank_of_header lt (same.header.trans header_withPayload) nofun ?_
    rintro _ ⟨⟩
    exact readBalanceHistory_of_load packs (load_withPayload (by simp) same)
  | ack | csRequest | csReply | csRelease =>
    obtain ⟨buf, rfl⟩ := encodes
    exact decodeBank_of_header lt (same.header.trans header_ipcExtSetStatus) nofun nofun

end Messages

def bankCodec : Codec BankMessage where
  Encodes _ := EncodesBank
  decode := decodeBank
  size m := headerSize + payloadLimit m.body.type
  Fits m := m.localTime < 2 ^ 16 ∧ BodyPacks m.body
  length_le := length_encoded
  decode_eq fits encodes same := decode_encoded fits.1 fits.2 encodes same

/-- Every message has bytes. -/
theorem encodes_bank (p : Nat) (m : BankMessage) : ∃ msg, bankCodec.Encodes p m msg := by
  obtain ⟨body, time⟩ := m
  cases body with
  | started | done => exact ⟨_, fun _ => 0, [], Nat.zero_le _, rfl⟩
  | stop => exact ⟨_, fun _ => 0, Nat.zero_le _, rfl⟩
  | _ => exact ⟨_, fun _ => 0, rfl⟩

/-! ## Channels -/

section Channels

variable {δ : Type} {cfg : BankConfig} {B : BankCode δ} {w : BankView δ} {flight : Flight}
  {a b p q : Nat}

def sizeOf (type : MessageType) : Nat := headerSize + payloadLimit type

theorem script_size (a b : Nat) : ((script a b).map sizeOf).sum ≤ 1818 := by
  unfold script
  split
  · decide
  · split <;> decide

theorem flight_size (flight : Flight) (a b : Nat) : ((flight.types a b).map sizeOf).sum ≤ 12 := by
  cases flight with
  | none => exact Nat.zero_le _
  | toSrc | toDst | ack =>
    dsimp only [Flight.types]
    split_ifs <;> decide

/-- The messages in a channel fit into its pipe. -/
theorem Shape.room (h : Shape cfg w flight) (ha : a ≤ cfg.numChildren) (hb : b ≤ cfg.numChildren)
    (ne : a ≠ b) : ((typesIn w a b).map sizeOf).sum ≤ 4096 := by
  have part : (((script a b).take ((w.loc a).pc.sent a)).drop ((w.loc b).pc.taken b a)).Sublist
      (script a b) := (List.drop_sublist _ _).trans (List.take_sublist _ _)
  have scripted := (part.map sizeOf).sum_le_sum fun _ _ => Nat.zero_le _
  have script := script_size a b
  have under := flight_size flight a b
  rw [(h.fits a ha b hb ne).eq, List.map_append, List.sum_append]
  omega

/-- Nothing is on its way to a process that has ended. -/
theorem Shape.empty_of_exited (h : Shape cfg w flight) (ha : a ≤ cfg.numChildren)
    (hb : b ≤ cfg.numChildren) (ne : a ≠ b) (exited : (w.loc b).pc = .exited) :
    w.chan a b = [] := by
  have nothing : flight = .none := by
    by_cases parent : b = parentId
    · apply h.under.none
      rw [← parent, exited, parent]
      exact le_rfl
    · apply h.none_of_stopped hb parent
      rw [exited]
      rfl
  have fits := (h.fits a ha b hb ne).eq
  have all : (script a b).length ≤ (w.loc b).pc.taken b a := by
    rw [exited, script]
    simp only [Pc.taken]
    split
    · exact le_rfl
    · split <;> simp
  rw [nothing, Flight.types, List.append_nil, List.drop_eq_nil_of_le] at fits
  · exact List.map_eq_nil_iff.mp fits
  · exact (List.length_take_le' _ _).trans all

/-- The code of a process comes to its end where it exits. -/
theorem exited_of_stop {st : Process δ} (le : p ≤ cfg.numChildren)
    (role : st.pc.Role cfg.numChildren p) (stop : start cfg B p st = .stop) : st.pc = .exited := by
  have waits {type : MessageType} {fr : Nat} {pc : Nat → Pc}
      {callback : Nat → BankMessage → Process δ → Option (Process δ)} {next : ProcessNext δ} :
      ipcExtReceiveAll cfg.numChildren B p st type fr pc callback next ≠ .stop := by
    unfold ipcExtReceiveAll
    split <;> simp
  by_cases parent : p = parentId
  · subst parent
    rw [start_parent, parentEntry] at stop
    cases pc : st.pc with
    | exited => rfl
    | childSyncStarted | childSyncDone | receiveAny | panicked | aborted =>
      rw [pc] at role
      first
        | exact role.elim
        | exact absurd rfl role
        | exact absurd rfl role.1
    | awaitAllStarted | awaitAllDone | receiveHistories =>
      rw [pc] at stop
      exact absurd stop waits
    | bankRobbery orders =>
      rw [pc] at stop
      cases orders <;> cases stop
    | awaitAck =>
      rw [pc] at stop
      cases stop
  · rw [start_child parent le, childEntry] at stop
    cases pc : st.pc with
    | exited => rfl
    | bankRobbery | awaitAck | receiveHistories | panicked | aborted =>
      rw [pc] at role
      first
        | exact role.elim
        | exact absurd role parent
        | exact absurd role.1 parent
    | awaitAllStarted | awaitAllDone =>
      rw [pc] at stop
      exact absurd stop waits
    | childSyncStarted | childSyncDone | receiveAny =>
      rw [pc] at stop
      cases stop

section Runs

variable (lawful : B.Lawful) (drops : B.Drops)
include lawful drops

theorem BankRun.room (r : BankRun cfg B) (a b : Nat) :
    ((r.final.transit a b).map bankCodec.size).sum ≤ 4096 := by
  by_cases empty : r.final.transit a b = []
  · rw [empty]
    exact Nat.zero_le _
  · obtain ⟨⟨ha, hb⟩, ne⟩ := r.within lawful drops empty
    obtain ⟨w, flight, restored, shape⟩ := r.restored lawful drops
    have room := shape.room ha hb ne
    have same : w.chan a b = r.final.transit a b :=
      (restored.chan a b).resolve_right fun ⟨_, _, _, lost, _⟩ => empty lost
    rw [typesIn, same, List.map_map] at room
    exact room

omit lawful drops in
theorem packs_of_valid {order : TransferOrder} (valid : order.Valid cfg.numChildren) :
    order.Packs := by
  have few : cfg.numChildren ≤ 15 := cfg.le_max
  obtain ⟨⟨⟨-, src⟩, -, dst⟩, -⟩ := valid
  exact ⟨by omega, by omega⟩

/-- What is sent with a step: nothing with a structure in it but a transfer of `bank_robbery`, or
the history of a child that exits. -/
theorem Followed.packs {st : Process δ} {flight' : Flight} {input : Option (Nat × BankMessage)}
    {next : ProcessNext δ} (hist : δ → BalanceHistory)
    (sends : ∀ d, ∃ t, (B.sendHistory d).2 =
      [(parentId, ⟨.balanceHistory (hist (B.sendHistory d).1), t⟩)])
    (shape : Shape cfg w flight) (same : w.loc p = st)
    (step : Followed cfg B p st flight input next flight')
    (packs : p ≠ parentId → (hist next.1.data).Packs) : ∀ x ∈ next.2, BodyPacks x.2.body := by
  have multicast {m : BankMessage} (plain : BodyPacks m.body) :
      ∀ x ∈ sendMulticast cfg.numChildren p m, BodyPacks x.2.body := by
    intro x mem
    obtain ⟨_, _, rfl⟩ := List.mem_map.mp mem
    exact plain
  have single {q : Nat} {m : BankMessage} (plain : BodyPacks m.body) :
      ∀ x ∈ [(q, m)], BodyPacks x.2.body := by
    intro x mem
    rw [List.mem_singleton.mp mem]
    exact plain
  rcases step with step | ⟨child, other, pc⟩
  · cases step with
    | childSyncStarted child pc =>
      obtain ⟨t, sent⟩ := lawful.childSyncStarted cfg.numChildren p st.data
      rw [Process.goTo_sends, sent]
      exact multicast trivial
    | depart parent pc =>
      obtain ⟨t, sent⟩ := lawful.transfer st.data _
      rw [Process.goTo_sends, sent]
      have role := shape.role p (parent ▸ parent_le _)
      rw [same, pc] at role
      exact single (packs_of_valid (role.2 _ List.mem_cons_self))
    | @forward order t src pc =>
      obtain ⟨d', t', loops⟩ := lawful.transferOut p st.data order t src.symm
      rw [Process.goTo_sends, loops]
      exact single (packs_of_valid (shape.valid_flight (.inl rfl)))
    | @deliver order t dst distinct pc =>
      obtain ⟨d', t', loops⟩ := lawful.transferIn p st.data order t distinct dst.symm
      rw [Process.goTo_sends, loops]
      exact single trivial
    | sendStop parent pc =>
      obtain ⟨t, sent⟩ := lawful.sendStop cfg.numChildren st.data
      rw [Process.goTo_sends, sent, ← parent]
      exact multicast trivial
    | stop child pc =>
      obtain ⟨d', loops⟩ := lawful.stop p st.data _
      rw [Process.goTo_sends, loops]
      nofun
    | childSyncDone child pc =>
      obtain ⟨t, sent⟩ := lawful.childSyncDone cfg.numChildren p st.data
      rw [Process.goTo_sends, sent]
      exact multicast trivial
    | childDone child pc =>
      obtain ⟨t, sent⟩ := sends st.data
      rw [Process.goTo_sends, sent]
      exact single (packs child)
    | started | childStarted | parentStarted | ack | looked | done | parentDone | history
    | printHistory | blocked => nofun
  · obtain ⟨d', loops⟩ := drops p st.data _
    rw [Process.goTo_sends, loops]
    nofun

/-- All structures in the channels fit into their bytes, if the histories of the children do. -/
theorem BankRun.packs (hist : δ → BalanceHistory)
    (sends : ∀ d, ∃ t, (B.sendHistory d).2 =
      [(parentId, ⟨.balanceHistory (hist (B.sendHistory d).1), t⟩)])
    (packs : ∀ (r : BankRun cfg B) c, IsChild cfg.numChildren c →
      (hist (r.final.loc c).data).Packs) (r : BankRun cfg B) :
    ∀ a b, ∀ m ∈ r.final.transit a b, BodyPacks m.body := by
  obtain ⟨ts, s, run⟩ := r
  induction run with
  | nil => exact fun _ _ _ mem => absurd mem List.not_mem_nil
  | @snoc ts s e s' run step ih =>
    change ∀ a b, ∀ m ∈ s'.view.chan a b, BodyPacks m.body
    rcases step.view with ⟨same, -⟩ | move
    · rw [same]
      exact ih
    · obtain ⟨w, flight, restored, shape⟩ := BankRun.restored lawful drops ⟨ts, s, run⟩
      obtain ⟨le, ready, next, after, stepped⟩ := bank_move move
      obtain ⟨-, flight', followed, -⟩ := restored.step lawful drops shape le ready stepped
      have own : s'.loc e.actor = next.1 := by
        have loc := congrArg (fun v => v.loc e.actor) after
        rw [View.consume_become_loc, if_pos rfl] at loc
        exact loc
      intro a b m mem
      rw [after, View.consume_become_chan] at mem
      rcases List.mem_append.mp mem with mem | mem
      · exact ih a b m (mem_consume mem)
      · split at mem
        · refine followed.packs lawful drops hist sends shape (congrFun restored.loc _)
            (fun child => ?_) (b, m) (mem_outTo.mp mem)
          rw [← own]
          exact packs ⟨_, s', run.snoc step⟩ e.actor ⟨Nat.pos_of_ne_zero child, le⟩
        · cases mem

/-- What the program expects of the pipes. -/
theorem BankRun.conveyed {capacity : Nat} (wide : 4096 ≤ capacity)
    (fits : ∀ (r : BankRun cfg B) a b, ∀ m ∈ r.final.transit a b, bankCodec.Fits m) :
    Conveyed (start cfg B) (initialState cfg B) bankCodec cfg.numChildren capacity where
  scans polls := (can_of_code polls (by simp)).elim
  fits run a b m mem := fits ⟨_, _, run⟩ a b m mem
  room run a b := (BankRun.room lawful drops ⟨_, _, run⟩ a b).trans wide
  awaited {ts s} run a b some_ stop := by
    obtain ⟨⟨ha, hb⟩, ne⟩ := BankRun.within lawful drops ⟨ts, s, run⟩ some_
    obtain ⟨w, flight, restored, shape⟩ := BankRun.restored lawful drops ⟨ts, s, run⟩
    have same : w.loc = s.loc := restored.loc
    have exited := exited_of_stop hb (same ▸ shape.role b hb) stop
    have empty := shape.empty_of_exited ha hb ne (same ▸ exited)
    rcases restored.chan a b with same | ⟨-, -, -, none_, -⟩
    · exact some_ (same.symm.trans empty)
    · exact some_ none_

end Runs

end Channels

/-! ## Processes over pipes -/

section Piped

variable {δ : Type} {cfg : BankConfig} {B : BankCode δ} {capacity : Nat}
  {W : PipedState (Process δ) BankMessage}

/-- A state of the processes, one `PipedStep` after the other. -/
abbrev PipedBank (cfg : BankConfig) (B : BankCode δ) (capacity : Nat)
    (W : PipedState (Process δ) BankMessage) : Prop :=
  PipedRun (start cfg B) bankCodec cfg.numChildren capacity (.initial (initialProcess cfg B)) W

/-- What the pipes expect of `pa2` and `pa3`. -/
structure FitsPipes (cfg : BankConfig) (B : BankCode δ) : Prop where
  lawful : B.Lawful
  drops : B.Drops
  fits : ∀ (r : BankRun cfg B) a b, ∀ m ∈ r.final.transit a b, bankCodec.Fits m

/-- What holds over pipes of any state that is reached. -/
structure BankOverPipes (cfg : BankConfig) (B : BankCode δ)
    (W : PipedState (Process δ) BankMessage) : Prop where
  follows : ∃ r : BankRun cfg B, Simulates (start cfg B) bankCodec cfg.numChildren W r.final
  /-- No write is refused, and no read fails. -/
  intact : ∀ p, W.status p ≠ .failed
  unfailing : ∀ p ≤ cfg.numChildren, (W.loc p).pc ≠ .panicked ∧ (W.loc p).pc ≠ .aborted
  /-- Nothing is written to a process that has exited. -/
  departed : ∀ p ≤ cfg.numChildren, W.status p = .exited → ∀ q, W.queue q p = []

/-- All processes can come to the end of their code, with the histories printed and nothing left in
the pipes. -/
def CompletableOverPipes (cfg : BankConfig) (B : BankCode δ) (capacity : Nat)
    (W : PipedState (Process δ) BankMessage) : Prop :=
  ∃ W', PipedRun (start cfg B) bankCodec cfg.numChildren capacity W W' ∧
    W'.Living cfg.numChildren ∧ (∀ p ≤ cfg.numChildren, (W'.loc p).pc = .exited) ∧
      (W'.loc parentId).printed ≠ none ∧ ∀ p q, W'.queue p q = []

theorem FitsPipes.safe (fits : FitsPipes cfg B) (wide : 4096 ≤ capacity)
    (run : PipedBank cfg B capacity W) : BankOverPipes cfg B W := by
  have conveyed := BankRun.conveyed fits.lawful fits.drops wide fits.fits
  obtain ⟨ts, s, run, simulates⟩ := run.simulated conveyed
  obtain ⟨w, flight, restored, shape⟩ := BankRun.restored fits.lawful fits.drops ⟨ts, s, run⟩
  have same : w.loc = s.loc := restored.loc
  refine ⟨⟨⟨ts, s, run⟩, simulates⟩, simulates.not_failed, fun p le => ?_,
    fun p le exited => simulates.departed conveyed run exited⟩
  have role := shape.role p le
  rw [same] at role
  rw [simulates.loc]
  constructor <;> intro pc <;> rw [pc] at role <;> exact role

/-- As long as nobody has exited, the processes can come to their end whenever they can over FIFO
channels. -/
theorem FitsPipes.completable_iff (fits : FitsPipes cfg B) (wide : 4096 ≤ capacity)
    (living : W.Living cfg.numChildren) (r : BankRun cfg B)
    (simulates : Simulates (start cfg B) bankCodec cfg.numChildren W r.final) :
    CompletableOverPipes cfg B capacity W ↔
      Awaits r.transitions ∧ ∀ p, IsChild cfg.numChildren p → ¬Doomed r.final p := by
  have conveyed := BankRun.conveyed fits.lawful fits.drops wide fits.fits
  rw [← r.completable_iff fits.lawful fits.drops]
  constructor
  · rintro ⟨W', run, -, exited, -, -⟩
    obtain ⟨ts, s, run', simulates'⟩ := simulates.continues conveyed r.run run
    refine ⟨ts, s, run', completed_of_exited fits.lawful fits.drops ⟨_, s, r.run.trans run'⟩ ?_⟩
    rw [← simulates'.loc]
    exact exited parentId (parent_le _)
  · rintro ⟨ts, s, run, completed⟩
    have plain : Plain (start cfg B) := fun p st sources onMessage onEmpty polls =>
      (can_of_code polls (by simp)).elim
    obtain ⟨W', run', living', simulates'⟩ :=
      simulates.replay conveyed plain encodes_bank r.run living run
    refine ⟨W', run', living', fun p le => ?_, ?_,
      fun p q => simulates'.queue_nil (completed.empty p q)⟩
    · rw [simulates'.loc]
      exact completed.exited p le
    · rw [simulates'.loc]
      exact completed.printed

/-- From the start the processes can come to their end. -/
theorem FitsPipes.completable (fits : FitsPipes cfg B) (wide : 4096 ≤ capacity) :
    CompletableOverPipes cfg B capacity (.initial (initialProcess cfg B)) := by
  have start : Simulates (start cfg B) bankCodec cfg.numChildren (.initial (initialProcess cfg B))
      (initialState cfg B) := .initial _
  refine (fits.completable_iff wide (fun _ _ => by simp [PipedState.initial]) ⟨[], _, .nil⟩
    start).mpr ⟨fun _ mem => absurd mem List.not_mem_nil, ?_⟩
  rintro p - ⟨_, -, -, _, -, m, mem, -⟩
  exact absurd mem List.not_mem_nil

end Piped

end Distra.Pa23
