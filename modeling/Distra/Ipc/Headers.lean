import Distra.Ipc.Message
import Distra.Ipc.Packed

/-!
# `ipcext.c`: what a message is made of

A status is a header without a payload, and an announcement carries a text. Times are 16 bits wide,
and a receiver reads them as signed numbers.
-/

namespace Distra.Ipc

open Distra.Ipc.Message

/-- `MESSAGE_MAGIC`. -/
def messageMagic : BitVec 16 := 0xAFAF

def typeCode : MessageType → BitVec 16
  | .started => 0
  | .done => 1
  | .ack => 2
  | .stop => 3
  | .transfer => 4
  | .balanceHistory => 5
  | .csRequest => 6
  | .csReply => 7
  | .csRelease => 8

/-- No other code is ever sent, and a receiver treats all it does not know alike. -/
def typeOf (code : BitVec 16) : MessageType :=
  match code.toNat with
  | 0 => .started
  | 1 => .done
  | 3 => .stop
  | 4 => .transfer
  | 5 => .balanceHistory
  | 6 => .csRequest
  | 7 => .csReply
  | 8 => .csRelease
  | _ => .ack

def uint16Bytes (v : BitVec 16) : List Byte := [v.setWidth 8, (v >>> 8).setWidth 8]

def MessageHeader.bytes (h : MessageHeader) : List Byte :=
  uint16Bytes h.sMagic ++ uint16Bytes h.sPayloadLen ++ uint16Bytes h.sType ++
    uint16Bytes h.sLocalTime

/-- `ipc_ext_set_status`. -/
def ipcExtSetStatus (buf : Message) (type : MessageType) (time : Nat) : Message :=
  store buf 0 (MessageHeader.bytes ⟨messageMagic, 0, typeCode type, BitVec.ofNat 16 time⟩)

/-- `ipc_ext_set_payload`, where `text` is what the format stands for. `vsnprintf` cuts it off, but
returns its whole length. -/
def ipcExtSetPayload (buf : Message) (type : MessageType) (time : Nat) (text : List Byte) :
    Message :=
  let header : MessageHeader :=
    ⟨messageMagic, BitVec.ofNat 16 text.length, typeCode type, BitVec.ofNat 16 time⟩
  store (store buf 0 header.bytes) headerSize (text.take (maxMessageLen - 1) ++ [0])

/-- The length of a text. `log_started_fmt` stands for 54 characters and five numbers. -/
def textLimit : Nat := 128

/-- What a receiver looks at. -/
def decode (msg : Message) : Distra.Message :=
  ⟨typeOf (header msg).sType, (header msg).sLocalTime.toInt.toNat⟩

section Headers

variable {msg buf : Message} {type : MessageType} {time : Nat} {text : List Byte}

theorem typeOf_typeCode (type : MessageType) : typeOf (typeCode type) = type := by
  cases type <;> rfl

theorem uint16_bytes (v : BitVec 16) : (v >>> 8).setWidth 8 ++ v.setWidth 8 = v := by
  refine BitVec.eq_of_getLsbD_eq fun i lt => ?_
  rw [BitVec.getLsbD_append]
  split
  next low => simp [low]
  next high =>
    have low : i - 8 < 8 := by omega
    have same : 8 + (i - 8) = i := by omega
    simp [low, same]

/-- The header that is stored can be read again. -/
theorem header_store (buf : Message) (h : MessageHeader) : header (store buf 0 h.bytes) = h := by
  have magic : uint16 (store buf 0 h.bytes) 0 = h.sMagic := uint16_bytes h.sMagic
  have len : uint16 (store buf 0 h.bytes) 2 = h.sPayloadLen := uint16_bytes h.sPayloadLen
  have type : uint16 (store buf 0 h.bytes) 4 = h.sType := uint16_bytes h.sType
  have time : uint16 (store buf 0 h.bytes) 6 = h.sLocalTime := uint16_bytes h.sLocalTime
  rw [header, magic, len, type, time]

theorem header_ipcExtSetStatus :
    header (ipcExtSetStatus buf type time) =
      ⟨messageMagic, 0, typeCode type, BitVec.ofNat 16 time⟩ :=
  header_store buf _

/-- The text is behind the header. -/
theorem header_ipcExtSetPayload :
    header (ipcExtSetPayload buf type time text) =
      ⟨messageMagic, BitVec.ofNat 16 text.length, typeCode type, BitVec.ofNat 16 time⟩ := by
  rw [ipcExtSetPayload, header_of_load (load_store_before _ _ (Nat.zero_add _).le), header_store]

theorem length_wire (msg : Message) : (wire msg).length = headerSize + payloadLen msg :=
  length_load _ _ _

theorem length_wire_ipcExtSetStatus :
    (wire (ipcExtSetStatus buf type time)).length = headerSize := by
  rw [length_wire, payloadLen, header_ipcExtSetStatus]
  rfl

theorem length_wire_ipcExtSetPayload :
    (wire (ipcExtSetPayload buf type time text)).length ≤ headerSize + text.length := by
  rw [length_wire, payloadLen, header_ipcExtSetPayload, BitVec.toNat_ofNat]
  exact Nat.add_le_add_left (Nat.mod_le _ _) _

/-- A time of 16 bits is read as it was written, as long as it is below the sign. -/
theorem toInt_time (le : time ≤ int16Max) : (BitVec.ofNat 16 time).toInt.toNat = time := by
  have small : time < 2 ^ 16 := by
    unfold int16Max at le
    omega
  have same : (BitVec.ofNat 16 time).toNat = time := by
    rw [BitVec.toNat_ofNat, Nat.mod_eq_of_lt small]
  have positive : 2 * (BitVec.ofNat 16 time).toNat < 2 ^ 16 := by
    unfold int16Max at le
    omega
  rw [BitVec.toInt_eq_toNat_of_lt positive, Int.toNat_natCast, same]

theorem decode_eq_of_header {magic len : BitVec 16}
    (eq : header msg = ⟨magic, len, typeCode type, BitVec.ofNat 16 time⟩)
    (le : time ≤ int16Max) : decode msg = ⟨type, time⟩ := by
  rw [decode, eq, typeOf_typeCode, toInt_time le]

end Headers

end Distra.Ipc
