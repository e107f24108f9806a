import Mathlib.Data.BitVec

/-!
# `ipc.h`: messages as bytes

A `Message` is a packed structure, and `send` and `receive` see nothing but its bytes: two of them
for each field of the header, the low byte first, and then the payload.
-/

namespace Distra.Ipc

abbrev Byte := BitVec 8

/-- The memory from some address on. -/
abbrev Memory := Nat → Byte

section Memory

variable {mem mem' : Memory} {off len i : Nat} {bytes : List Byte}

def load (mem : Memory) (off len : Nat) : List Byte := (List.range' off len).map mem

def store (mem : Memory) (off : Nat) (bytes : List Byte) : Memory :=
  fun i => if i < off then mem i else (bytes[i - off]?).getD (mem i)

@[simp] theorem length_load (mem : Memory) (off len : Nat) : (load mem off len).length = len := by
  rw [load, List.length_map, List.length_range']

theorem getElem?_load (lt : i < len) (mem : Memory) (off : Nat) :
    (load mem off len)[i]? = some (mem (off + i)) := by
  rw [load, List.getElem?_map, List.getElem?_range' lt, Nat.one_mul]
  rfl

theorem load_add (mem : Memory) (off len len' : Nat) :
    load mem off (len + len') = load mem off len ++ load mem (off + len) len' := by
  rw [load, load, load, ← List.map_append, List.range'_append_1]

theorem load_eq_load :
    load mem off len = load mem' off len ↔ ∀ i, off ≤ i → i < off + len → mem i = mem' i := by
  simp only [load, List.map_inj_left, List.mem_range'_1, and_imp]

theorem store_of_lt (lt : i < off) : store mem off bytes i = mem i := if_pos lt

theorem store_of_ge (le : off + bytes.length ≤ i) : store mem off bytes i = mem i := by
  rw [store, if_neg (by omega), List.getElem?_eq_none (by omega)]
  rfl

/-- What is stored can be loaded again. -/
theorem load_store_self (mem : Memory) (off : Nat) (bytes : List Byte) :
    load (store mem off bytes) off bytes.length = bytes := by
  refine List.ext_getElem (length_load _ _ _) fun i _ lt => ?_
  simp only [load, List.getElem_map, List.getElem_range', store]
  rw [if_neg (by omega), Nat.one_mul, Nat.add_sub_cancel_left, List.getElem?_eq_getElem lt]
  rfl

theorem load_store_load (mem mem' : Memory) (off len : Nat) :
    load (store mem off (load mem' off len)) off len = load mem' off len := by
  have same := load_store_self mem off (load mem' off len)
  rwa [length_load] at same

/-- Nothing before the place of a store changes. -/
theorem load_store_before (mem : Memory) (bytes : List Byte) (le : i + len ≤ off) :
    load (store mem off bytes) i len = load mem i len := by
  rw [load_eq_load]
  intro j _ lt
  exact store_of_lt (by omega)

/-- A `uint16_t` or an `int16_t`. -/
def uint16 (mem : Memory) (off : Nat) : BitVec 16 := mem (off + 1) ++ mem off

end Memory

/-! ## Messages -/

structure MessageHeader where
  sMagic : BitVec 16
  sPayloadLen : BitVec 16
  sType : BitVec 16
  sLocalTime : BitVec 16
  deriving DecidableEq

/-- `sizeof(MessageHeader)`. -/
def headerSize : Nat := 8

def maxMessageLen : Nat := 4096

def maxPayloadLen : Nat := maxMessageLen - headerSize

/-- A `Message`, byte by byte. -/
abbrev Message := Memory

namespace Message

variable {msg msg' : Message}

def header (msg : Message) : MessageHeader where
  sMagic := uint16 msg 0
  sPayloadLen := uint16 msg 2
  sType := uint16 msg 4
  sLocalTime := uint16 msg 6

def payloadLen (msg : Message) : Nat := (header msg).sPayloadLen.toNat

def payload (msg : Message) (i : Nat) : Byte := msg (headerSize + i)

/-- The bytes that `send` writes. -/
def wire (msg : Message) : List Byte := load msg 0 (headerSize + payloadLen msg)

/-- The same header, and the same payload as far as the header says. -/
structure Same (msg msg' : Message) : Prop where
  header : header msg = header msg'
  payload : ∀ i < payloadLen msg', payload msg i = payload msg' i

theorem wire_eq (msg : Message) :
    wire msg = load msg 0 headerSize ++ load msg headerSize (payloadLen msg) := by
  rw [wire, load_add, Nat.zero_add]

/-- The header is in the first bytes. -/
theorem header_of_load (eq : load msg 0 headerSize = load msg' 0 headerSize) :
    header msg = header msg' := by
  have byte (i : Nat) (lt : i < headerSize) : msg i = msg' i :=
    load_eq_load.mp eq i (Nat.zero_le i) (by omega)
  have field (off : Nat) (lt : off + 1 < headerSize) : uint16 msg off = uint16 msg' off := by
    rw [uint16, uint16, byte off (Nat.lt_of_succ_lt lt), byte (off + 1) lt]
  rw [header, header, field 0 (by decide), field 2 (by decide), field 4 (by decide),
    field 6 (by decide)]

theorem payloadLen_of_load (eq : load msg 0 headerSize = load msg' 0 headerSize) :
    payloadLen msg = payloadLen msg' := by
  rw [payloadLen, payloadLen, header_of_load eq]

theorem same_of_load (head : load msg 0 headerSize = load msg' 0 headerSize)
    (rest : load msg headerSize (payloadLen msg') = load msg' headerSize (payloadLen msg')) :
    Same msg msg' := by
  refine ⟨header_of_load head, fun i lt => ?_⟩
  exact load_eq_load.mp rest (headerSize + i) (Nat.le_add_right _ _) (Nat.add_lt_add_left lt _)

end Message

end Distra.Ipc
