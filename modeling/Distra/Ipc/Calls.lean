import Distra.Ipc.Packed

/-!
# `ipcio.c`: the calls between two system calls

`ipc_read` makes one `read` for each iteration of its loop, and `receive` is two calls of it. So a
`receive` under way is what is left of it when its next `read` returns.
-/

namespace Distra.Ipc

open Distra.Ipc.Message

/-- What a `read` returns. -/
inductive ReadResult where
  /-- The bytes that it has put into the buffer. There are none at the end of the file. -/
  | bytes (bytes : List Byte)
  /-- -1, and `errno` is `EAGAIN`. -/
  | again
  /-- -1, and `errno` is anything else. -/
  | error
  deriving DecidableEq

/-- `IPC_ERR_NONBLOCK_EMPTY`. -/
def ipcErrNonblockEmpty : Int := -128

/-- A call goes on to its next system call, or returns. -/
inductive Progress (α : Type) where
  | goesOn (call : α)
  | returns (err : Int)
  deriving DecidableEq

/-- The call is made within another one, which returns its errors and otherwise goes on. -/
def Progress.within {α β : Type} (p : Progress α) (wrap : α → β) (next : Progress β) :
    Progress β :=
  match p with
  | .goesOn call => .goesOn (wrap call)
  | .returns err => if err ≠ 0 then .returns err else next

/-! ## `ipc_read` -/

/-- The variables of `ipc_read`. The buffer is given by its place in the message. -/
structure ReadCall where
  buf : Nat
  len : Nat
  totalRead : Nat
  deriving DecidableEq

/-- The argument of the next `read`. -/
def ReadCall.count (call : ReadCall) : Nat := call.len - call.totalRead

/-- The condition of the loop. -/
def ReadCall.loop (call : ReadCall) : Progress ReadCall :=
  if call.totalRead < call.len then .goesOn call else .returns 0

def ipcRead (buf len : Nat) : Progress ReadCall := ReadCall.loop ⟨buf, len, 0⟩

/-- The body of the loop. -/
def ReadCall.body (call : ReadCall) (msg : Message) : ReadResult → Progress ReadCall × Message
  | .bytes bytes =>
    (ReadCall.loop { call with totalRead := call.totalRead + bytes.length },
      store msg call.buf bytes)
  | .again =>
    if call.totalRead > 0 then (call.loop, msg) else (.returns ipcErrNonblockEmpty, msg)
  | .error => (.returns (-1), msg)

/-! ## `receive` -/

/-- The call of `ipc_read` that `receive` is in. -/
inductive ReceiveCall where
  | header (call : ReadCall)
  | payload (call : ReadCall)
  deriving DecidableEq

def ReceiveCall.readCall : ReceiveCall → ReadCall
  | .header call | .payload call => call

/-- The second half of `receive`. -/
def receivePayload (msg : Message) : Progress ReceiveCall :=
  (ipcRead headerSize (payloadLen msg)).within .payload (.returns 0)

def receive (msg : Message) : Progress ReceiveCall :=
  (ipcRead 0 headerSize).within .header (receivePayload msg)

/-- `receive`, from the result of one `read` to the next one. -/
def ReceiveCall.body (call : ReceiveCall) (msg : Message) (result : ReadResult) :
    Progress ReceiveCall × Message :=
  match call with
  | .header call =>
    let (progress, msg) := call.body msg result
    (progress.within .header (receivePayload msg), msg)
  | .payload call =>
    let (progress, msg) := call.body msg result
    (progress.within .payload (.returns 0), msg)

/-! ## `send` -/

/-- `ipc_write`, when `write` has returned `written`. -/
def ipcWrite (len : Nat) (written : Int) : Int := if written ≠ len then 1 else 0

/-- `send`, whose `write` gets the bytes of the message. -/
def send (msg : Message) (written : Int) : Int := ipcWrite (wire msg).length written

/-! ## Reads of a whole piece -/

section Reads

variable {msg : Message} {bytes : List Byte}

theorem header_ne_nil (msg : Message) : load msg 0 headerSize ≠ [] := by
  intro empty
  have len := congrArg List.length empty
  rw [length_load] at len
  cases len

/-- A `read` that returns all that `ipc_read` wants. -/
theorem ReadCall.body_all (buf : Nat) (msg : Message) (bytes : List Byte) :
    ReadCall.body ⟨buf, bytes.length, 0⟩ msg (.bytes bytes) =
      (.returns 0, store msg buf bytes) := by
  simp only [ReadCall.body, ReadCall.loop, Nat.zero_add, Nat.lt_irrefl, if_false]

theorem receivePayload_empty (empty : payloadLen msg = 0) : receivePayload msg = .returns 0 := by
  rw [receivePayload, empty]
  rfl

theorem receivePayload_pos (pos : 0 < payloadLen msg) :
    receivePayload msg = .goesOn (.payload ⟨headerSize, payloadLen msg, 0⟩) := by
  rw [receivePayload, ipcRead, ReadCall.loop, if_pos pos]
  rfl

theorem receive_header (len : bytes.length = headerSize) (msg : Message) :
    ReceiveCall.body (.header ⟨0, headerSize, 0⟩) msg (.bytes bytes) =
      (receivePayload (store msg 0 bytes), store msg 0 bytes) := by
  rw [ReceiveCall.body, ← len, ReadCall.body_all]
  rfl

theorem receive_payload (msg : Message) (bytes : List Byte) :
    ReceiveCall.body (.payload ⟨headerSize, bytes.length, 0⟩) msg (.bytes bytes) =
      (.returns 0, store msg headerSize bytes) := by
  rw [ReceiveCall.body, ReadCall.body_all]
  rfl

end Reads

end Distra.Ipc
