import Distra.Ipc.Calls

/-!
# `ipc_read` and the pieces of a stream

A `read` may return any part of what it asks for. `ipc_read` counts the bytes of all pieces, and
puts every piece at the same place. So it takes the right number of bytes from the stream, and has
the right ones in the buffer if and only if they come in one piece.
-/

namespace Distra.Ipc

open Distra.Ipc.Message

/-- A call that makes one `read` after the other. -/
structure Reader (α : Type) where
  /-- The argument of the next `read`. -/
  count : α → Nat
  body : α → Message → ReadResult → Progress α × Message

def reader : Reader ReadCall := ⟨ReadCall.count, ReadCall.body⟩

def receiver : Reader ReceiveCall := ⟨fun call => call.readCall.count, ReceiveCall.body⟩

/-- What a `read` of up to `count` bytes may return, and what it leaves of the bytes to come. They
may have arrived up to any place, and the writer is still there. -/
inductive Delivers (count : Nat) : List Byte → ReadResult → List Byte → Prop
  | bytes {piece rest} : piece ≠ [] → piece.length ≤ count →
      Delivers count (piece ++ rest) (.bytes piece) rest
  | again {stream} : Delivers count stream .again stream
  | error {stream} : Delivers count stream .error stream

/-- A call between two reads, with its buffer and the bytes to come. -/
structure Reading (α : Type) where
  progress : Progress α
  msg : Message
  stream : List Byte

section Runs

variable {α : Type}

/-- The call runs until it returns, with these results of its reads. -/
inductive Reader.Run (R : Reader α) : Reading α → List ReadResult → Reading α → Prop
  | returns {err msg stream} :
      R.Run ⟨.returns err, msg, stream⟩ [] ⟨.returns err, msg, stream⟩
  | read {call msg stream result stream' results s'} :
      Delivers (R.count call) stream result stream' →
      R.Run ⟨(R.body call msg result).1, (R.body call msg result).2, stream'⟩ results s' →
      R.Run ⟨.goesOn call, msg, stream⟩ (result :: results) s'

def ReadResult.piece : ReadResult → List Byte
  | .bytes arrived => arrived
  | .again | .error => []

/-- The bytes that the reads have returned. -/
def pieces (results : List ReadResult) : List Byte := results.flatMap ReadResult.piece

@[simp] theorem pieces_nil : pieces [] = [] := rfl

@[simp] theorem pieces_cons (result : ReadResult) (results : List ReadResult) :
    pieces (result :: results) = result.piece ++ pieces results := rfl

variable {R : Reader α} {s s' : Reading α} {results : List ReadResult} {count : Nat}
  {stream rest : List Byte} {result : ReadResult}

theorem Delivers.stream_eq (h : Delivers count stream result rest) :
    stream = result.piece ++ rest := by
  cases h with
  | bytes => rfl
  | again | error => rfl

theorem Delivers.le (h : Delivers count stream result rest) : result.piece.length ≤ count := by
  cases h with
  | bytes _ le => exact le
  | again | error => exact Nat.zero_le _

/-- A call takes from the stream what its reads have returned. -/
theorem Reader.Run.stream_eq (run : R.Run s results s') :
    s.stream = pieces results ++ s'.stream := by
  induction run with
  | returns => rfl
  | read delivers _ ih =>
    rw [pieces_cons, List.append_assoc, ← ih]
    exact delivers.stream_eq

theorem Reader.Run.returned (run : R.Run s results s') : ∃ err, s'.progress = .returns err := by
  induction run with
  | returns => exact ⟨_, rfl⟩
  | read _ _ ih => exact ih

/-- After its return a call makes no more reads. -/
theorem Reader.Run.eq_of_returns (run : R.Run s results s') {err : Int}
    (returns : s.progress = .returns err) : results = [] ∧ s' = s := by
  cases run with
  | returns => exact ⟨rfl, rfl⟩
  | read => cases returns

end Runs

/-! ## The loop of `ipc_read` -/

/-- What `ipc_read` does with the result of a read, when some bytes are missing. -/
inductive ReadCall.Step (call : ReadCall) (msg : Message) :
    ReadResult → Progress ReadCall × Message → Prop
  | more {piece} : call.totalRead + piece.length < call.len →
      call.Step msg (.bytes piece)
        (.goesOn { call with totalRead := call.totalRead + piece.length },
          store msg call.buf piece)
  | last {piece} : call.totalRead + piece.length = call.len →
      call.Step msg (.bytes piece) (.returns 0, store msg call.buf piece)
  | retry : 0 < call.totalRead → call.Step msg .again (.goesOn call, msg)
  | empty : call.totalRead = 0 → call.Step msg .again (.returns ipcErrNonblockEmpty, msg)
  | error : call.Step msg .error (.returns (-1), msg)

section Loop

variable {call call' : ReadCall} {msg msg' : Message} {result : ReadResult}
  {results : List ReadResult} {stream rest : List Byte} {s s' : Reading ReadCall} {buf len : Nat}

theorem ReadCall.body_step (going : call.totalRead < call.len)
    (le : result.piece.length ≤ call.count) (msg : Message) :
    call.Step msg result (call.body msg result) := by
  cases result with
  | bytes piece =>
    have le : piece.length ≤ call.len - call.totalRead := le
    rw [ReadCall.body, ReadCall.loop]
    split
    next lt => exact .more lt
    next full =>
      have full : ¬call.totalRead + piece.length < call.len := full
      exact .last (by omega)
  | again =>
    rw [ReadCall.body, ReadCall.loop, if_pos going]
    split
    next some_ => exact .retry some_
    next none_ => exact .empty (Nat.eq_zero_of_not_pos none_)
  | error => exact .error

/-- The loop runs only while some bytes are missing. -/
def Looping (buf len : Nat) : Progress ReadCall → Prop
  | .goesOn call => call.buf = buf ∧ call.len = len ∧ call.totalRead < len
  | .returns _ => True

theorem looping_ipcRead (buf len : Nat) : Looping buf len (ipcRead buf len) := by
  rw [ipcRead, ReadCall.loop]
  split
  next lt => exact ⟨rfl, rfl, lt⟩
  next => trivial

theorem ReadCall.Step.looping {after : Progress ReadCall × Message}
    (h : call.Step msg result after) (loops : Looping buf len (.goesOn call)) :
    Looping buf len after.1 := by
  obtain ⟨rfl, rfl, lt⟩ := loops
  cases h with
  | more lt => exact ⟨rfl, rfl, lt⟩
  | retry => exact ⟨rfl, rfl, lt⟩
  | last | empty | error => trivial

/-- The bytes that `ipc_read` still waits for. -/
def wanted : Progress ReadCall → Nat
  | .goesOn call => call.count
  | .returns _ => 0

theorem wanted_ipcRead (buf len : Nat) : wanted (ipcRead buf len) = len := by
  rw [ipcRead, ReadCall.loop]
  split
  next => rfl
  next full => exact (Nat.eq_zero_of_not_pos full).symm

/-- A call that returns 0 has read what it wanted. -/
theorem length_pieces (run : reader.Run s results s') (loops : Looping buf len s.progress)
    (returned : s'.progress = .returns 0) : (pieces results).length = wanted s.progress := by
  induction run with
  | returns => rfl
  | @read call msg stream result _ results _ delivers run ih =>
    have step : call.Step msg result (reader.body call msg result) :=
      ReadCall.body_step (loops.2.1.symm ▸ loops.2.2) delivers.le msg
    have ih := ih (step.looping loops) returned
    rw [pieces_cons, List.length_append, ih]
    generalize reader.body call msg result = after at step run ih
    cases step with
    | more lt =>
      simp only [wanted, ReadCall.count, ReadResult.piece]
      omega
    | last eq =>
      simp only [wanted, ReadCall.count, ReadResult.piece]
      omega
    | retry => exact Nat.zero_add _
    | empty | error =>
      obtain ⟨-, rfl⟩ := run.eq_of_returns rfl
      cases returned

/-- Which reads the loop makes does not depend on what is in the buffer. -/
theorem ReadCall.body_progress (call : ReadCall) (msg msg' : Message) (result : ReadResult) :
    (call.body msg result).1 = (call.body msg' result).1 := by
  cases result with
  | bytes => rfl
  | again =>
    rw [ReadCall.body, ReadCall.body]
    split <;> rfl
  | error => rfl

theorem run_anyBuffer (run : reader.Run s results s') (msg : Message) :
    ∃ msg', reader.Run ⟨s.progress, msg, s.stream⟩ results ⟨s'.progress, msg', s'.stream⟩ := by
  induction run generalizing msg with
  | returns => exact ⟨msg, .returns⟩
  | @read call before _ result _ _ _ delivers _ ih =>
    obtain ⟨msg', run⟩ := ih (call.body msg result).2
    refine ⟨msg', .read delivers ?_⟩
    have same : (reader.body call before result).1 = (reader.body call msg result).1 :=
      call.body_progress before msg result
    rw [same] at run
    exact run

/-- After the first piece no read reaches the last byte of the buffer. -/
theorem run_untouched (run : reader.Run s results s') (loops : Looping buf len s.progress)
    (begun : ∀ call, s.progress = .goesOn call → 0 < call.totalRead) :
    s'.msg (buf + len - 1) = s.msg (buf + len - 1) := by
  induction run with
  | returns => rfl
  | @read call msg stream result _ results _ delivers run ih =>
    obtain ⟨rfl, rfl, lt⟩ := loops
    have begun : 0 < call.totalRead := begun call rfl
    have le := delivers.le
    have step : call.Step msg result (reader.body call msg result) :=
      ReadCall.body_step lt le msg
    have ih := ih (step.looping ⟨rfl, rfl, lt⟩)
    generalize reader.body call msg result = after at step run ih
    have short (piece : List Byte) (le : piece.length ≤ call.len - call.totalRead) :
        store msg call.buf piece (call.buf + call.len - 1) = msg (call.buf + call.len - 1) :=
      store_of_ge (by omega)
    cases step with
    | more =>
      refine (ih ?_).trans (short _ le)
      rintro _ ⟨⟩
      exact Nat.add_pos_left begun _
    | last => exact (ih nofun).trans (short _ le)
    | retry =>
      refine ih ?_
      rintro _ ⟨⟩
      exact begun
    | empty | error => exact ih nofun

/-- `ipc_read` wants nothing, or gets it in one piece, or in more than one. -/
theorem ipcRead_cases
    (run : reader.Run ⟨ipcRead buf len, msg, stream⟩ results ⟨.returns 0, msg', rest⟩) :
    (len = 0 ∧ results = []) ∨
      (∃ piece, piece.length = len ∧ stream = piece ++ rest ∧ results = [.bytes piece] ∧
        msg' = store msg buf piece) ∨
      ∃ piece more stream', results = .bytes piece :: more ∧ more ≠ [] ∧ 0 < piece.length ∧
        piece.length < len ∧
        reader.Run ⟨.goesOn ⟨buf, len, piece.length⟩, store msg buf piece, stream'⟩ more
          ⟨.returns 0, msg', rest⟩ := by
  rw [ipcRead, ReadCall.loop] at run
  split at run
  next pos =>
    cases run with
    | @read _ _ _ result stream' more _ delivers run =>
      have step : ReadCall.Step ⟨buf, len, 0⟩ msg result (reader.body ⟨buf, len, 0⟩ msg result) :=
        ReadCall.body_step pos delivers.le msg
      have stream_eq := delivers.stream_eq
      generalize reader.body ⟨buf, len, 0⟩ msg result = after at step run
      cases step with
      | @more piece lt =>
        rw [Nat.zero_add] at lt run
        refine .inr (.inr ⟨piece, more, stream', rfl, ?_, ?_, lt, run⟩)
        · rintro rfl
          cases run
        · cases delivers with
          | bytes some_ => exact List.length_pos_iff.mpr some_
      | @last piece eq =>
        rw [Nat.zero_add] at eq
        obtain ⟨rfl, same⟩ := run.eq_of_returns rfl
        cases same
        exact .inr (.inl ⟨piece, eq, stream_eq, rfl, rfl⟩)
      | retry some_ => exact absurd some_ (Nat.lt_irrefl 0)
      | empty | error =>
        have returned := run.eq_of_returns rfl
        cases returned.2
  next none_ =>
    obtain ⟨rfl, -⟩ := run.eq_of_returns rfl
    exact .inl ⟨Nat.eq_zero_of_not_pos none_, rfl⟩

/-- In more than one piece, `ipc_read` leaves the last byte as it was. -/
theorem last_untouched
    (run : reader.Run ⟨ipcRead buf len, msg, stream⟩ results ⟨.returns 0, msg', rest⟩)
    (split : 1 < results.length) : 0 < len ∧ msg' (buf + len - 1) = msg (buf + len - 1) := by
  rcases ipcRead_cases run with ⟨-, rfl⟩ | ⟨piece, -, -, rfl, -⟩ |
    ⟨piece, more, stream', rfl, -, pos, lt, run⟩
  · exact absurd split (by decide)
  · exact absurd split (Nat.lt_irrefl 1)
  · refine ⟨Nat.zero_lt_of_lt lt, ?_⟩
    have untouched : msg' (buf + len - 1) = store msg buf piece (buf + len - 1) :=
      run_untouched run ⟨rfl, rfl, lt⟩ (by rintro _ ⟨⟩; exact pos)
    exact untouched.trans (store_of_ge (by omega))

/-- The bytes are those of the stream, whatever has been in the buffer, if and only if they have
come in one piece. -/
theorem ipc_read_reassembles_iff (buf len : Nat) (msg msg' : Message) (stream rest : List Byte)
    (results : List ReadResult)
    (run : reader.Run ⟨ipcRead buf len, msg, stream⟩ results ⟨.returns 0, msg', rest⟩) :
    (len ≤ stream.length ∧ rest = stream.drop len) ∧
      ((∀ msg msg',
        reader.Run ⟨ipcRead buf len, msg, stream⟩ results ⟨.returns 0, msg', rest⟩ →
          load msg' buf len = stream.take len) ↔ results.length ≤ 1) := by
  have length := length_pieces run (looping_ipcRead buf len) rfl
  rw [wanted_ipcRead] at length
  have taken : stream = pieces results ++ rest := run.stream_eq
  refine ⟨⟨?_, ?_⟩, fun right => ?_, fun whole msg msg' run => ?_⟩
  · rw [taken, List.length_append, length]
    exact Nat.le_add_right _ _
  · rw [taken, ← length, List.drop_left]
  · by_contra split
    -- before the call, the last byte of the buffer is not the one that is to come
    obtain ⟨pos, -⟩ := last_untouched run (not_le.mp split)
    have lt : len - 1 < (pieces results).length := by omega
    obtain ⟨msg₁, run₁⟩ := run_anyBuffer run fun _ => (pieces results)[len - 1] + 1
    have untouched := (last_untouched run₁ (not_le.mp split)).2
    have last : msg₁ (buf + (len - 1)) = (pieces results)[len - 1] := by
      have take : stream.take len = pieces results := by rw [taken, ← length, List.take_left]
      rw [← Option.some_inj, ← getElem?_load (Nat.sub_lt pos Nat.one_pos), right _ _ run₁, take,
        List.getElem?_eq_getElem lt]
    rw [← Nat.add_sub_assoc pos, untouched] at last
    exact absurd last (by simp)
  · rcases ipcRead_cases run with ⟨rfl, -⟩ | ⟨piece, rfl, rfl, -, rfl⟩ |
      ⟨piece, more, stream', rfl, some_, -⟩
    · rfl
    · rw [load_store_self, List.take_left]
    · have pos := List.length_pos_iff.mpr some_
      rw [List.length_cons] at whole
      omega

theorem ipc_read_reassembles_onePiece :
    reader.Run ⟨ipcRead 0 2, fun _ => 0, [1, 2, 3]⟩ [.bytes [1, 2]]
        ⟨.returns 0, store (fun _ => 0) 0 [1, 2], [3]⟩ ∧
      load (store (fun _ => 0) 0 [1, 2]) 0 2 = [1, 2] := by
  have run : reader.Run ⟨ipcRead 0 2, fun _ => 0, [1, 2, 3]⟩ [.bytes [1, 2]]
      ⟨.returns 0, store (fun _ => 0) 0 [1, 2], [3]⟩ :=
    .read (.bytes (List.cons_ne_nil 1 [2]) le_rfl) .returns
  obtain ⟨-, right⟩ := ipc_read_reassembles_iff 0 2 _ _ _ _ _ run
  exact ⟨run, right.mpr le_rfl _ _ run⟩

/-- Two pieces of one byte each. The second one replaces the first. -/
theorem ipc_read_not_reassembled :
    ∃ msg', reader.Run ⟨ipcRead 0 2, fun _ => 0, [1, 2]⟩ [.bytes [1], .bytes [2]]
        ⟨.returns 0, msg', []⟩ ∧ load msg' 0 2 = [2, 0] := by
  have first : Delivers 2 [1, 2] (.bytes [1]) [2] :=
    .bytes (List.cons_ne_nil 1 []) (Nat.le_succ 1)
  have second : Delivers 1 [2] (.bytes [2]) [] := .bytes (List.cons_ne_nil 2 []) le_rfl
  exact ⟨_, .read first (.read second .returns), by decide⟩

end Loop

end Distra.Ipc
