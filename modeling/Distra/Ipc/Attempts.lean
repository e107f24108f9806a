import Distra.Ipc.Reads

/-!
# Receives that fail

`receive` fails when it finds nothing, and is called again. It also fails when it finds a header
without its payload, and the header is lost then. An error of `read` loses whatever has been read.
-/

namespace Distra.Ipc

open Distra.Ipc.Message

section Failures

variable {call call' : ReceiveCall} {msg msg' buf : Message} {result : ReadResult}
  {results : List ReadResult} {stream rest : List Byte} {s s' : Reading ReceiveCall} {n : Nat}
  {err : Int}

/-- After `n` bytes, the last read finds nothing where the payload begins, or fails with some bytes
lost. -/
def GivesUp (n : Nat) (results : List ReadResult) : Prop :=
  ∃ before last, results = before ++ [last] ∧
    (last = .again ∧ n + (pieces before).length = headerSize ∨
      last = .error ∧ 0 < n + (pieces before).length)

theorem not_givesUp_nil (n : Nat) : ¬GivesUp n [] := by
  rintro ⟨before, last, eq, -⟩
  cases before <;> cases eq

theorem givesUp_single :
    GivesUp n [result] ↔ result = .again ∧ n = headerSize ∨ result = .error ∧ 0 < n := by
  constructor
  · rintro ⟨before, last, eq, lost⟩
    cases before with
    | nil =>
      cases eq
      exact lost
    | cons _ before => cases before <;> cases eq
  · exact fun lost => ⟨[], result, rfl, lost⟩

theorem givesUp_cons (more : results ≠ []) :
    GivesUp n (result :: results) ↔ GivesUp (n + result.piece.length) results := by
  constructor
  · rintro ⟨before, last, eq, lost⟩
    cases before with
    | nil =>
      cases eq
      exact absurd rfl more
    | cons first before =>
      obtain ⟨rfl, rfl⟩ := List.cons.inj eq
      refine ⟨before, last, rfl, ?_⟩
      rwa [Nat.add_assoc, ← List.length_append, ← pieces_cons]
  · rintro ⟨before, last, rfl, lost⟩
    refine ⟨result :: before, last, rfl, ?_⟩
    rwa [pieces_cons, List.length_append, ← Nat.add_assoc]

/-- `receive` has read `n` bytes of its message. -/
def HasRead (n : Nat) : Progress ReceiveCall → Prop
  | .goesOn (.header call) =>
    call.len = headerSize ∧ call.totalRead < call.len ∧ n = call.totalRead
  | .goesOn (.payload call) => call.totalRead < call.len ∧ n = headerSize + call.totalRead
  | .returns _ => True

theorem hasRead_receive (msg : Message) : HasRead 0 (receive msg) := ⟨rfl, Nat.succ_pos _, rfl⟩

theorem hasRead_receivePayload (msg : Message) : HasRead headerSize (receivePayload msg) := by
  rcases Nat.eq_zero_or_pos (payloadLen msg) with empty | pos
  · rw [receivePayload_empty empty]
    trivial
  · rw [receivePayload_pos pos]
    exact ⟨pos, rfl⟩

theorem receivePayload_err (msg : Message) :
    (∃ call, receivePayload msg = .goesOn call) ∨ receivePayload msg = .returns 0 := by
  rcases Nat.eq_zero_or_pos (payloadLen msg) with empty | pos
  · exact .inr (receivePayload_empty empty)
  · exact .inl ⟨_, receivePayload_pos pos⟩

/-- What `receive` does with the result of a read, after `n` bytes. -/
inductive ReceiveStep (n : Nat) : ReadResult → Progress ReceiveCall → Prop
  | goesOn {r next} : HasRead (n + r.piece.length) (.goesOn next) →
      ReceiveStep n r (.goesOn next)
  | last {piece} : ReceiveStep n (.bytes piece) (.returns 0)
  | empty : n = 0 ∨ n = headerSize → ReceiveStep n .again (.returns ipcErrNonblockEmpty)
  | error : ReceiveStep n .error (.returns (-1))

theorem receive_step (h : HasRead n (.goesOn call))
    (le : result.piece.length ≤ receiver.count call) (msg : Message) :
    ReceiveStep n result (receiver.body call msg result).1 := by
  cases call with
  | header call =>
    obtain ⟨len, lt, rfl⟩ := h
    have step := ReadCall.body_step lt le msg
    change ReceiveStep _ _ ((call.body msg result).1.within .header
      (receivePayload (call.body msg result).2))
    generalize call.body msg result = after at step
    cases step with
    | more lt => exact .goesOn ⟨len, lt, rfl⟩
    | @last piece eq =>
      change ReceiveStep _ _ (receivePayload (store msg call.buf piece))
      have read := hasRead_receivePayload (store msg call.buf piece)
      rcases receivePayload_err (store msg call.buf piece) with ⟨call', goesOn⟩ | returns
      · rw [goesOn] at read ⊢
        refine .goesOn ?_
        rwa [ReadResult.piece, eq, len]
      · rw [returns]
        exact .last
    | retry some_ => exact .goesOn ⟨len, lt, rfl⟩
    | empty none_ => exact .empty (.inl none_)
    | error => exact .error
  | payload call =>
    obtain ⟨lt, rfl⟩ := h
    have step := ReadCall.body_step lt le msg
    change ReceiveStep _ _ ((call.body msg result).1.within .payload (.returns 0))
    generalize call.body msg result = after at step
    cases step with
    | more lt => exact .goesOn ⟨lt, Nat.add_assoc _ _ _⟩
    | last => exact .last
    | retry some_ => exact .goesOn ⟨lt, rfl⟩
    | empty none_ => exact .empty (.inr (congrArg (headerSize + ·) none_))
    | error => exact .error

/-- The last read gives up after some bytes if and only if a receive fails with these lost. -/
theorem givesUp_iff (run : receiver.Run s results s') (read : HasRead n s.progress)
    (returns : s'.progress = .returns err) :
    GivesUp n results ↔ results ≠ [] ∧ err ≠ 0 ∧ 0 < n + (pieces results).length := by
  induction run generalizing n with
  | returns => exact ⟨fun h => absurd h (not_givesUp_nil n), fun h => absurd rfl h.1⟩
  | @read call msg stream result _ more _ delivers run ih =>
    have step := receive_step read delivers.le msg
    generalize receiver.body call msg result = after at step run ih
    obtain ⟨progress, msg'⟩ := after
    dsimp only at step run ih
    cases step with
    | goesOn read =>
      have some_ : more ≠ [] := by
        rintro rfl
        cases run
      rw [givesUp_cons some_, ih read returns, pieces_cons, List.length_append, Nat.add_assoc]
      exact and_congr_left fun _ => iff_of_true some_ (List.cons_ne_nil _ _)
    | last =>
      obtain ⟨rfl, rfl⟩ := run.eq_of_returns rfl
      cases returns
      rw [givesUp_single]
      simp
    | empty none_ =>
      obtain ⟨rfl, rfl⟩ := run.eq_of_returns rfl
      cases returns
      rw [givesUp_single]
      have nonzero : ipcErrNonblockEmpty ≠ 0 := by decide
      have pos : 0 < headerSize := Nat.succ_pos _
      simp [ReadResult.piece, nonzero]
      omega
    | error =>
      obtain ⟨rfl, rfl⟩ := run.eq_of_returns rfl
      cases returns
      rw [givesUp_single]
      simp [ReadResult.piece]

/-- A receive that fails has left the stream as it was, unless its last read gives up after some
bytes. -/
theorem failed_intact_iff
    (run : receiver.Run ⟨receive buf, buf, stream⟩ results ⟨.returns err, msg, rest⟩) :
    (err ≠ 0 → rest = stream) ↔ ¬GivesUp 0 results := by
  have taken : stream = pieces results ++ rest := run.stream_eq
  have kept : rest = stream ↔ pieces results = [] := by rw [taken, List.self_eq_append_left]
  rw [givesUp_iff run (hasRead_receive buf) rfl, kept, Nat.zero_add, List.length_pos_iff]
  constructor
  · exact fun intact lost => lost.2.2 (intact lost.2.1)
  · intro notLost fails
    by_contra some_
    refine notLost ⟨?_, fails, some_⟩
    rintro rfl
    exact some_ rfl

end Failures

/-! ## Receives one after the other -/

structure Attempt where
  buf : Message
  results : List ReadResult
  err : Int
  msg : Message

/-- Receives one after the other, with the bytes to come before and after them. -/
inductive Attempts : List Byte → List Attempt → List Byte → Prop
  | nil {stream} : Attempts stream [] stream
  | cons {a stream stream' as rest} :
      receiver.Run ⟨receive a.buf, a.buf, stream⟩ a.results ⟨.returns a.err, a.msg, stream'⟩ →
      Attempts stream' as rest → Attempts stream (a :: as) rest

/-- The messages of the receives that have returned 0. -/
def Attempt.received (as : List Attempt) : List Message :=
  as.filterMap fun a => if a.err = 0 then some a.msg else none

theorem Attempt.received_cons (a : Attempt) (as : List Attempt) :
    received (a :: as) = (if a.err = 0 then [a.msg] else []) ++ received as := by
  rw [received, received, List.filterMap_cons]
  by_cases returned : a.err = 0
  · rw [if_pos returned, if_pos returned]
    rfl
  · rw [if_neg returned, if_neg returned]
    rfl

/-- The first read returns the header and the second one the payload, or the first one fails. -/
def Undivided (results : List ReadResult) : Prop :=
  ∀ header more, results = .bytes header :: more →
    header.length = headerSize ∧ (more = [] ∨ ∃ payload, more = [.bytes payload])

section Attempts

variable {buf msg m : Message} {header : List Byte} {results : List ReadResult}
  {stream rest : List Byte} {queued sent : List Message} {err : Int} {as : List Attempt}

/-- The first bytes of a queue of messages. -/
theorem header_of_queue (len : header.length = headerSize)
    (eq : queued.flatMap wire = header ++ rest) :
    ∃ m queued', queued = m :: queued' ∧ header = load m 0 headerSize ∧
      rest = load m headerSize (payloadLen m) ++ queued'.flatMap wire := by
  cases queued with
  | nil =>
    have empty := List.append_eq_nil_iff.mp eq.symm
    rw [empty.1] at len
    cases len
  | cons m queued =>
    rw [List.flatMap_cons, wire_eq, List.append_assoc] at eq
    obtain ⟨head, tail⟩ := List.append_inj eq ((length_load _ _ _).trans len.symm)
    exact ⟨m, queued, rfl, head.symm, tail.symm⟩

/-- The payload in one piece. -/
theorem payload_run {payload : List Byte} (pos : 0 < payloadLen m)
    (run : receiver.Run ⟨.goesOn (.payload ⟨headerSize, payloadLen m, 0⟩), buf, stream⟩
      [.bytes payload] ⟨.returns err, msg, rest⟩) :
    err = 0 ∧ payload.length = payloadLen m ∧ stream = payload ++ rest ∧
      msg = store buf headerSize payload := by
  cases run with
  | @read _ _ _ _ stream' _ _ delivers run =>
    have step : ReadCall.Step ⟨headerSize, payloadLen m, 0⟩ buf (.bytes payload)
        (ReadCall.body ⟨headerSize, payloadLen m, 0⟩ buf (.bytes payload)) :=
      ReadCall.body_step pos delivers.le buf
    have stream_eq := delivers.stream_eq
    change receiver.Run
      ⟨(ReadCall.body ⟨headerSize, payloadLen m, 0⟩ buf (.bytes payload)).1.within .payload
          (.returns 0),
        (ReadCall.body ⟨headerSize, payloadLen m, 0⟩ buf (.bytes payload)).2, stream'⟩ [] _ at run
    generalize ReadCall.body ⟨headerSize, payloadLen m, 0⟩ buf (.bytes payload) = after at step run
    cases step with
    | more => cases run
    | last eq =>
      cases run
      exact ⟨rfl, (Nat.zero_add _).symm.trans eq, stream_eq, rfl⟩

/-- One receive from a queue of messages takes the first one or none. -/
theorem Undivided.receive (undivided : Undivided results)
    (run : receiver.Run ⟨receive buf, buf, queued.flatMap wire⟩ results
      ⟨.returns err, msg, rest⟩) :
    (err ≠ 0 ∧ rest = queued.flatMap wire) ∨
      (err = 0 ∧ ∃ m queued', queued = m :: queued' ∧ Same msg m ∧
        rest = queued'.flatMap wire) := by
  have start : Ipc.receive buf = .goesOn (.header ⟨0, headerSize, 0⟩) := rfl
  rw [start] at run
  cases run with
  | @read _ _ _ result stream' more _ delivers run =>
    have stream_eq := delivers.stream_eq
    cases result with
    | again =>
      cases run
      exact .inl ⟨by decide, stream_eq.symm⟩
    | error =>
      cases run
      exact .inl ⟨by decide, stream_eq.symm⟩
    | bytes header =>
      obtain ⟨len, more⟩ := undivided header more rfl
      obtain ⟨m, queued, rfl, rfl, rfl⟩ := header_of_queue len stream_eq
      have head := load_store_load buf m 0 headerSize
      have same := payloadLen_of_load head
      have body : receiver.body (.header ⟨0, headerSize, 0⟩) buf
          (.bytes (load m 0 headerSize)) = _ := receive_header len buf
      rw [body] at run
      rcases Nat.eq_zero_or_pos (payloadLen m) with empty | pos
      · rw [receivePayload_empty (same.trans empty), empty] at run
        cases run
        refine .inr ⟨rfl, m, queued, rfl, same_of_load head ?_, rfl⟩
        rw [empty]
        rfl
      · rw [receivePayload_pos (same ▸ pos), same] at run
        rcases more with rfl | ⟨payload, rfl⟩
        · cases run
        · obtain ⟨rfl, len', stream_eq, rfl⟩ := payload_run pos run
          obtain ⟨rfl, rfl⟩ := List.append_inj stream_eq ((length_load _ _ _).trans len'.symm)
          refine .inr ⟨rfl, m, queued, rfl, same_of_load ?_ (load_store_load _ _ _ _), rfl⟩
          rw [load_store_before _ _ (Nat.zero_add headerSize).le, head]

/-- Undivided receives yield the messages in order. -/
theorem Attempts.inOrder (h : Attempts stream as rest) (sent_ : stream = sent.flatMap wire)
    (undivided : ∀ a ∈ as, Undivided a.results) :
    ∃ taken queued, sent = taken ++ queued ∧
      List.Forall₂ Same (Attempt.received as) taken ∧ rest = queued.flatMap wire := by
  induction h generalizing sent with
  | nil => exact ⟨[], sent, rfl, .nil, sent_⟩
  | @cons a stream stream' as rest run _ ih =>
    subst sent_
    obtain ⟨first, others⟩ := List.forall_mem_cons.mp undivided
    rcases first.receive run with ⟨fails, same⟩ | ⟨returned, m, queued, rfl, same, rfl⟩
    · obtain ⟨taken, queued, eq, received, left⟩ := ih same others
      refine ⟨taken, queued, eq, ?_, left⟩
      rwa [Attempt.received_cons, if_neg fails, List.nil_append]
    · obtain ⟨taken, queued, rfl, received, left⟩ := ih rfl others
      refine ⟨m :: taken, queued, rfl, ?_, left⟩
      rw [Attempt.received_cons, if_pos returned]
      exact .cons same received

end Attempts

/-- A receive that fails leaves the stream as it was if and only if it does not give up after some
bytes. When none is divided, the receives yield the messages in order. -/
theorem receive_intact_iff (stream : List Byte) :
    (∀ buf msg rest results err,
      receiver.Run ⟨receive buf, buf, stream⟩ results ⟨.returns err, msg, rest⟩ →
        ((err ≠ 0 → rest = stream) ↔ ¬GivesUp 0 results)) ∧
    ∀ sent as rest, stream = sent.flatMap wire → Attempts stream as rest →
      (∀ a ∈ as, Undivided a.results) →
        ∃ taken queued, sent = taken ++ queued ∧
          List.Forall₂ Same (Attempt.received as) taken ∧ rest = queued.flatMap wire :=
  ⟨fun _ _ _ _ _ run => failed_intact_iff run, fun _ _ _ eq run undivided =>
    run.inOrder eq undivided⟩

/-- A message with one byte of payload. -/
def oneByte : Message := fun i => if i = 2 then 1 else 0

theorem oneByte_header :
    Delivers headerSize (wire oneByte) (.bytes (load oneByte 0 headerSize)) [0] :=
  .bytes (header_ne_nil oneByte) (length_load _ _ _).le

/-- The first receive finds nothing and the second the message. Had the first got the header alone,
the header would be lost. -/
theorem receive_intact_oneByte :
    (([0] = wire oneByte ↔ ¬GivesUp 0 [.bytes (load oneByte 0 headerSize), .again]) ∧
      GivesUp 0 [.bytes (load oneByte 0 headerSize), .again]) ∧
    ∃ msg taken queued, [oneByte] = taken ++ queued ∧
      List.Forall₂ Same
        (Attempt.received [⟨oneByte, [.again], ipcErrNonblockEmpty, oneByte⟩,
          ⟨oneByte, [.bytes (load oneByte 0 headerSize), .bytes [0]], 0, msg⟩]) taken ∧
      [] = queued.flatMap wire := by
  have nothing : receiver.Run ⟨receive oneByte, oneByte, wire oneByte⟩ [.again]
      ⟨.returns ipcErrNonblockEmpty, oneByte, wire oneByte⟩ := .read .again .returns
  have header : receiver.Run ⟨receive oneByte, oneByte, wire oneByte⟩
      [.bytes (load oneByte 0 headerSize), .again]
      ⟨.returns ipcErrNonblockEmpty, store oneByte 0 (load oneByte 0 headerSize), [0]⟩ :=
    .read oneByte_header (.read .again .returns)
  have payload : receiver.Run
      ⟨.goesOn (.payload ⟨headerSize, 1, 0⟩), store oneByte 0 (load oneByte 0 headerSize), [0]⟩
      [.bytes [0]]
      ⟨.returns 0, store (store oneByte 0 (load oneByte 0 headerSize)) headerSize [0], []⟩ :=
    .read (.bytes (List.cons_ne_nil 0 []) le_rfl) .returns
  have whole : receiver.Run ⟨receive oneByte, oneByte, wire oneByte⟩
      [.bytes (load oneByte 0 headerSize), .bytes [0]]
      ⟨.returns 0, store (store oneByte 0 (load oneByte 0 headerSize)) headerSize [0], []⟩ :=
    .read oneByte_header payload
  have alone : wire oneByte = [oneByte].flatMap wire := (List.append_nil _).symm
  have lost := (receive_intact_iff _).1 _ _ _ _ _ header
  refine ⟨⟨?_, ?_⟩, _,
    (receive_intact_iff _).2 [oneByte] _ _ alone (.cons nothing (.cons whole .nil)) ?_⟩
  · rw [← lost]
    exact ⟨fun eq _ => eq, fun intact => intact (by decide)⟩
  · exact ⟨[_], _, rfl, .inl ⟨rfl, by decide⟩⟩
  · intro a mem header more eq
    rcases List.mem_cons.mp mem with rfl | mem
    · cases eq
    · obtain rfl := List.mem_singleton.mp mem
      cases eq
      exact ⟨length_load _ _ _, .inr ⟨_, rfl⟩⟩

/-- A header that comes without its payload is lost. -/
theorem receive_not_intact :
    ∃ msg, receiver.Run ⟨receive oneByte, oneByte, wire oneByte⟩
        [.bytes (load oneByte 0 headerSize), .again] ⟨.returns ipcErrNonblockEmpty, msg, [0]⟩ ∧
      wire oneByte ≠ [0] :=
  ⟨_, .read oneByte_header (.read .again .returns), by decide⟩

end Distra.Ipc
