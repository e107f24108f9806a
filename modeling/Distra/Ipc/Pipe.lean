import Distra.Ipc.Calls

/-!
# A pipe between two processes

A non-blocking pipe is a queue of bytes. One process sends through it and the other one receives,
system call by system call, in any interleaving. What the two see is a queue of messages.
-/

namespace Distra.Ipc

open Distra.Ipc.Message

/-- A write of at most `PIPE_BUF` bytes to a pipe that holds at most `capacity` bytes. -/
inductive Writes (capacity : Nat) (queue bytes : List Byte) : Int → List Byte → Prop
  | all : queue.length + bytes.length ≤ capacity →
      Writes capacity queue bytes bytes.length (queue ++ bytes)
  | nothing : Writes capacity queue bytes (-1) queue

/-- A read of up to `count` bytes, with what it leaves. -/
def pipeRead (queue : List Byte) (count : Nat) : ReadResult × List Byte :=
  if queue = [] then (.again, []) else (.bytes (queue.take count), queue.drop count)

structure PipeState where
  queue : List Byte
  /-- The receive under way, and its buffer. -/
  receiving : Option (ReceiveCall × Message)

/-- An empty pipe. -/
def PipeState.initial : PipeState := ⟨[], none⟩

inductive PipeEvent where
  /-- A `send` that has returned `err`. -/
  | send (msg : Message) (err : Int)
  /-- A `read` after which `receive` goes on. -/
  | read
  /-- A `read` after which `receive` returns `err`. -/
  | receive (msg : Message) (err : Int)

/-- The receive to which the next `read` belongs. A new one may be given any buffer. -/
inductive PipeState.Calls (s : PipeState) : ReceiveCall → Message → Prop
  | starts {call msg} : s.receiving = none → receive msg = .goesOn call → s.Calls call msg
  | goesOn {call msg} : s.receiving = some (call, msg) → s.Calls call msg

/-- After a `read`, `receive` goes on to the next one or returns. -/
def PipeState.after (queue : List Byte) : Progress ReceiveCall × Message → PipeEvent × PipeState
  | (.goesOn call, msg) => (.read, ⟨queue, some (call, msg)⟩)
  | (.returns err, msg) => (.receive msg err, ⟨queue, none⟩)

/-- The next `read`, and what `receive` does with it. -/
def PipeState.read (s : PipeState) (call : ReceiveCall) (msg : Message) : PipeEvent × PipeState :=
  let (result, queue) := pipeRead s.queue call.readCall.count
  PipeState.after queue (call.body msg result)

inductive PipeStep (capacity : Nat) (s : PipeState) : PipeEvent → PipeState → Prop
  | send {msg written queue} : payloadLen msg ≤ maxPayloadLen →
      Writes capacity s.queue (wire msg) written queue →
      PipeStep capacity s (.send msg (send msg written)) { s with queue := queue }
  | read {call msg} : s.Calls call msg → PipeStep capacity s (s.read call msg).1 (s.read call msg).2

structure PipeTransition where
  before : PipeState
  event : PipeEvent
  after : PipeState

/-- Finite runs of a writer and a reader. -/
inductive PipeRun (capacity : Nat) : List PipeTransition → PipeState → Prop
  | nil : PipeRun capacity [] .initial
  | snoc {ts s e s'} : PipeRun capacity ts s → PipeStep capacity s e s' →
      PipeRun capacity (ts ++ [⟨s, e, s'⟩]) s'

/-- The message of a `send` that has returned 0. -/
def PipeEvent.accepted : PipeEvent → Option Message
  | .send msg err => if err = 0 then some msg else none
  | _ => none

/-- The message of a `receive` that has returned 0. -/
def PipeEvent.received : PipeEvent → Option Message
  | .receive msg err => if err = 0 then some msg else none
  | _ => none

def accepted (ts : List PipeTransition) : List Message := ts.filterMap (·.event.accepted)

def received (ts : List PipeTransition) : List Message := ts.filterMap (·.event.received)

theorem accepted_snoc (ts : List PipeTransition) (t : PipeTransition) :
    accepted (ts ++ [t]) = accepted ts ++ t.event.accepted.toList := by
  rw [accepted, accepted, List.filterMap_append]
  cases h : t.event.accepted <;> simp [h]

theorem received_snoc (ts : List PipeTransition) (t : PipeTransition) :
    received (ts ++ [t]) = received ts ++ t.event.received.toList := by
  rw [received, received, List.filterMap_append]
  cases h : t.event.received <;> simp [h]

/-! ## The queue of messages -/

/-- The pipe holds these messages. The first of them may have lost its header to the receive under
way. -/
inductive Holds : PipeState → List Message → Prop
  | whole {queued} : Holds ⟨queued.flatMap wire, none⟩ queued
  | payload {msg buf queued} : 0 < payloadLen msg → load buf 0 headerSize = load msg 0 headerSize →
      Holds ⟨load msg headerSize (payloadLen msg) ++ queued.flatMap wire,
        some (.payload ⟨headerSize, payloadLen msg, 0⟩, buf)⟩ (msg :: queued)

theorem Holds.enqueue {s : PipeState} {queued : List Message} (h : Holds s queued)
    (msg : Message) : Holds { s with queue := s.queue ++ wire msg } (queued ++ [msg]) := by
  have snoc (queued : List Message) :
      queued.flatMap wire ++ wire msg = (queued ++ [msg]).flatMap wire := by
    rw [List.flatMap_append, List.flatMap_singleton]
  cases h with
  | whole =>
    rw [snoc]
    exact .whole
  | payload pos head =>
    rw [List.append_assoc, snoc]
    exact .payload pos head

theorem pipeRead_append {bytes : List Byte} (some_ : bytes ≠ []) (rest : List Byte) :
    pipeRead (bytes ++ rest) bytes.length = (.bytes bytes, rest) := by
  rw [pipeRead, if_neg fun empty => some_ (List.append_eq_nil_iff.mp empty).1, List.take_left,
    List.drop_left]

/-- What one read does to a queue of messages. -/
inductive Reads (queued : List Message) : PipeEvent → List Message → Prop
  /-- The receive has found nothing. -/
  | empty {msg} : queued = [] → Reads queued (.receive msg ipcErrNonblockEmpty) queued
  | header : queued ≠ [] → Reads queued .read queued
  | message {msg msg' queued'} : queued = msg' :: queued' → Same msg msg' →
      Reads queued (.receive msg 0) queued'

section Read

variable {s : PipeState} {queued : List Message} {call : ReceiveCall} {msg msg' buf : Message}

/-- The header of a message. -/
theorem read_header (msg buf : Message) (queued : List Message) :
    (⟨(msg :: queued).flatMap wire, none⟩ : PipeState).read (.header ⟨0, headerSize, 0⟩) buf =
      PipeState.after (load msg headerSize (payloadLen msg) ++ queued.flatMap wire)
        (receivePayload (store buf 0 (load msg 0 headerSize)),
          store buf 0 (load msg 0 headerSize)) := by
  have count : (ReceiveCall.header ⟨0, headerSize, 0⟩).readCall.count =
      (load msg 0 headerSize).length := (length_load _ _ _).symm
  rw [PipeState.read, count, List.flatMap_cons, wire_eq, List.append_assoc,
    pipeRead_append (header_ne_nil msg)]
  dsimp only
  rw [receive_header (length_load _ _ _)]

/-- The payload of a message. -/
theorem read_payload (pos : 0 < payloadLen msg) (buf : Message) (queued : List Message)
    (receiving : Option (ReceiveCall × Message)) :
    (⟨load msg headerSize (payloadLen msg) ++ queued.flatMap wire, receiving⟩ : PipeState).read
        (.payload ⟨headerSize, payloadLen msg, 0⟩) buf =
      (.receive (store buf headerSize (load msg headerSize (payloadLen msg))) 0,
        ⟨queued.flatMap wire, none⟩) := by
  have len : payloadLen msg = (load msg headerSize (payloadLen msg)).length :=
    (length_load _ _ _).symm
  have some_ : load msg headerSize (payloadLen msg) ≠ [] := by
    intro empty
    rw [empty] at len
    exact absurd len (Nat.ne_of_gt pos)
  have count : (ReceiveCall.payload ⟨headerSize, payloadLen msg, 0⟩).readCall.count =
      (load msg headerSize (payloadLen msg)).length := len
  have body := receive_payload buf (load msg headerSize (payloadLen msg))
  rw [length_load] at body
  rw [PipeState.read, count, pipeRead_append some_]
  dsimp only
  rw [body]
  rfl

/-- A read from a queue of messages. The second read of a receive is its last one. -/
theorem Holds.read (h : Holds s queued) (calls : s.Calls call buf) :
    ∃ queued', Reads queued (s.read call buf).1 queued' ∧ Holds (s.read call buf).2 queued' ∧
      (s.receiving ≠ none → (s.read call buf).1 ≠ .read) := by
  cases h with
  | whole =>
    obtain rfl : call = .header ⟨0, headerSize, 0⟩ := by
      cases calls with
      | starts _ starts => exact (Progress.goesOn.inj starts).symm
      | goesOn busy => cases busy
    cases queued with
    | nil => exact ⟨[], .empty rfl, @Holds.whole [], fun busy => absurd rfl busy⟩
    | cons msg queued =>
      have head := load_store_load buf msg 0 headerSize
      have len := payloadLen_of_load head
      rw [read_header]
      rcases Nat.eq_zero_or_pos (payloadLen msg) with empty | pos
      · rw [receivePayload_empty (len.trans empty), empty]
        refine ⟨queued, .message rfl (same_of_load head ?_), .whole, fun busy => absurd rfl busy⟩
        rw [empty]
        rfl
      · rw [receivePayload_pos (len ▸ pos), len]
        exact ⟨msg :: queued, .header nofun, .payload pos head, fun busy => absurd rfl busy⟩
  | @payload msg buf' queued pos head =>
    obtain ⟨rfl, rfl⟩ : call = .payload ⟨headerSize, payloadLen msg, 0⟩ ∧ buf = buf' := by
      cases calls with
      | starts idle => cases idle
      | goesOn busy =>
        obtain ⟨rfl, rfl⟩ := Prod.mk.inj (Option.some.inj busy)
        exact ⟨rfl, rfl⟩
    rw [read_payload pos]
    refine ⟨queued, .message rfl (same_of_load ?_ ?_), .whole, nofun⟩
    · rw [load_store_before _ _ (Nat.zero_add headerSize).le, head]
    · exact load_store_load buf msg headerSize (payloadLen msg)

end Read

/-! ## Runs -/

section Runs

variable {capacity : Nat} {s s' : PipeState} {e : PipeEvent} {ts : List PipeTransition}

/-- The messages that have been accepted are those that have been received and those that the pipe
holds. -/
structure Fifo (ts : List PipeTransition) (s : PipeState) (taken queued : List Message) : Prop where
  accepts : accepted ts = taken ++ queued
  receives : List.Forall₂ Same (received ts) taken
  holds : Holds s queued

theorem accepted_all (msg : Message) :
    (PipeEvent.send msg (send msg (wire msg).length)).accepted = some msg :=
  if_pos (if_neg fun ne => ne rfl)

theorem send_nothing (msg : Message) : send msg (-1) = 1 := by
  rw [send, ipcWrite, if_pos]
  omega

theorem accepted_nothing (msg : Message) :
    (PipeEvent.send msg (send msg (-1))).accepted = none := by
  rw [send_nothing]
  rfl

/-- A receive takes the first message of the queue, or none. -/
theorem Reads.taken {queued queued' : List Message} (h : Reads queued e queued') :
    e.accepted = none ∧
      ∃ got, queued = got ++ queued' ∧ List.Forall₂ Same e.received.toList got := by
  cases h with
  | empty => exact ⟨rfl, [], rfl, .nil⟩
  | header => exact ⟨rfl, [], rfl, .nil⟩
  | @message _ msg' _ eq same => exact ⟨rfl, [msg'], eq, .cons same .nil⟩

theorem Fifo.step {taken queued : List Message} (h : Fifo ts s taken queued)
    (step : PipeStep capacity s e s') :
    ∃ taken' queued', Fifo (ts ++ [⟨s, e, s'⟩]) s' taken' queued' := by
  cases step with
  | @send msg _ _ _ writes =>
    have receives (err : Int) (after : PipeState) :
        List.Forall₂ Same (received (ts ++ [⟨s, .send msg err, after⟩])) taken := by
      rw [received_snoc]
      exact (List.append_nil (received ts)).symm ▸ h.receives
    cases writes with
    | all =>
      refine ⟨taken, queued ++ [msg], ?_, receives _ _, h.holds.enqueue msg⟩
      rw [accepted_snoc, accepted_all, h.accepts, List.append_assoc]
      rfl
    | nothing =>
      refine ⟨taken, queued, ?_, receives _ _, h.holds⟩
      rw [accepted_snoc, accepted_nothing, h.accepts]
      exact List.append_nil _
  | read calls =>
    obtain ⟨queued', reads, holds, -⟩ := h.holds.read calls
    obtain ⟨silent, got, rfl, same⟩ := reads.taken
    refine ⟨taken ++ got, queued', ?_, ?_, holds⟩
    · rw [accepted_snoc, silent, Option.toList_none, List.append_nil, h.accepts,
        List.append_assoc]
    · rw [received_snoc]
      exact List.rel_append h.receives same

theorem PipeRun.fifo (run : PipeRun capacity ts s) : ∃ taken queued, Fifo ts s taken queued := by
  induction run with
  | nil => exact ⟨[], [], rfl, .nil, @Holds.whole []⟩
  | snoc _ step ih =>
    obtain ⟨taken, queued, fifo⟩ := ih
    exact fifo.step step

/-- A run up to one of its steps. -/
theorem PipeRun.upTo (run : PipeRun capacity ts s) {t : PipeTransition} (mem : t ∈ ts) :
    (∃ ts', PipeRun capacity ts' t.before) ∧ PipeStep capacity t.before t.event t.after := by
  induction run with
  | nil => cases mem
  | snoc run step ih =>
    rcases List.mem_append.mp mem with mem | mem
    · exact ih mem
    · obtain rfl := List.mem_singleton.mp mem
      exact ⟨⟨_, run⟩, step⟩

theorem Holds.eq_initial (h : Holds s []) : s = .initial := by
  cases h
  rfl

/-- Only an empty pipe makes a receive fail. -/
theorem Reads.fails {queued queued' : List Message} (h : Reads queued e queued') {msg : Message}
    {err : Int} (event : e = .receive msg err) (nonzero : err ≠ 0) :
    queued = [] ∧ queued' = [] := by
  cases h with
  | empty none_ => exact ⟨none_, none_⟩
  | header => cases event
  | message =>
    cases event
    exact absurd rfl nonzero

/-- A call that fails changes nothing. -/
theorem Fifo.fails {taken queued : List Message} (h : Fifo ts s taken queued)
    (step : PipeStep capacity s e s') (msg : Message) {err : Int} (nonzero : err ≠ 0) :
    (e = .send msg err → s' = s) ∧ (e = .receive msg err → s.receiving = none ∧ s' = s) := by
  cases step with
  | @send msg' _ _ _ writes =>
    refine ⟨fun event => ?_, nofun⟩
    cases writes with
    | all =>
      have accepts := accepted_all msg'
      rw [event, PipeEvent.accepted, if_neg nonzero] at accepts
      cases accepts
    | nothing => rfl
  | read calls =>
    obtain ⟨queued', reads, holds, -⟩ := h.holds.read calls
    constructor
    · intro event
      rw [event] at reads
      cases reads
    · intro event
      obtain ⟨rfl, rfl⟩ := reads.fails event nonzero
      rw [holds.eq_initial, h.holds.eq_initial]
      exact ⟨rfl, rfl⟩

/-- A receive of a message succeeds, with its first read or with its second one. -/
theorem Fifo.succeeds {taken queued : List Message} (h : Fifo ts s taken queued)
    {call : ReceiveCall} {buf : Message} (calls : s.Calls call buf) :
    (s.receiving = none → queued ≠ [] →
      (s.read call buf).1 = .read ∨ ∃ msg, (s.read call buf).1 = .receive msg 0) ∧
    (s.receiving ≠ none → ∃ msg, (s.read call buf).1 = .receive msg 0) := by
  obtain ⟨queued', reads, -, last⟩ := h.holds.read calls
  have busy (receiving : s.receiving ≠ none) : queued ≠ [] := by
    rintro rfl
    exact receiving (congrArg PipeState.receiving h.holds.eq_initial)
  generalize (s.read call buf).1 = e at reads last
  cases reads with
  | empty none_ =>
    exact ⟨fun _ some_ => absurd none_ some_, fun receiving => absurd none_ (busy receiving)⟩
  | header => exact ⟨fun _ _ => .inl rfl, fun receiving => absurd rfl (last receiving)⟩
  | message => exact ⟨fun _ _ => .inr ⟨_, rfl⟩, fun _ => ⟨_, rfl⟩⟩

theorem Fifo.rest {taken queued : List Message} (h : Fifo ts s taken queued) :
    queued = (accepted ts).drop (received ts).length := by
  rw [h.accepts, h.receives.length_eq, List.drop_left]

end Runs

/-- A run as a value. -/
structure PipeExecution (capacity : Nat) where
  transitions : List PipeTransition
  final : PipeState
  run : PipeRun capacity transitions final

/-- The messages received are the first ones of those sent, in order, and the pipe holds the others.
A send or receive that fails leaves the pipe as it was, and a receive that finds a message ends
well, after two reads at most. -/
theorem pipe_reliable_fifo (capacity : Nat) (r : PipeExecution capacity) :
    (∃ taken, taken <+: accepted r.transitions ∧
      List.Forall₂ Same (received r.transitions) taken) ∧
    (r.final.receiving = none → r.final.queue =
      ((accepted r.transitions).drop (received r.transitions).length).flatMap wire) ∧
    (∀ t ∈ r.transitions, ∀ msg err, err ≠ 0 →
      (t.event = .send msg err → t.after = t.before) ∧
      (t.event = .receive msg err → t.before.receiving = none ∧ t.after = t.before)) ∧
    ∀ call msg, r.final.Calls call msg →
      (r.final.receiving = none →
        (received r.transitions).length < (accepted r.transitions).length →
          (r.final.read call msg).1 = .read ∨
            ∃ msg', (r.final.read call msg).1 = .receive msg' 0) ∧
      (r.final.receiving ≠ none → ∃ msg', (r.final.read call msg).1 = .receive msg' 0) := by
  obtain ⟨ts, s, run⟩ := r
  obtain ⟨taken, queued, fifo⟩ := run.fifo
  refine ⟨⟨taken, ⟨queued, fifo.accepts.symm⟩, fifo.receives⟩, fun idle => ?_,
    fun t mem msg err nonzero => ?_, fun call buf calls => ?_⟩
  · rw [← fifo.rest]
    have holds := fifo.holds
    cases holds with
    | whole => rfl
    | payload => cases idle
  · obtain ⟨⟨ts', before⟩, step⟩ := run.upTo mem
    obtain ⟨taken', queued', fifo⟩ := before.fifo
    exact fifo.fails step msg nonzero
  · obtain ⟨first, second⟩ := fifo.succeeds calls
    refine ⟨fun idle more => first idle ?_, second⟩
    rintro rfl
    have len := fifo.receives.length_eq
    rw [fifo.accepts, List.append_nil, len] at more
    exact absurd more (Nat.lt_irrefl _)

end Distra.Ipc
