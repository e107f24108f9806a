import Distra.Ipc.Polling
import Distra.Network.History

/-!
# Processes that talk over pipes

The processes of `Network` again, now with the calls that they make to send and receive: a message
is written to a pipe as its bytes, or refused, and a receive is one `read` after the other, with the
steps of other processes between any two of them. `PipedStep.simulated` takes every step back to the
FIFO channels of `Network`, as long as no write is refused there.
-/

namespace Distra.Ipc

open Distra.Ipc.Message Network

/-- How the messages of a program travel as bytes. -/
structure Codec (M : Type) where
  /-- What a process has in its buffer when it sends `m`. -/
  Encodes : Nat → M → Message → Prop
  decode : Message → M
  /-- The number of bytes at most. -/
  size : M → Nat
  /-- Nothing of the message gets lost. -/
  Fits : M → Prop
  length_le : ∀ {p m msg}, Encodes p m msg → (wire msg).length ≤ size m
  decode_eq : ∀ {p m msg msg'}, Fits m → Encodes p m msg → Same msg' msg → decode msg' = m

/-- What a process is doing. -/
inductive Status where
  /-- It writes what is in its buffer, or it goes on to its next communication. -/
  | running
  /-- In `ipc_receive_any`, in the receive from `fr`. -/
  | polling (fr : Nat) (call : ReceiveCall) (msg : Message)
  /-- In `receive`, called by `receive_blocking` or `receive_any`. -/
  | receiving (fr : Nat) (call : ReceiveCall) (msg : Message)
  /-- A write or a read has failed. -/
  | failed
  /-- The ends of its pipes are closed. -/
  | exited

structure PipedState (σ M : Type) where
  loc : Nat → σ
  outbox : Nat → List (Nat × M)
  /-- The bytes in the pipe from one process to the other. -/
  queue : Nat → Nat → List Byte
  status : Nat → Status

namespace PipedState

variable {σ M : Type} (W : PipedState σ M) (p : Nat)

def initial (loc : Nat → σ) : PipedState σ M :=
  ⟨loc, fun _ => [], fun _ _ => [], fun _ => .running⟩

def withStatus (status : Status) : PipedState σ M :=
  { W with status := Function.update W.status p status }

/-- The pipes to `p` hold these bytes. -/
def withInput (queues : Nat → List Byte) : PipedState σ M :=
  { W with queue := fun a b => if b = p then queues a else W.queue a b }

/-- `p` moves to its next local state and starts to send. -/
def become (next : Next Nat σ M) : PipedState σ M where
  loc := Function.update W.loc p next.1
  outbox := Function.update W.outbox p next.2
  queue := W.queue
  status := Function.update W.status p .running

/-- `write` puts the bytes into the pipe. -/
def wrote (q : Nat) (msg : Message) (rest : List (Nat × M)) : PipedState σ M where
  loc := W.loc
  outbox := Function.update W.outbox p rest
  queue := fun a b => if a = p ∧ b = q then W.queue a b ++ wire msg else W.queue a b
  status := W.status

/-- `ipc_receive_any` goes on, or returns. -/
def resume (decode : Message → M) (progress : Polling) (msg : Message)
    (onMessage : Nat → M → Next Nat σ M) (onEmpty : Next Nat σ M) : PipedState σ M :=
  match progress with
  | .reading fr call => W.withStatus p (.polling fr call msg)
  | .returned err fr => W.become p (if err = 0 then onMessage fr (decode msg) else onEmpty)

/-- `receive` from `q` after a `read`. If the pipe is empty, `receive_blocking` calls it again, and
`receive_any` goes on. -/
def received (decode : Message → M) (q : Nat) (onMessage : M → Next Nat σ M)
    (onEmpty : Next Nat σ M) : Progress ReceiveCall × Message → PipedState σ M
  | (.goesOn call, msg) => W.withStatus p (.receiving q call msg)
  | (.returns err, msg) =>
    if err = ipcErrNonblockEmpty then W.become p onEmpty
    else if err = 0 then W.become p (onMessage (decode msg)) else W.withStatus p .failed

/-- The end of the pipe from `q` that is written to is still there, as long as `q` is. -/
def Open (alive : Nat → Bool) : Prop := ∀ q, alive q = false → W.status q = .exited

end PipedState

section Steps

variable {σ M : Type} (code : Code Nat σ M) (C : Codec M) (n capacity : Nat)

/-- One step of one process of `n + 1`, between two system calls. -/
inductive PipedStep (W : PipedState σ M) : PipedState σ M → Prop
  /-- All bytes of a message find room. -/
  | write {p q m rest msg} : W.status p = .running → W.outbox p = (q, m) :: rest →
      C.Encodes p m msg → (W.queue p q).length + (wire msg).length ≤ capacity →
      PipedStep W (W.wrote p q msg rest)
  /-- There is no room, or nobody to read. -/
  | refused {p q m rest msg} : W.status p = .running → W.outbox p = (q, m) :: rest →
      C.Encodes p m msg →
      capacity < (W.queue p q).length + (wire msg).length ∨ W.status q = .exited →
      PipedStep W (W.withStatus p .failed)
  | act {p next} : W.status p = .running → W.outbox p = [] → code p (W.loc p) = .act next →
      PipedStep W (W.become p next)
  /-- `ipc_receive_any` is called, whatever is in the buffer. -/
  | poll {p sources onMessage onEmpty msg} : W.status p = .running → W.outbox p = [] →
      code p (W.loc p) = .poll sources onMessage onEmpty →
      PipedStep W (W.resume p C.decode (pollNext n p 0) msg onMessage onEmpty)
  | pollRead {p fr call msg sources onMessage onEmpty alive s} :
      W.status p = .polling fr call msg → code p (W.loc p) = .poll sources onMessage onEmpty →
      W.Open alive →
      PollState.read n p alive ⟨.reading fr call, msg, fun q => W.queue q p⟩ = s →
      PipedStep W ((W.withInput p s.queues).resume p C.decode s.progress s.msg onMessage onEmpty)
  /-- `receive` is called, whatever is in the buffer. -/
  | receive {p q onMessage onEmpty msg} : W.status p = .running → W.outbox p = [] →
      code p (W.loc p) = .receive q onMessage onEmpty →
      PipedStep W (W.withStatus p (.receiving q (.header ⟨0, headerSize, 0⟩) msg))
  | receiveRead {p q call msg onMessage onEmpty alive result queue} :
      W.status p = .receiving q call msg → code p (W.loc p) = .receive q onMessage onEmpty →
      W.Open alive →
      channelRead (alive q) (W.queue q p) call.readCall.count = (result, queue) →
      PipedStep W
        ((W.withInput p (Function.update (fun a => W.queue a p) q queue)).received p C.decode q
          onMessage onEmpty (call.body msg result))
  | exit {p} : W.status p = .running → W.outbox p = [] → code p (W.loc p) = .stop →
      PipedStep W (W.withStatus p .exited)

/-- The states that are reached from `W₀`. -/
inductive PipedRun (W₀ : PipedState σ M) : PipedState σ M → Prop
  | nil : PipedRun W₀ W₀
  | snoc {W W'} : PipedRun W₀ W → PipedStep code C n capacity W W' → PipedRun W₀ W'

end Steps

/-! ## One read -/

/-- The receive that is under way, once it has taken a header. -/
def ReceiveCall.under (msg : Message) : ReceiveCall → Option (ReceiveCall × Message)
  | .header _ => none
  | .payload call => some (.payload call, msg)

/-- The reads up to the end of a receive, once there is a message. -/
def ReceiveCall.reads : ReceiveCall → Nat
  | .header _ => 2
  | .payload _ => 1

/-- A receive has read nothing yet, or a whole header. -/
def ReceiveCall.Fresh : ReceiveCall → Prop
  | .header call => call = ⟨0, headerSize, 0⟩
  | .payload _ => True

/-- What a read of the receive under way does to the messages of its pipe. -/
inductive Outcome (alive : Bool) (msgs : List Message) (call : ReceiveCall) (msg : Message) :
    ReadResult × List Byte → Prop
  /-- The writer has exited, and the receive goes on for ever. -/
  | closed : alive = false → msgs = [] → call.body msg (.bytes []) = (.goesOn call, msg) →
      Outcome alive msgs call msg (.bytes [], [])
  | empty {result msg'} : msgs = [] →
      call.body msg result = (.returns ipcErrNonblockEmpty, msg') →
      Outcome alive msgs call msg (result, [])
  | header {result queue payload msg'} : call.under msg = none →
      call.body msg result = (.goesOn (.payload payload), msg') →
      Holds ⟨queue, some (.payload payload, msg')⟩ msgs →
      Outcome alive msgs call msg (result, queue)
  | message {result queue m rest msg'} : msgs = m :: rest → Same msg' m →
      call.body msg result = (.returns 0, msg') → Holds ⟨queue, none⟩ rest →
      Outcome alive msgs call msg (result, queue)

section Outcome

variable {queue : List Byte} {msgs : List Message} {call : ReceiveCall} {msg : Message}

theorem Holds.calls (fresh : call.Fresh) :
    (⟨queue, call.under msg⟩ : PipeState).Calls call msg := by
  cases call with
  | header call =>
    cases fresh
    exact .starts rfl rfl
  | payload => exact .goesOn rfl

/-- An empty pipe holds no message, not even one without its header. -/
theorem Holds.queue_nil {s : PipeState} (h : Holds s msgs) (empty : s.queue = []) :
    s.receiving = none ∧ msgs = [] := by
  cases h with
  | whole =>
    refine ⟨rfl, ?_⟩
    cases msgs with
    | nil => rfl
    | cons m rest =>
      have empty : wire m ++ rest.flatMap wire = [] := empty
      rw [wire_eq, List.append_assoc] at empty
      exact absurd (List.append_eq_nil_iff.mp empty).1 (header_ne_nil m)
  | @payload m _ _ pos =>
    have len := congrArg List.length (List.append_eq_nil_iff.mp empty).1
    rw [length_load] at len
    exact absurd len pos.ne'

theorem Holds.closed (h : Holds ⟨[], call.under msg⟩ msgs) (fresh : call.Fresh) :
    msgs = [] ∧ call.body msg (.bytes []) = (.goesOn call, msg) := by
  obtain ⟨idle, none_⟩ := h.queue_nil rfl
  refine ⟨none_, ?_⟩
  cases call with
  | header call =>
    cases fresh
    have same : store msg 0 [] = msg := by
      funext i
      exact store_of_ge (Nat.zero_le i)
    change (_, store msg 0 []) = _
    rw [same]
    rfl
  | payload => cases idle

theorem Holds.outcome (h : Holds ⟨queue, call.under msg⟩ msgs) (fresh : call.Fresh)
    (alive : Bool) :
    Outcome alive msgs call msg (channelRead alive queue call.readCall.count) := by
  obtain ⟨msgs', reads, holds, second⟩ := h.read (Holds.calls fresh)
  unfold channelRead
  split
  next eof =>
    obtain ⟨rfl, closed⟩ := eof
    obtain ⟨none_, body⟩ := h.closed fresh
    exact .closed closed none_ body
  next =>
    unfold PipeState.read at reads holds second
    dsimp only at reads holds second
    generalize pipeRead queue call.readCall.count = read at reads holds second
    obtain ⟨result, queue'⟩ := read
    dsimp only at reads holds second
    cases body : call.body msg result with
    | mk progress msg' =>
      rw [body] at reads holds second
      cases progress with
      | goesOn c =>
        have first : call.under msg = none := by
          by_contra busy
          exact second busy rfl
        cases reads
        cases holds with
        | payload pos same => exact .header first body (.payload pos same)
      | returns err =>
        cases reads with
        | empty none_ =>
          subst none_
          cases holds.eq_initial
          exact .empty rfl body
        | message some_ same => exact .message some_ same body holds

end Outcome

end Distra.Ipc
