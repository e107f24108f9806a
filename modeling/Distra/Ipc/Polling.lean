import Distra.Ipc.Pipe
import Mathlib.Logic.Function.Iterate

/-!
# `ipc_receive_any`

It tries one channel after the other. When the writer of an empty channel has exited, a `read`
returns 0 there. `ipc_read` takes that for a piece of no bytes, and never leaves its loop.
-/

namespace Distra.Ipc

open Distra.Ipc.Message

/-- A read from a pipe whose writer is alive or has exited. -/
def channelRead (alive : Bool) (queue : List Byte) (count : Nat) : ReadResult × List Byte :=
  if queue = [] ∧ alive = false then (.bytes [], []) else pipeRead queue count

inductive Polling where
  /-- In the receive from `fr`. -/
  | reading (fr : Nat) (call : ReceiveCall)
  | returned (err : Int) (fr : Nat)
  deriving DecidableEq

structure PollState where
  progress : Polling
  msg : Message
  /-- The bytes in the pipes from the other processes. -/
  queues : Nat → List Byte

section Code

variable (n self : Nat) (alive : Nat → Bool)

/-- The loop of `ipc_receive_any` with `*from = fr`. -/
def pollNext (fr : Nat) : Polling :=
  let fr := if fr = self then fr + 1 else fr
  if fr ≤ n then .reading fr (.header ⟨0, headerSize, 0⟩) else .returned (-1) fr

def ipcReceiveAny (msg : Message) (queues : Nat → List Byte) : PollState :=
  ⟨pollNext n self 0, msg, queues⟩

/-- The next `read` of `ipc_receive_any`, if it has not returned yet. -/
def PollState.read (s : PollState) : PollState :=
  match s.progress with
  | .returned _ _ => s
  | .reading fr call =>
    let (result, queue) := channelRead (alive fr) (s.queues fr) call.readCall.count
    let queues := Function.update s.queues fr queue
    match call.body s.msg result with
    | (.goesOn call, msg) => ⟨.reading fr call, msg, queues⟩
    | (.returns err, msg) =>
      if err = 0 then ⟨.returned 0 fr, msg, queues⟩ else ⟨pollNext n self (fr + 1), msg, queues⟩

end Code

/-! ## Channels with whole messages -/

def bytesOf (queued : Nat → List Message) (q : Nat) : List Byte := (queued q).flatMap wire

/-- `ipc_receive_any` has delivered the first message of the first channel that has one, or found
that there is none. -/
inductive Polled (n self : Nat) (queued : Nat → List Message) : PollState → Prop
  | message {q m rest msg} : q ≤ n → q ≠ self → (∀ q' < q, q' ≠ self → queued q' = []) →
      queued q = m :: rest → Same msg m →
      Polled n self queued ⟨.returned 0 q, msg, bytesOf (Function.update queued q rest)⟩
  | none {fr msg} : (∀ q ≤ n, q ≠ self → queued q = []) →
      Polled n self queued ⟨.returned (-1) fr, msg, bytesOf queued⟩

section Scan

variable {n self q : Nat} {alive : Nat → Bool} {msg m : Message} {queued : Nat → List Message}
  {rest : List Message} {s : PollState}

theorem pollNext_self : pollNext n self self = pollNext n self (self + 1) := by
  rw [pollNext, pollNext, if_pos rfl, if_neg (Nat.succ_ne_self self)]

theorem pollNext_reading (other : q ≠ self) (le : q ≤ n) :
    pollNext n self q = .reading q (.header ⟨0, headerSize, 0⟩) := by
  rw [pollNext, if_neg other]
  exact if_pos le

theorem pollNext_end (n self : Nat) : ∃ fr, pollNext n self (n + 1) = .returned (-1) fr := by
  rw [pollNext]
  split
  next => exact ⟨_, if_neg (by omega)⟩
  next => exact ⟨_, if_neg (Nat.not_succ_le_self n)⟩

theorem update_bytesOf (queued : Nat → List Message) (q : Nat) (rest : List Message) :
    Function.update (bytesOf queued) q (rest.flatMap wire) =
      bytesOf (Function.update queued q rest) :=
  (Function.comp_update (List.flatMap wire) queued q rest).symm

theorem update_empty (empty : queued q = []) :
    Function.update (bytesOf queued) q [] = bytesOf queued := by
  have same : [] = bytesOf queued q := by rw [bytesOf, empty]; rfl
  rw [same, Function.update_eq_self]

/-- An empty channel is passed over while its writer is alive. -/
theorem read_empty (empty : queued q = []) (alive_ : alive q = true) :
    PollState.read n self alive ⟨.reading q (.header ⟨0, headerSize, 0⟩), msg, bytesOf queued⟩ =
      ⟨pollNext n self (q + 1), msg, bytesOf queued⟩ := by
  have none_ : bytesOf queued q = [] := by rw [bytesOf, empty]; rfl
  have result : channelRead (alive q) (bytesOf queued q) headerSize = (.again, []) := by
    rw [none_, alive_]
    rfl
  simp only [PollState.read, ReceiveCall.readCall, ReadCall.count, Nat.sub_zero, result]
  rw [update_empty empty]
  rfl

/-- At the end of the file nothing changes. -/
theorem read_closed (empty : queued q = []) (closed : alive q = false) :
    PollState.read n self alive ⟨.reading q (.header ⟨0, headerSize, 0⟩), msg, bytesOf queued⟩ =
      ⟨.reading q (.header ⟨0, headerSize, 0⟩), msg, bytesOf queued⟩ := by
  have none_ : bytesOf queued q = [] := by rw [bytesOf, empty]; rfl
  have result : channelRead (alive q) (bytesOf queued q) headerSize = (.bytes [], []) := by
    rw [none_, closed]
    rfl
  have same : store msg 0 [] = msg := by
    funext i
    exact store_of_ge (Nat.zero_le i)
  simp only [PollState.read, ReceiveCall.readCall, ReadCall.count, Nat.sub_zero, result]
  rw [update_empty empty]
  change PollState.mk (.reading q (.header ⟨0, headerSize, 0⟩)) (store msg 0 []) _ = _
  rw [same]

/-- A piece that is there as a whole. -/
theorem channelRead_append {bytes : List Byte} (some_ : bytes ≠ []) (rest : List Byte)
    (alive : Bool) :
    channelRead alive (bytes ++ rest) bytes.length = (.bytes bytes, rest) := by
  rw [channelRead, if_neg fun empty => some_ (List.append_eq_nil_iff.mp empty.1).1,
    pipeRead_append some_]

/-- The header of the first message. -/
theorem read_first (queued_ : queued q = m :: rest) :
    PollState.read n self alive ⟨.reading q (.header ⟨0, headerSize, 0⟩), msg, bytesOf queued⟩ =
      ⟨if payloadLen m = 0 then .returned 0 q
        else .reading q (.payload ⟨headerSize, payloadLen m, 0⟩),
        store msg 0 (load m 0 headerSize),
        Function.update (bytesOf queued) q
          (load m headerSize (payloadLen m) ++ rest.flatMap wire)⟩ := by
  have bytes : bytesOf queued q =
      load m 0 headerSize ++ (load m headerSize (payloadLen m) ++ rest.flatMap wire) := by
    rw [bytesOf, queued_, List.flatMap_cons, wire_eq, List.append_assoc]
  have result : channelRead (alive q) (bytesOf queued q) headerSize =
      (.bytes (load m 0 headerSize), load m headerSize (payloadLen m) ++ rest.flatMap wire) := by
    have whole := channelRead_append (header_ne_nil m)
      (load m headerSize (payloadLen m) ++ rest.flatMap wire) (alive q)
    rwa [length_load, ← bytes] at whole
  have len := payloadLen_of_load (load_store_load msg m 0 headerSize)
  simp only [PollState.read, ReceiveCall.readCall, ReadCall.count, Nat.sub_zero, result,
    receive_header (length_load m 0 headerSize)]
  rcases Nat.eq_zero_or_pos (payloadLen m) with empty | pos
  · rw [receivePayload_empty (len.trans empty), if_pos empty]
    rfl
  · rw [receivePayload_pos (len ▸ pos), len, if_neg pos.ne']

/-- Its payload. -/
theorem read_second (pos : 0 < payloadLen m) (queues : Nat → List Byte)
    (queue : queues q = load m headerSize (payloadLen m) ++ rest.flatMap wire) :
    PollState.read n self alive
        ⟨.reading q (.payload ⟨headerSize, payloadLen m, 0⟩), msg, queues⟩ =
      ⟨.returned 0 q, store msg headerSize (load m headerSize (payloadLen m)),
        Function.update queues q (rest.flatMap wire)⟩ := by
  have some_ : load m headerSize (payloadLen m) ≠ [] := by
    intro empty
    have len := congrArg List.length empty
    rw [length_load] at len
    exact absurd len (Nat.ne_of_gt pos)
  have result : channelRead (alive q) (queues q) (payloadLen m) =
      (.bytes (load m headerSize (payloadLen m)), rest.flatMap wire) := by
    have whole := channelRead_append some_ (rest.flatMap wire) (alive q)
    rwa [length_load, ← queue] at whole
  have body := receive_payload msg (load m headerSize (payloadLen m))
  rw [length_load] at body
  simp only [PollState.read, ReceiveCall.readCall, ReadCall.count, Nat.sub_zero, result, body]
  rfl

/-- The first message of a channel is delivered, with one read or with two. -/
theorem read_message (n self : Nat) (alive : Nat → Bool) (msg : Message)
    (queued_ : queued q = m :: rest) :
    ∃ k msg', (PollState.read n self alive)^[k]
        ⟨.reading q (.header ⟨0, headerSize, 0⟩), msg, bytesOf queued⟩ =
      ⟨.returned 0 q, msg', bytesOf (Function.update queued q rest)⟩ ∧ Same msg' m := by
  have first : PollState.read n self alive
      ⟨.reading q (.header ⟨0, headerSize, 0⟩), msg, bytesOf queued⟩ = _ := read_first queued_
  have head := load_store_load msg m 0 headerSize
  rcases Nat.eq_zero_or_pos (payloadLen m) with empty | pos
  · rw [if_pos empty, empty] at first
    refine ⟨1, _, ?_, same_of_load head (by rw [empty]; rfl)⟩
    rw [Function.iterate_one, first, ← update_bytesOf]
    rfl
  · rw [if_neg pos.ne'] at first
    refine ⟨2, _, ?_, same_of_load ?_ (load_store_load (store msg 0 (load m 0 headerSize)) _ _ _)⟩
    · rw [Function.iterate_succ_apply, Function.iterate_one, first,
        read_second pos _ (Function.update_self _ _ _), Function.update_idem, update_bytesOf]
    · rw [load_store_before _ _ (Nat.zero_add headerSize).le, head]

/-- The scan comes to channel `q` if all before it are empty, and their writers alive. -/
theorem scan_to (msg : Message) (quiet : ∀ q' < q, q' ≠ self → queued q' = [] ∧ alive q' = true)
    (le : q ≤ n + 1) :
    ∃ k, (PollState.read n self alive)^[k] (ipcReceiveAny n self msg (bytesOf queued)) =
      ⟨pollNext n self q, msg, bytesOf queued⟩ := by
  induction q with
  | zero => exact ⟨0, rfl⟩
  | succ q ih =>
    obtain ⟨k, before⟩ := ih (fun q' lt => quiet q' (Nat.lt_succ_of_lt lt)) (Nat.le_of_succ_le le)
    by_cases own : q = self
    · subst own
      exact ⟨k, before.trans (by rw [pollNext_self])⟩
    · obtain ⟨empty, alive_⟩ := quiet q (Nat.lt_succ_self q) own
      rw [pollNext_reading own (Nat.le_of_succ_le_succ le)] at before
      refine ⟨k + 1, ?_⟩
      rw [Function.iterate_succ_apply', before, read_empty empty alive_]

/-- A state in which nothing changes any more is the last one. -/
theorem iterate_eq_of_fixed {α : Type} {f : α → α} {x y : α} {k : Nat} (at_ : f^[k] x = y)
    (fixed : f y = y) {k' : Nat} {z : α} (at' : f^[k'] x = z) (fixed' : f z = z) : y = z := by
  have after : f^[k' + k] x = y := by
    rw [Function.iterate_add_apply, at_, Function.iterate_fixed fixed]
  have after' : f^[k + k'] x = z := by
    rw [Function.iterate_add_apply, at', Function.iterate_fixed fixed']
  rw [← after, ← after', Nat.add_comm]

theorem Polled.fixed (h : Polled n self queued s) : PollState.read n self alive s = s := by
  cases h <;> rfl

/-- The empty channels before a place of the scan are passed over. -/
theorem quiet_of_empty
    (alives : ∀ q ≤ n, q ≠ self → (∀ q' ≤ q, q' ≠ self → queued q' = []) → alive q = true)
    (le : q ≤ n + 1) (empty : ∀ q' < q, q' ≠ self → queued q' = []) :
    ∀ q' < q, q' ≠ self → queued q' = [] ∧ alive q' = true := by
  intro q' lt other
  refine ⟨empty q' lt other, alives q' (by omega) other fun q'' le' => ?_⟩
  exact empty q'' (le'.trans_lt lt)

/-- The first closed channel is never left. -/
theorem alive_of_polled {k : Nat}
    (polled : Polled n self queued
      ((PollState.read n self alive)^[k] (ipcReceiveAny n self msg (bytesOf queued))))
    (le : q ≤ n) (other : q ≠ self) (empty : ∀ q' ≤ q, q' ≠ self → queued q' = []) :
    alive q = true := by
  induction q using Nat.strong_induction_on with
  | _ q ih =>
    by_contra closed
    have closed : alive q = false := Bool.eq_false_of_not_eq_true closed
    have quiet (q' : Nat) (lt : q' < q) (other' : q' ≠ self) :
        queued q' = [] ∧ alive q' = true :=
      ⟨empty q' lt.le other', ih q' lt (lt.le.trans le) other' fun q'' le' =>
        empty q'' (le'.trans lt.le)⟩
    obtain ⟨k', scanned⟩ := scan_to msg quiet (le.trans (Nat.le_succ n))
    rw [pollNext_reading other le] at scanned
    have stuck := iterate_eq_of_fixed scanned (read_closed (empty q le_rfl other) closed) rfl
      polled.fixed
    rw [← stuck] at polled
    cases polled

/-- With the writers alive, all channels are passed over up to a message. -/
theorem polled_of_alive (msg : Message)
    (alives : ∀ q ≤ n, q ≠ self → (∀ q' ≤ q, q' ≠ self → queued q' = []) → alive q = true) :
    ∃ k, Polled n self queued
      ((PollState.read n self alive)^[k] (ipcReceiveAny n self msg (bytesOf queued))) := by
  classical
  by_cases found : ∃ q, q ≤ n ∧ q ≠ self ∧ queued q ≠ []
  · obtain ⟨le, other, some_⟩ := Nat.find_spec found
    have empty (q' : Nat) (lt : q' < Nat.find found) (other : q' ≠ self) : queued q' = [] := by
      by_contra some'
      exact Nat.find_min found lt ⟨lt.le.trans le, other, some'⟩
    generalize Nat.find found = q at le other some_ empty
    obtain ⟨m, rest, queued_⟩ := List.exists_cons_of_ne_nil some_
    have le' : q ≤ n + 1 := le.trans (Nat.le_succ n)
    obtain ⟨k, scanned⟩ := scan_to msg (quiet_of_empty alives le' empty) le'
    rw [pollNext_reading other le] at scanned
    obtain ⟨k', msg', read, same⟩ := read_message n self alive msg queued_
    refine ⟨k' + k, ?_⟩
    rw [Function.iterate_add_apply, scanned, read]
    exact .message le other empty queued_ same
  · push Not at found
    have empty (q : Nat) (lt : q < n + 1) (other : q ≠ self) : queued q = [] :=
      found q (Nat.le_of_lt_succ lt) other
    obtain ⟨k, scanned⟩ := scan_to msg (quiet_of_empty alives le_rfl empty) le_rfl
    obtain ⟨fr, ended⟩ := pollNext_end n self
    refine ⟨k, ?_⟩
    rw [scanned, ended]
    exact .none found

/-- `ipc_receive_any` returns, with the first message of the first channel that has one, if and
only if the writers of all empty channels before that one are alive. -/
theorem ipc_receive_any_returns_iff (n self : Nat) (alive : Nat → Bool) (msg : Message)
    (queued : Nat → List Message) :
    (∃ k, Polled n self queued
      ((PollState.read n self alive)^[k] (ipcReceiveAny n self msg (bytesOf queued)))) ↔
      ∀ q ≤ n, q ≠ self → (∀ q' ≤ q, q' ≠ self → queued q' = []) → alive q = true := by
  constructor
  · rintro ⟨k, polled⟩ q le other empty
    exact alive_of_polled polled le other empty
  · exact polled_of_alive msg

/-- A child that waits for a `DONE` looks at a peer that has exited. -/
theorem ipc_receive_any_stuck :
    ¬∃ k, Polled 3 2 (fun q => if q = 3 then [fun _ => 0] else [])
      ((PollState.read 3 2 fun q => q ≠ 1)^[k]
        (ipcReceiveAny 3 2 (fun _ => 0)
          (bytesOf fun q => if q = 3 then [fun _ => 0] else []))) := by
  rintro ⟨k, polled⟩
  have alive := alive_of_polled polled (Nat.le_add_left 1 2) (by decide)
    fun q le _ => if_neg (by omega)
  exact absurd alive (by decide)

end Scan

end Distra.Ipc
