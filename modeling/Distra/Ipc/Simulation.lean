import Distra.Ipc.Piped

/-!
# From pipes to FIFO channels

A pipe carries the messages of its channel, the first one perhaps without its header. Where the
messages of a channel are never more than the pipe has room for, and never meant for a process that
has stopped, every step over pipes is a step of `Network`, or none.
-/

namespace Distra.Ipc

open Distra.Ipc.Message Network

variable {σ M : Type} {code : Code Nat σ M} {C : Codec M} {n capacity : Nat}

/-- The pipe holds the messages of the channel from `q`, as far as the receive under way has not
taken them. -/
def Carries (C : Codec M) (q : Nat) (queue : List Byte) (under : Option (ReceiveCall × Message))
    (l : List M) : Prop :=
  ∃ msgs, Holds ⟨queue, under⟩ msgs ∧ List.Forall₂ (C.Encodes q) l msgs

section Carries

variable {q : Nat} {queue : List Byte} {under : Option (ReceiveCall × Message)} {l : List M}
  {call : ReceiveCall} {msg : Message}

theorem Carries.nil (C : Codec M) (q : Nat) : Carries C q [] none [] := ⟨[], @Holds.whole [], .nil⟩

theorem Carries.enqueue {m : M} (h : Carries C q queue under l) (encodes : C.Encodes q m msg) :
    Carries C q (queue ++ wire msg) under (l ++ [m]) := by
  obtain ⟨msgs, holds, encoded⟩ := h
  exact ⟨msgs ++ [msg], holds.enqueue msg, List.rel_append encoded (.cons encodes .nil)⟩

theorem length_flatMap_wire {msgs : List Message} (encoded : List.Forall₂ (C.Encodes q) l msgs) :
    (msgs.flatMap wire).length ≤ (l.map C.size).sum := by
  induction encoded with
  | nil => exact Nat.zero_le _
  | cons encodes _ ih =>
    rw [List.flatMap_cons, List.length_append, List.map_cons, List.sum_cons]
    exact Nat.add_le_add (C.length_le encodes) ih

/-- A pipe holds no more bytes than its messages have. -/
theorem Carries.length_le (h : Carries C q queue under l) : queue.length ≤ (l.map C.size).sum := by
  obtain ⟨msgs, holds, encoded⟩ := h
  refine le_trans ?_ (length_flatMap_wire encoded)
  cases holds with
  | whole => exact le_rfl
  | payload =>
    rw [List.flatMap_cons, List.length_append, List.length_append, wire_eq, List.length_append]
    omega

/-- Nothing is left of an empty channel. -/
theorem Carries.queue_nil (h : Carries C q queue under []) : queue = [] := by
  obtain ⟨msgs, holds, encoded⟩ := h
  cases encoded
  exact congrArg PipeState.queue holds.eq_initial

/-- What a read does with the messages of a channel. -/
inductive Gets (C : Codec M) (q : Nat) (alive : Bool) (l : List M) (call : ReceiveCall)
    (msg : Message) : ReadResult × List Byte → Prop
  | stays {result queue call' msg'} : call.body msg result = (.goesOn call', msg') →
      call'.Fresh ∧ (alive = true → l ≠ [] ∧ call'.reads < call.reads) →
      Carries C q queue (call'.under msg') l → Gets C q alive l call msg (result, queue)
  | nothing {result queue msg'} : l = [] →
      call.body msg result = (.returns ipcErrNonblockEmpty, msg') → Carries C q queue none l →
      Gets C q alive l call msg (result, queue)
  | message {result queue m rest msg'} : l = m :: rest →
      call.body msg result = (.returns 0, msg') → C.decode msg' = m →
      Carries C q queue none rest → Gets C q alive l call msg (result, queue)

theorem Carries.read (h : Carries C q queue (call.under msg) l) (fresh : call.Fresh)
    (fits : ∀ m ∈ l, C.Fits m) (alive : Bool) :
    Gets C q alive l call msg (channelRead alive queue call.readCall.count) := by
  obtain ⟨msgs, holds, encoded⟩ := h
  have outcome := holds.outcome fresh alive
  generalize channelRead alive queue call.readCall.count = read at outcome
  cases outcome with
  | closed closed none_ body =>
    subst none_
    cases encoded
    have idle : call.under msg = none := congrArg PipeState.receiving holds.eq_initial
    have dead (living : alive = true) : [] ≠ ([] : List M) ∧ call.reads < call.reads := by
      rw [closed] at living
      cases living
    exact .stays body ⟨fresh, dead⟩ (idle ▸ .nil C q)
  | empty none_ body =>
    subst none_
    cases encoded
    exact .nothing rfl body (.nil C q)
  | header first body holds =>
    refine .stays body ⟨trivial, fun _ => ⟨fun none_ => ?_, ?_⟩⟩ ⟨msgs, holds, encoded⟩
    · subst none_
      cases encoded
      cases holds
    · cases call with
      | header => exact Nat.lt_succ_self 1
      | payload => cases first
  | message some_ same body rest =>
    subst some_
    cases encoded with
    | cons encodes encoded =>
      exact .message rfl body (C.decode_eq (fits _ List.mem_cons_self) encodes same)
        ⟨_, rest, encoded⟩

end Carries

/-! ## States -/

/-- What the receive of a process has taken from the pipe from `q`. -/
def Status.under (q : Nat) : Status → Option (ReceiveCall × Message)
  | .polling fr call msg | .receiving fr call msg => if fr = q then call.under msg else none
  | .running | .failed | .exited => none

/-- A process does what its code says. -/
def Stands (code : Code Nat σ M) (n : Nat) (s : State Nat σ M) (p : Nat) : Status → Prop
  | .running => True
  | .polling fr call _ => s.outbox p = [] ∧ ((fr ≤ n ∧ fr ≠ p) ∧ call.Fresh) ∧
      ∃ sources onMessage onEmpty, code p (s.loc p) = .poll sources onMessage onEmpty
  | .receiving q call _ => s.outbox p = [] ∧ call.Fresh ∧
      ∃ onMessage onEmpty, code p (s.loc p) = .receive q onMessage onEmpty
  | .failed => False
  | .exited => s.outbox p = [] ∧ code p (s.loc p) = .stop

/-- The processes over pipes do what the processes of `Network` do. -/
structure Simulates (code : Code Nat σ M) (C : Codec M) (n : Nat) (W : PipedState σ M)
    (s : State Nat σ M) : Prop where
  loc : W.loc = s.loc
  outbox : W.outbox = s.outbox
  stands : ∀ p, Stands code n s p (W.status p)
  pipes : ∀ q p, Carries C q (W.queue q p) ((W.status p).under q) (s.chan q p)

/-- What the program expects of the pipes. -/
structure Conveyed (code : Code Nat σ M) (s₀ : State Nat σ M) (C : Codec M) (n capacity : Nat) :
    Prop where
  scans : ∀ {p st sources onMessage onEmpty}, code p st = .poll sources onMessage onEmpty →
    ∀ q, q ∈ sources ↔ q ≤ n ∧ q ≠ p
  fits : ∀ {ts s}, Run code s₀ ts s → ∀ p q, ∀ m ∈ s.transit p q, C.Fits m
  room : ∀ {ts s}, Run code s₀ ts s → ∀ p q, ((s.transit p q).map C.size).sum ≤ capacity
  awaited : ∀ {ts s}, Run code s₀ ts s → ∀ p q, s.transit p q ≠ [] → code q (s.loc q) ≠ .stop

section Simulates

variable {W : PipedState σ M} {s s₁ : State Nat σ M} {p q : Nat} {m : M} {msg : Message}
  {rest : List (Nat × M)} {status : Status} {queues : Nat → List Byte} {next : Next Nat σ M}

theorem Simulates.initial (loc : Nat → σ) :
    Simulates code C n (.initial loc) (State.initial loc) :=
  ⟨rfl, rfl, fun _ => trivial, fun q _ => .nil C q⟩

theorem Simulates.not_failed (h : Simulates code C n W s) (p : Nat) : W.status p ≠ .failed :=
  fun failed => (failed ▸ h.stands p : Stands code n s p .failed)

theorem Simulates.queue_nil (h : Simulates code C n W s) (empty : s.chan q p = []) :
    W.queue q p = [] := by
  have pipe := h.pipes q p
  rw [empty] at pipe
  exact pipe.queue_nil

/-- Nothing is left in the pipes to a process that has exited. -/
theorem Simulates.departed {s₀ : State Nat σ M} {ts : List (Transition Nat σ M)} {capacity : Nat}
    (conveyed : Conveyed code s₀ C n capacity) (run : Run code s₀ ts s)
    (h : Simulates code C n W s) (exited : W.status p = .exited) (q : Nat) :
    W.queue q p = [] := by
  obtain ⟨-, stop⟩ := exited ▸ h.stands p
  have empty : s.transit q p = [] := not_not.mp fun some_ => conveyed.awaited run q p some_ stop
  exact h.queue_nil (List.append_eq_nil_iff.mp empty).1

theorem Simulates.write (h : Simulates code C n W s) (running : W.status p = .running)
    (encodes : C.Encodes p m msg) :
    Simulates code C n (W.wrote p q msg rest) (s.flush p q m rest) := by
  refine ⟨h.loc, ?_, fun a => ?_, fun a b => ?_⟩
  · exact congrArg (Function.update · p rest) h.outbox
  · have stands := h.stands a
    change Stands code n _ a (W.status a)
    by_cases actor : a = p
    · rw [actor, running]
      trivial
    · have same : (s.flush p q m rest).outbox a = s.outbox a := Function.update_of_ne actor _ _
      unfold Stands at stands ⊢
      rw [same]
      exact stands
  · have pipes := h.pipes a b
    change Carries C a (if a = p ∧ b = q then _ else _) ((W.status b).under a)
      ((s.chan.post p (outTo [(q, m)])) a b)
    by_cases actor : a = p
    · subst actor
      rw [Channels.post_self, outTo_cons, outTo_nil]
      by_cases receiver : b = q
      · subst receiver
        rw [if_pos ⟨rfl, rfl⟩, if_pos rfl, List.append_nil]
        exact pipes.enqueue encodes
      · have other : ¬q = b := fun eq => receiver eq.symm
        rw [if_neg (fun both => receiver both.2), if_neg other, List.append_nil, List.append_nil]
        exact pipes
    · rw [if_neg (fun both => actor both.1), Channels.post_ne _ actor]
      exact pipes

/-- `p` is doing something else, with other bytes in the pipes to it. -/
theorem Simulates.input (h : Simulates code C n W s) (status : Status)
    (loc : s₁.loc = s.loc) (outbox : s₁.outbox = s.outbox)
    (others : ∀ a b, b ≠ p → s₁.chan a b = s.chan a b) (stands : Stands code n s p status)
    (pipes : ∀ q, Carries C q (queues q) (status.under q) (s₁.chan q p)) :
    Simulates code C n ((W.withInput p queues).withStatus p status) s₁ := by
  refine ⟨h.loc.trans loc.symm, h.outbox.trans outbox.symm, fun a => ?_, fun a b => ?_⟩
  · change Stands code n s₁ a (Function.update W.status p status a)
    have same (status : Status) : Stands code n s₁ a status ↔ Stands code n s a status := by
      unfold Stands
      rw [loc, outbox]
    rw [same, Function.update_apply]
    split
    next actor => exact actor ▸ stands
    next => exact h.stands a
  · change Carries C a (if b = p then queues a else W.queue a b)
      ((Function.update W.status p status b).under a) (s₁.chan a b)
    rw [Function.update_apply]
    split
    next receiver => exact receiver ▸ pipes a
    next other =>
      rw [others a b other]
      exact h.pipes a b

theorem withInput_self (W : PipedState σ M) (p : Nat) :
    W.withInput p (fun a => W.queue a p) = W := by
  rw [PipedState.withInput]
  congr 1
  funext a b
  split
  next receiver => rw [receiver]
  next => rfl

theorem withStatus_become (W : PipedState σ M) (p : Nat) (status : Status) (next : Next Nat σ M) :
    (W.withStatus p status).become p next = W.become p next := by
  rw [PipedState.become, PipedState.withStatus, Function.update_idem]
  rfl

/-- `p` is doing something else, and nothing has been read. -/
theorem Simulates.withStatus (h : Simulates code C n W s) (stands : Stands code n s p status)
    (same : ∀ q, status.under q = (W.status p).under q) :
    Simulates code C n (W.withStatus p status) s := by
  rw [← withInput_self W p]
  exact h.input status rfl rfl (fun _ _ _ => rfl) stands fun q => same q ▸ h.pipes q p

theorem Simulates.become (h : Simulates code C n W s) (running : W.status p = .running)
    (next : Next Nat σ M) : Simulates code C n (W.become p next) (s.become p next) := by
  refine ⟨?_, ?_, fun a => ?_, fun a b => ?_⟩
  · change Function.update W.loc p next.1 = Function.update s.loc p next.1
    rw [h.loc]
  · change Function.update W.outbox p next.2 = Function.update s.outbox p next.2
    rw [h.outbox]
  · change Stands code n _ a (Function.update W.status p .running a)
    rw [Function.update_apply]
    split
    · trivial
    next other =>
      have stands := h.stands a
      have loc : (s.become p next).loc a = s.loc a := Function.update_of_ne other _ _
      have outbox : (s.become p next).outbox a = s.outbox a := Function.update_of_ne other _ _
      unfold Stands at stands ⊢
      rw [loc, outbox]
      exact stands
  · have same : Function.update W.status p .running = W.status := by
      rw [← running, Function.update_eq_self]
    change Carries C a (W.queue a b) ((Function.update W.status p .running b).under a) _
    rw [same]
    exact h.pipes a b

/-- The pipes have been read from, and `p` goes on by itself. -/
theorem Simulates.pass (h : Simulates code C n W s)
    (pipes : ∀ q, Carries C q (queues q) none (s.chan q p)) (next : Next Nat σ M) :
    Simulates code C n ((W.withInput p queues).become p next) (s.become p next) := by
  have running := h.input .running rfl rfl (fun _ _ _ => rfl) trivial pipes
  have become := running.become (Function.update_self _ _ _) next
  rwa [withStatus_become] at become

end Simulates

/-! ## Steps -/

section Steps

variable {W W' : PipedState σ M} {s s₀ : State Nat σ M} {p : Nat} {ts : List (Transition Nat σ M)}
  {sources : List Nat} {onMessage : Nat → M → Next Nat σ M} {onEmpty : Next Nat σ M}
  {queues : Nat → List Byte} {msg : Message}

/-- The same state, or the one after a step. -/
def Follows (code : Code Nat σ M) (C : Codec M) (n : Nat) (W : PipedState σ M)
    (s : State Nat σ M) : Prop :=
  Simulates code C n W s ∨ ∃ e s', Step code s e s' ∧ Simulates code C n W s'

/-- The reads at most up to the end of `ipc_receive_any`, with the channels of the living. -/
def readsLeft (n fr : Nat) (call : ReceiveCall) : Nat := 3 * (n + 1 - fr) + call.reads

/-- The scan of `p`, from channel `fr` on and with fewer than `k` reads left. -/
inductive Scans (code : Code Nat σ M) (C : Codec M) (n : Nat) (W : PipedState σ M)
    (s : State Nat σ M) (p fr k : Nat) (alive : Bool) : Prop
  | goesOn {fr' call msg} : Simulates code C n W s → W.status p = .polling fr' call msg →
      (alive = true → readsLeft n fr' call < k) →
      (∀ q, fr ≤ q → q < fr' → q ≠ p → s.chan q p = []) → Scans code C n W s p fr k alive
  | empty {s'} : Step code s (.empty p) s' → Simulates code C n W s' → W.status p = .running →
      (∀ q, fr ≤ q → q ≤ n → q ≠ p → s.chan q p = []) → Scans code C n W s p fr k alive
  | message {q m s'} : Step code s (.take p q m) s' → Simulates code C n W s' →
      W.status p = .running → Scans code C n W s p fr k alive

theorem Scans.follows {fr k : Nat} {alive : Bool} (h : Scans code C n W s p fr k alive) :
    Follows code C n W s := by
  cases h with
  | goesOn simulates => exact .inl simulates
  | empty step simulates => exact .inr ⟨_, _, step, simulates⟩
  | message step simulates => exact .inr ⟨_, _, step, simulates⟩

/-- An empty channel is passed over. -/
theorem Scans.passed {fr k k' : Nat} {alive alive' : Bool}
    (h : Scans code C n W s p (fr + 1) k alive) (none_ : s.chan fr p = []) (le : k ≤ k')
    (same : alive' = true → alive = true) : Scans code C n W s p fr k' alive' := by
  have ahead {q : Nat} (ge : fr ≤ q) : q = fr ∨ fr + 1 ≤ q := (Nat.eq_or_lt_of_le ge).imp_left .symm
  cases h with
  | goesOn simulates status left empty =>
    refine .goesOn simulates status (fun living => (left (same living)).trans_le le)
      fun q ge lt ne => ?_
    rcases ahead ge with rfl | later
    · exact none_
    · exact empty q later lt ne
  | empty step simulates status empty =>
    refine .empty step simulates status fun q ge le ne => ?_
    rcases ahead ge with rfl | later
    · exact none_
    · exact empty q later le ne
  | message step simulates status => exact .message step simulates status

theorem pollNext_cases (n self fr : Nat) :
    (∃ fr', pollNext n self fr = .reading fr' (.header ⟨0, headerSize, 0⟩) ∧
        (fr' ≤ n ∧ fr' ≠ self) ∧ fr ≤ fr' ∧ ∀ q, fr ≤ q → q < fr' → q = self) ∨
      ∃ fr', pollNext n self fr = .returned (-1) fr' ∧ ∀ q, fr ≤ q → q ≤ n → q = self := by
  unfold pollNext
  dsimp only
  split
  next own =>
    split
    next le => exact .inl ⟨_, rfl, ⟨le, by omega⟩, Nat.le_succ fr, fun q _ _ => by omega⟩
    next => exact .inr ⟨_, rfl, fun q _ _ => by omega⟩
  next other =>
    split
    next le => exact .inl ⟨_, rfl, ⟨le, other⟩, le_rfl, fun q _ _ => by omega⟩
    next => exact .inr ⟨_, rfl, fun q _ _ => by omega⟩

/-- `ipc_receive_any` goes on to the next channel, or it comes back with nothing. -/
theorem Simulates.scan (h : Simulates code C n W s) (idle : s.outbox p = [])
    (polls : code p (s.loc p) = .poll sources onMessage onEmpty)
    (pipes : ∀ q, Carries C q (queues q) none (s.chan q p)) (msg : Message) (fr : Nat) :
    Scans code C n ((W.withInput p queues).resume p C.decode (pollNext n p fr) msg onMessage
      onEmpty) s p fr (3 * (n + 1 - fr) + 3) true := by
  rcases pollNext_cases n p fr with ⟨fr', reading, apart, ge, own⟩ | ⟨fr', returned, own⟩
  · rw [reading]
    refine .goesOn (h.input _ rfl rfl (fun _ _ _ => rfl) ⟨idle, ⟨apart, rfl⟩, _, _, _, polls⟩
      fun q => ?_) (Function.update_self _ _ _) (fun _ => ?_)
      fun q ge lt ne => absurd (own q ge lt) ne
    · rw [Status.under]
      split <;> exact pipes q
    · change 3 * (n + 1 - fr') + 2 < _
      omega
  · rw [returned]
    exact .empty (.pollEmpty idle polls) (h.pass pipes onEmpty) (Function.update_self _ _ _)
      fun q ge le ne => absurd (own q ge le) ne

/-- The pipes to `p` after a read from one of them. -/
theorem carries_update {fr : Nat} {queue : List Byte} {chan : Channels Nat M} {l : List M}
    (rest : ∀ q, fr ≠ q → Carries C q (W.queue q p) none (s.chan q p)) {status : Status}
    (ahead : ∀ q, fr ≠ q → status.under q = none) (pipe : Carries C fr queue (status.under fr) l)
    (first : chan fr p = l) (others : ∀ q, fr ≠ q → chan q p = s.chan q p) (q : Nat) :
    Carries C q (Function.update (fun q => W.queue q p) fr queue q) (status.under q)
      (chan q p) := by
  by_cases same : fr = q
  · subst same
    rw [Function.update_self, first]
    exact pipe
  · rw [Function.update_of_ne (Ne.symm same), ahead q same, others q same]
    exact rest q same

section Read

variable {fr : Nat} {call : ReceiveCall}

/-- A process in a receive, and the pipes to it. -/
theorem Simulates.reading (conveyed : Conveyed code s₀ C n capacity) (run : Run code s₀ ts s)
    (h : Simulates code C n W s)
    (status : W.status p = .polling fr call msg ∨ W.status p = .receiving fr call msg) :
    s.outbox p = [] ∧
      (∀ alive, Gets C fr alive (s.chan fr p) call msg
        (channelRead alive (W.queue fr p) call.readCall.count)) ∧
      ∀ q, fr ≠ q → Carries C q (W.queue q p) none (s.chan q p) := by
  have under (q : Nat) : (W.status p).under q = if fr = q then call.under msg else none := by
    rcases status with status | status <;> rw [status] <;> rfl
  have stands := h.stands p
  obtain ⟨idle, fresh⟩ : s.outbox p = [] ∧ call.Fresh := by
    rcases status with status | status <;> rw [status] at stands
    · exact ⟨stands.1, stands.2.1.2⟩
    · exact ⟨stands.1, stands.2.1⟩
  have pipe (q : Nat) := under q ▸ h.pipes q p
  refine ⟨idle, fun alive => ?_, fun q ne => ?_⟩
  · have first := pipe fr
    rw [if_pos rfl] at first
    have fits (m : M) (mem : m ∈ s.chan fr p) : C.Fits m :=
      conveyed.fits run fr p m (List.mem_append_left _ mem)
    exact first.read fresh fits alive
  · have other := pipe q
    rwa [if_neg ne] at other

/-- The message has been read, and `p` goes on with it. -/
theorem Simulates.take (h : Simulates code C n W s) {queue : List Byte} {m : M} {l : List M}
    (rest : ∀ q, fr ≠ q → Carries C q (W.queue q p) none (s.chan q p))
    (pipe : Carries C fr queue none l) (head : s.chan fr p = m :: l) (next : Next Nat σ M) :
    Simulates code C n
      ((W.withInput p (Function.update (fun q => W.queue q p) fr queue)).become p next)
      ((s.pop fr p).become p next) := by
  have first : (s.pop fr p).chan fr p = l :=
    (Channels.pop_head _ _ _).trans (congrArg List.tail head)
  have popped : Simulates code C n ((W.withInput p
      (Function.update (fun q => W.queue q p) fr queue)).withStatus p .running) (s.pop fr p) := by
    refine h.input .running rfl rfl (fun a b ne => Channels.pop_ne _ fun both => ne both.2) trivial
      (carries_update rest (fun _ _ => rfl) pipe first fun q ne => ?_)
    exact Channels.pop_ne _ fun both => ne both.1.symm
  have become := popped.become (Function.update_self _ _ _) next
  rwa [withStatus_become] at become

/-- A read in `ipc_receive_any`. -/
theorem Simulates.pollRead (conveyed : Conveyed code s₀ C n capacity) (run : Run code s₀ ts s)
    (h : Simulates code C n W s) (status : W.status p = .polling fr call msg)
    (polls : code p (s.loc p) = .poll sources onMessage onEmpty) (alive : Nat → Bool)
    {after : PollState}
    (read : PollState.read n p alive ⟨.reading fr call, msg, fun q => W.queue q p⟩ = after) :
    Scans code C n ((W.withInput p after.queues).resume p C.decode after.progress after.msg
      onMessage onEmpty) s p fr (readsLeft n fr call) (alive fr) := by
  obtain ⟨-, ⟨⟨le, other⟩, -⟩, -⟩ := status ▸ h.stands p
  obtain ⟨idle, gets, rest⟩ := h.reading conveyed run (.inl status)
  have gets := gets (alive fr)
  rw [PollState.read] at read
  dsimp only at read
  generalize channelRead (alive fr) (W.queue fr p) call.readCall.count = result at gets read
  obtain ⟨result, queue⟩ := result
  dsimp only at read
  cases gets with
  | @stays _ _ call' msg' body ahead pipe =>
    rw [body] at read
    subst read
    refine .goesOn (h.input _ rfl rfl (fun _ _ _ => rfl)
      ⟨idle, ⟨⟨le, other⟩, ahead.1⟩, _, _, _, polls⟩ ?_) (Function.update_self _ _ _)
      (fun living => Nat.add_lt_add_left (ahead.2 living).2 _)
      fun q ge lt => absurd ge (Nat.not_le.mpr lt)
    refine carries_update rest (fun q ne => ?_) ?_ rfl fun _ _ => rfl
    · rw [Status.under, if_neg ne]
    · rwa [Status.under, if_pos rfl]
  | nothing none_ body pipe =>
    rw [body] at read
    subst read
    have pipes : ∀ q, Carries C q (Function.update (fun q => W.queue q p) fr queue q)
        (Status.running.under q) (s.chan q p) :=
      carries_update rest (fun _ _ => rfl) pipe rfl fun _ _ => rfl
    refine (h.scan idle polls pipes _ (fr + 1)).passed none_ ?_ fun _ => rfl
    unfold readsLeft
    omega
  | @message _ _ m l msg' head body decoded pipe =>
    rw [body] at read
    subst read
    refine .message (.poll idle polls ((conveyed.scans polls fr).mpr ⟨le, other⟩) head) ?_
      (Function.update_self _ _ _)
    change Simulates code C n (PipedState.become _ p
      (if (0 : Int) = 0 then onMessage fr (C.decode msg') else onEmpty)) _
    rw [if_pos rfl, decoded]
    exact h.take rest pipe head _

/-- A receive of `p` from `q`, with fewer than `k` reads left. -/
inductive Awaits (code : Code Nat σ M) (C : Codec M) (n : Nat) (W : PipedState σ M)
    (s : State Nat σ M) (p q k : Nat) (alive : Bool) : Prop
  | goesOn {call : ReceiveCall} {msg : Message} :
      Simulates code C n W s → W.status p = .receiving q call msg →
      (alive = true → s.chan q p ≠ [] ∧ call.reads < k) → Awaits code C n W s p q k alive
  | empty {s'} : Step code s (.empty p) s' → Simulates code C n W s' → s.chan q p = [] →
      Awaits code C n W s p q k alive
  | message {m s'} : Step code s (.take p q m) s' → Simulates code C n W s' →
      Awaits code C n W s p q k alive

theorem Awaits.follows {k : Nat} {alive : Bool} (h : Awaits code C n W s p fr k alive) :
    Follows code C n W s := by
  cases h with
  | goesOn simulates => exact .inl simulates
  | empty step simulates => exact .inr ⟨_, _, step, simulates⟩
  | message step simulates => exact .inr ⟨_, _, step, simulates⟩

/-- A read in `receive`. -/
theorem Simulates.receiveRead (conveyed : Conveyed code s₀ C n capacity) (run : Run code s₀ ts s)
    (h : Simulates code C n W s) {onMsg : M → Next Nat σ M}
    (status : W.status p = .receiving fr call msg)
    (receives : code p (s.loc p) = .receive fr onMsg onEmpty) (alive : Bool)
    {result : ReadResult} {queue : List Byte}
    (read : channelRead alive (W.queue fr p) call.readCall.count = (result, queue)) :
    Awaits code C n ((W.withInput p (Function.update (fun q => W.queue q p) fr queue)).received p
      C.decode fr onMsg onEmpty (call.body msg result)) s p fr call.reads alive := by
  obtain ⟨idle, gets, rest⟩ := h.reading conveyed run (.inr status)
  have gets := read ▸ gets alive
  cases gets with
  | stays body ahead pipe =>
    rw [body]
    refine .goesOn (h.input _ rfl rfl (fun _ _ _ => rfl) ⟨idle, ahead.1, _, _, receives⟩ ?_)
      (Function.update_self _ _ _) ahead.2
    refine carries_update rest (fun q ne => ?_) ?_ rfl fun _ _ => rfl
    · rw [Status.under, if_neg ne]
    · rwa [Status.under, if_pos rfl]
  | nothing none_ body pipe =>
    rw [body, PipedState.received, if_pos rfl]
    have pipes : ∀ q, Carries C q (Function.update (fun q => W.queue q p) fr queue q)
        (Status.running.under q) (s.chan q p) :=
      carries_update rest (fun _ _ => rfl) pipe rfl fun _ _ => rfl
    exact .empty (.receiveEmpty idle receives none_) (h.pass pipes _) none_
  | @message _ _ m l msg' head body decoded pipe =>
    have fine : (0 : Int) ≠ ipcErrNonblockEmpty := by decide
    rw [body, PipedState.received, if_neg fine, if_pos rfl, decoded]
    exact .message (.receive idle receives head) (h.take rest pipe head _)

end Read

theorem transit_pending {q : Nat} {m : M} {rest : List (Nat × M)}
    (pending : s.outbox p = (q, m) :: rest) :
    s.transit p q = s.chan p q ++ m :: outTo rest q := by
  rw [State.transit, pending, outTo_cons, if_pos rfl]
  rfl

/-- There is room for the next message. -/
theorem Simulates.room (conveyed : Conveyed code s₀ C n capacity) (run : Run code s₀ ts s)
    (h : Simulates code C n W s) {q : Nat} {m : M} {rest : List (Nat × M)}
    (pending : s.outbox p = (q, m) :: rest) (encodes : C.Encodes p m msg) :
    (W.queue p q).length + (wire msg).length ≤ capacity := by
  have room := conveyed.room run p q
  have held := (h.pipes p q).length_le
  have size := C.length_le encodes
  rw [transit_pending pending, List.map_append, List.map_cons, List.sum_append,
    List.sum_cons] at room
  omega

/-- A step over pipes is a step of `Network`, or it changes nothing there. -/
theorem PipedStep.simulated (conveyed : Conveyed code s₀ C n capacity) (run : Run code s₀ ts s)
    (h : Simulates code C n W s) (step : PipedStep code C n capacity W W') :
    Follows code C n W' s := by
  cases step with
  | @write p q m rest msg running pending encodes room =>
    rw [h.outbox] at pending
    exact .inr ⟨_, _, .send pending, h.write running encodes⟩
  | @refused p q m rest msg running pending encodes refused =>
    rw [h.outbox] at pending
    rcases refused with full | exited
    · exact absurd full (Nat.not_lt.mpr (h.room conveyed run pending encodes))
    · have stopped := exited ▸ h.stands q
      refine absurd stopped.2 (conveyed.awaited run p q ?_)
      rw [transit_pending pending]
      exact List.append_ne_nil_of_right_ne_nil _ (List.cons_ne_nil _ _)
  | act running idle entry =>
    rw [h.outbox] at idle
    rw [h.loc] at entry
    exact .inr ⟨_, _, .act idle entry, h.become running _⟩
  | @poll p sources onMessage onEmpty msg running idle polls =>
    rw [h.outbox] at idle
    rw [h.loc] at polls
    have pipes (q : Nat) : Carries C q (W.queue q p) none (s.chan q p) := by
      have pipe := h.pipes q p
      rwa [running] at pipe
    have scan : Follows code C n ((W.withInput p fun q => W.queue q p).resume p C.decode
        (pollNext n p 0) msg onMessage onEmpty) s := (h.scan idle polls pipes msg 0).follows
    rwa [withInput_self] at scan
  | pollRead status polls opened read =>
    rw [h.loc] at polls
    exact (h.pollRead conveyed run status polls _ read).follows
  | @receive p q onMessage onEmpty msg running idle receives =>
    rw [h.outbox] at idle
    rw [h.loc] at receives
    refine .inl (h.withStatus ⟨idle, rfl, _, _, receives⟩ fun a => ?_)
    rw [running, Status.under]
    split <;> rfl
  | receiveRead status receives opened read =>
    rw [h.loc] at receives
    exact (h.receiveRead conveyed run status receives _ read).follows
  | exit running idle stop =>
    rw [h.outbox] at idle
    rw [h.loc] at stop
    exact .inl (h.withStatus ⟨idle, stop⟩ fun _ => by rw [running]; rfl)

end Steps

/-- What goes on over pipes goes on over FIFO channels. -/
theorem Simulates.continues {W W' : PipedState σ M} {s₀ s : State Nat σ M}
    {ts : List (Transition Nat σ M)} (conveyed : Conveyed code s₀ C n capacity)
    (run : Run code s₀ ts s) (h : Simulates code C n W s)
    (piped : PipedRun code C n capacity W W') :
    ∃ ts' s', Run code s ts' s' ∧ Simulates code C n W' s' := by
  induction piped with
  | nil => exact ⟨[], s, .nil, h⟩
  | snoc _ step ih =>
    obtain ⟨ts', s', run', simulates⟩ := ih
    rcases step.simulated conveyed (run.trans run') simulates with
      simulates | ⟨e, s'', step, simulates⟩
    · exact ⟨ts', s', run', simulates⟩
    · exact ⟨_, s'', run'.snoc step, simulates⟩

/-- What happens over pipes happens over FIFO channels. -/
theorem PipedRun.simulated {loc : Nat → σ} {W : PipedState σ M}
    (conveyed : Conveyed code (State.initial loc) C n capacity)
    (run : PipedRun code C n capacity (.initial loc) W) :
    ∃ ts s, Run code (State.initial loc) ts s ∧ Simulates code C n W s :=
  (Simulates.initial loc).continues conveyed .nil run

end Distra.Ipc
