import Distra.Pa23.Steps

/-!
# What is in the channels

Apart from the transfer under way, a process sends every other one the same few messages, in the
same order, and they are taken in that order (`script`). As long as every `DONE` is taken by
`ipc_ext_await_all_done`, the program points of its two ends tell what a channel holds.
-/

namespace Distra.Pa23

open Network

variable {δ : Type}

/-- What the control flow needs to know of the pieces of code. -/
structure BankCode.Lawful (B : BankCode δ) : Prop where
  childSyncStarted : ∀ n p d,
    ∃ t, (B.childSyncStarted n p d).2 = sendMulticast n p ⟨.started, t⟩
  childSyncDone : ∀ n p d, ∃ t, (B.childSyncDone n p d).2 = sendMulticast n p ⟨.done, t⟩
  sendHistory : ∀ d, ∃ h t, (B.sendHistory d).2 = [(parentId, ⟨.balanceHistory h, t⟩)]
  transfer : ∀ d order, ∃ t, (B.transfer d order).2 = [(order.src, ⟨.transfer order, t⟩)]
  sendStop : ∀ n d, ∃ t, (B.sendStop n d).2 = sendMulticast n parentId ⟨.stop, t⟩
  childLoop : ∀ p d m, ∀ x ∈ (B.childLoop p d m).2.2, x.2.body.type ≠ .balanceHistory
  stop : ∀ p d t, ∃ d', B.childLoop p d ⟨.stop, t⟩ = (.breaks, d', [])
  transferOut : ∀ p d order t, order.src = p → ∃ d' t',
    B.childLoop p d ⟨.transfer order, t⟩ = (.goesOn, d', [(order.dst, ⟨.transfer order, t'⟩)])
  transferIn : ∀ p d order t, order.src ≠ p → order.dst = p → ∃ d' t',
    B.childLoop p d ⟨.transfer order, t⟩ = (.goesOn, d', [(parentId, ⟨.ack, t'⟩)])

/-- The messages that `a` sends to `b` once. -/
def script (a b : Nat) : List MessageType :=
  if a = parentId then [.stop]
  else if b = parentId then [.started, .done, .balanceHistory]
  else [.started, .done]

/-- How many of them process `p` has sent. -/
def Pc.sent (p : Nat) : Pc → Nat
  | .childSyncStarted | .bankRobbery _ | .awaitAck _ _ => 0
  | .awaitAllStarted _ => if p = parentId then 0 else 1
  | .receiveAny _ | .childSyncDone | .receiveHistories _ => 1
  | .awaitAllDone _ => if p = parentId then 1 else 2
  | .exited => if p = parentId then 1 else 3
  | .panicked | .aborted => 0

/-- How many of those of `q` process `p` has taken. -/
def Pc.taken (p q : Nat) : Pc → Nat
  | .childSyncStarted => 0
  | .awaitAllStarted fr => if fr < q then 0 else if q = parentId then 0 else 1
  | .receiveAny _ => if q = parentId then 0 else 1
  | .bankRobbery _ | .awaitAck _ _ | .childSyncDone => 1
  | .awaitAllDone fr => if fr < q then 1 else if q = parentId then 1 else 2
  | .receiveHistories fr => if fr < q then 2 else 3
  | .exited => if q = parentId then 1 else if p = parentId then 3 else 2
  | .panicked | .aborted => 0

/-- Where process `p` may stand. -/
def Pc.Role (n p : Nat) : Pc → Prop
  | .childSyncStarted | .childSyncDone => p ≠ parentId
  | .receiveAny fr => p ≠ parentId ∧ fr ≤ n ∧ fr ≠ p
  | .awaitAllStarted _ | .awaitAllDone _ | .exited => True
  | .bankRobbery orders => p = parentId ∧ ∀ order ∈ orders, order.Valid n
  | .awaitAck order orders => p = parentId ∧ order.Valid n ∧ ∀ order ∈ orders, order.Valid n
  | .receiveHistories _ => p = parentId
  | .panicked | .aborted => False

/-- The message of the transfer under way. -/
inductive Flight where
  | none
  | toSrc (order : TransferOrder)
  | toDst (order : TransferOrder)
  | ack (order : TransferOrder)

def Flight.types : Flight → Nat → Nat → List MessageType
  | .none, _, _ => []
  | .toSrc order, a, b => if a = parentId ∧ b = order.src then [.transfer] else []
  | .toDst order, a, b => if a = order.src ∧ b = order.dst then [.transfer] else []
  | .ack order, a, b => if a = order.dst ∧ b = parentId then [.ack] else []

section Types

variable {order : TransferOrder} {a b : Nat} {type : MessageType}

theorem Flight.mem_toSrc (mem : type ∈ (Flight.toSrc order).types a b) :
    type = .transfer ∧ a = parentId ∧ b = order.src := by
  simp only [types] at mem
  split at mem
  next eq => exact ⟨List.mem_singleton.mp mem, eq⟩
  next => cases mem

theorem Flight.mem_toDst (mem : type ∈ (Flight.toDst order).types a b) :
    type = .transfer ∧ a = order.src ∧ b = order.dst := by
  simp only [types] at mem
  split at mem
  next eq => exact ⟨List.mem_singleton.mp mem, eq⟩
  next => cases mem

theorem Flight.mem_ack (mem : type ∈ (Flight.ack order).types a b) :
    type = .ack ∧ a = order.dst ∧ b = parentId := by
  simp only [types] at mem
  split at mem
  next eq => exact ⟨List.mem_singleton.mp mem, eq⟩
  next => cases mem

end Types

/-- The transfer of which a `TRANSFER` is under way. -/
def Flight.order : Flight → Option TransferOrder
  | .toSrc order | .toDst order => some order
  | _ => Option.none

/-- The child whose message is under way. -/
def Flight.sender : Flight → Option Nat
  | .toDst order => some order.src
  | .ack order => some order.dst
  | _ => Option.none

/-- A transfer is under way while the parent waits for its end. -/
def Flight.Of (flight : Flight) : Pc → Prop
  | .awaitAck order _ => flight = .toSrc order ∨ flight = .toDst order ∨ flight = .ack order
  | _ => flight = .none

/-- The channel from `a` to `b` holds what has been sent and not taken, and then the message under
way. -/
structure Fits (flight : Flight) (a b : Nat) (pca pcb : Pc) (types : List MessageType) : Prop where
  le : pcb.taken b a ≤ pca.sent a
  eq : types = ((script a b).take (pca.sent a)).drop (pcb.taken b a) ++ flight.types a b

section Fits

variable {flight flight' : Flight} {a b : Nat} {pca pca' pcb pcb' : Pc}
  {types rest : List MessageType} {x : MessageType}

theorem Fits.move (h : Fits flight a b pca pcb types) (sent : pca'.sent a = pca.sent a)
    (taken : pcb'.taken b a = pcb.taken b a) (same : flight'.types a b = flight.types a b) :
    Fits flight' a b pca' pcb' types := by
  constructor
  · rw [sent, taken]
    exact h.le
  · rw [sent, taken, same]
    exact h.eq

/-- `a` sends its next message. -/
theorem Fits.emit (h : Fits flight a b pca pcb types) (sent : pca'.sent a = pca.sent a + 1)
    (empty : flight.types a b = []) :
    Fits flight a b pca' pcb (types ++ (script a b)[pca.sent a]?.toList) := by
  refine ⟨by rw [sent]; exact Nat.le_succ_of_le h.le, ?_⟩
  rw [h.eq, empty, sent, List.append_nil, List.append_nil, List.take_add_one]
  by_cases more : pca.sent a < (script a b).length
  · rw [List.drop_append_of_le_length]
    rw [List.length_take, Nat.min_eq_left more.le]
    exact h.le
  · rw [List.getElem?_eq_none (not_lt.mp more)]
    simp

/-- The next message of the sender comes before the one under way. -/
theorem Fits.head (h : Fits flight a b pca pcb (x :: rest)) (waits : pcb.taken b a < pca.sent a)
    (short : pcb.taken b a < (script a b).length) : (script a b)[pcb.taken b a]? = some x := by
  have eq := h.eq
  have more : pcb.taken b a < ((script a b).take (pca.sent a)).length := by
    rw [List.length_take]
    exact lt_min waits short
  rw [List.drop_eq_getElem_cons more] at eq
  rw [(List.cons.inj eq).1, List.getElem_take]
  exact List.getElem?_eq_getElem short

/-- Where the receiver is up to date, the head of a channel is the message under way. -/
theorem Fits.head_flight (h : Fits flight a b pca pcb (x :: rest))
    (waits : pca.sent a ≤ pcb.taken b a) : flight.types a b = x :: rest := by
  have past : ((script a b).take (pca.sent a)).drop (pcb.taken b a) = [] := by
    apply List.drop_eq_nil_of_le
    exact (List.length_take_le _ _).trans waits
  have eq := h.eq
  rw [past] at eq
  exact eq.symm

/-- `b` takes the next message of `a`. -/
theorem Fits.absorb (h : Fits flight a b pca pcb (x :: rest))
    (script_ : (script a b)[pcb.taken b a]? = some x) (waits : pcb.taken b a < pca.sent a)
    (taken : pcb'.taken b a = pcb.taken b a + 1) : Fits flight a b pca pcb' rest := by
  refine ⟨by omega, ?_⟩
  have eq := h.eq
  have more : pcb.taken b a < ((script a b).take (pca.sent a)).length := by
    rw [List.length_take]
    exact lt_min waits (List.getElem?_eq_some_iff.mp script_).1
  rw [List.drop_eq_getElem_cons more] at eq
  rw [taken]
  exact (List.cons.inj eq).2

/-- `a` sends the message of a transfer. -/
theorem Fits.launch (h : Fits flight a b pca pcb types) (sent : pca'.sent a = pca.sent a)
    (empty : flight.types a b = []) :
    Fits flight' a b pca' pcb (types ++ flight'.types a b) := by
  constructor
  · rw [sent]
    exact h.le
  · rw [h.eq, empty, sent, List.append_nil]

/-- `b` takes the message of a transfer. -/
theorem Fits.land (h : Fits flight a b pca pcb (x :: rest)) (waits : pca.sent a ≤ pcb.taken b a)
    (one : flight.types a b = [x]) (taken : pcb'.taken b a = pcb.taken b a)
    (empty : flight'.types a b = []) : Fits flight' a b pca pcb' rest := by
  have past : ((script a b).take (pca.sent a)).drop (pcb.taken b a) = [] := by
    apply List.drop_eq_nil_of_le
    exact (List.length_take_le _ _).trans waits
  have eq := h.eq
  rw [past, one, List.nil_append] at eq
  constructor
  · rw [taken]
    exact h.le
  · rw [taken, past, empty]
    exact (List.cons.inj eq).2

/-- What has been sent and not taken is in the channel. -/
theorem Fits.nonempty (h : Fits flight a b pca pcb types) (waits : pcb.taken b a < pca.sent a)
    (short : pcb.taken b a < (script a b).length) : types ≠ [] := by
  rw [h.eq]
  apply List.append_ne_nil_of_left_ne_nil
  apply List.ne_nil_of_length_pos
  rw [List.length_drop, List.length_take]
  omega

end Fits

end Distra.Pa23
