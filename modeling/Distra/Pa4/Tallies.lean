import Distra.Pa4.Departures
import Mathlib.Tactic.Ring

/-!
# The messages that critical sections cost

A child sends one `CS_REQUEST` to every other child for each critical section, and every
`CS_REQUEST` that is taken leads to one `CS_REPLY`. What a mutex owes and what it sends when it
leaves are its own.
-/

namespace Distra

open Network

variable {μ : Type} {cfg : Config} {M : MutexCode μ}

/-- The critical sections for which a child at this point has sent its requests. -/
def Pc.asked (self : Nat) (pc : Pc) : Nat :=
  pc.entries self + if pc.phase = .waiting then 1 else 0

/-- The critical sections that a child at this point has left. -/
def Pc.left (self : Nat) (pc : Pc) : Nat :=
  pc.entries self - if pc.phase = .inside then 1 else 0

theorem Pc.Finished.asked {pc : Pc} (h : pc.Finished) (self : Nat) : pc.asked self = 5 * self := by
  rcases h with rfl | rfl <;> rfl

theorem Pc.Finished.left {pc : Pc} (h : pc.Finished) (self : Nat) : pc.left self = 5 * self := by
  rcases h with rfl | rfl <;> rfl

/-- How a mutex keeps its books: the replies that it owes, and the `CS_RELEASE`s that it has sent to
each of the others. -/
structure Books (μ : Type) where
  owed : Process μ → Nat → Nat
  released : Nat → Pc → Nat

/-- The entries of a step of `p` that concern `q`. -/
structure Booked (B : Books μ) (p q : Nat) (st : Process μ) (input : Option (Nat × Message))
    (next : Next Nat (Process μ) Message) : Prop where
  requests : ofType .csRequest (outTo next.2 q) + st.pc.asked p = next.1.pc.asked p
  replies : ofType .csReply (outTo next.2 q) + B.owed next.1 q =
    B.owed st q + ofType .csRequest (outTo input.toList q)
  releases : ofType .csRelease (outTo next.2 q) + B.released p st.pc = B.released p next.1.pc

/-- The books of every child are right. -/
structure Balanced (B : Books μ) (cfg : Config) (v : ProcessView μ)
    (t : Traffic Nat (Process μ) Message) (p q : Nat) : Prop where
  requests : ofType .csRequest ((t.sent p q).map Prod.snd) = (v.loc p).pc.asked p
  replies : ofType .csReply ((t.sent p q).map Prod.snd) + B.owed (v.loc p) q =
    ofType .csRequest (t.taken p q)
  releases : ofType .csRelease ((t.sent p q).map Prod.snd) = B.released p (v.loc p).pc

section Balanced

variable {B : Books μ} {p q : Nat} {st : Process μ} {v : ProcessView μ}
  {input : Option (Nat × Message)} {next : Next Nat (Process μ) Message}
  {t : Traffic Nat (Process μ) Message}

theorem Balanced.step (h : Balanced B cfg v t p q) (booked : Booked B p q (v.loc p) input next) :
    Balanced B cfg ((v.consume p input).become p next) (t.step p input next) p q := by
  have sent : ((t.step p input next).sent p q).map Prod.snd =
      (t.sent p q).map Prod.snd ++ outTo next.2 q := by
    simp [Traffic.step, Function.comp_def]
  have taken : (t.step p input next).taken p q = t.taken p q ++ outTo input.toList q :=
    congrArg (t.taken p q ++ ·) (if_pos rfl)
  have loc : ((v.consume p input).become p next).loc p = next.1 := by
    rw [View.consume_become_loc, if_pos rfl]
  have requests := h.requests
  have replies := h.replies
  have releases := h.releases
  have requests' := booked.requests
  have replies' := booked.replies
  have releases' := booked.releases
  refine ⟨?_, ?_, ?_⟩ <;> simp only [sent, taken, loc, ofType_append] <;> omega

/-- The others' steps leave the books of `p` alone. -/
theorem Balanced.other {a : Nat} (h : Balanced B cfg v t a q) (ne : a ≠ p) :
    Balanced B cfg ((v.consume p input).become p next) (t.step p input next) a q := by
  have sent : (t.step p input next).sent a q = t.sent a q := by simp [Traffic.step, ne]
  have taken : (t.step p input next).taken a q = t.taken a q := by simp [Traffic.step, ne]
  have loc : ((v.consume p input).become p next).loc a = v.loc a := by
    rw [View.consume_become_loc, if_neg ne]
  refine ⟨?_, ?_, ?_⟩ <;> rw [sent, loc]
  · exact h.requests
  · rw [taken]
    exact h.replies
  · exact h.releases

/-- Every run keeps the books that every step keeps. -/
theorem MutexRun.balanced (leaves : M.Leaves cfg)
    (opens : ∀ p q, B.owed (initialProcess cfg M p) q = 0 ∧ B.released p .childSyncStarted = 0)
    (booked : ∀ (r : MutexRun cfg M) p q input next, IsChild cfg.numChildren p →
      IsChild cfg.numChildren q → q ≠ p → Ready cfg r.final.view p input →
      LocalStep cfg M p (r.final.loc p) input next → Booked B p q (r.final.loc p) input next)
    (r : MutexRun cfg M) : ∀ p q, IsChild cfg.numChildren p → IsChild cfg.numChildren q → q ≠ p →
      Balanced B cfg r.final.view r.traffic p q := by
  refine MutexRun.induction_traffic leaves.unfailing (J := fun v t => ∀ p q,
    IsChild cfg.numChildren p → IsChild cfg.numChildren q → q ≠ p → Balanced B cfg v t p q)
    ?_ ?_ ?_ r
  · intro p q child _ _
    have pc : ((initialState cfg M).view.loc p).pc = .childSyncStarted := by
      simp [initialState, initialProcess, child.ne_parent]
    refine ⟨?_, ?_, ?_⟩
    · rw [pc]
      rfl
    · exact (Nat.zero_add _).trans (opens p q).1
    · rw [pc, (opens p q).2]
      rfl
  · intro r p input next inv child ready step a q ha hq ne
    by_cases actor : a = p
    · subst actor
      exact (inv a q ha hq ne).step (booked r a q input next ha hq ne ready step)
    · exact (inv a q ha hq ne).other actor
  · intro r input st inv _ _ _ a q ha hq ne
    exact (inv a q ha hq ne).other ha.ne_parent

end Balanced

/-! ## All critical sections together -/

/-- The messages of a type that `p` has sent to `q`, what is still in its buffer included. -/
def MutexRun.sentOf (r : MutexRun cfg M) (type : MessageType) (p q : Nat) : Nat :=
  ofType type ((r.traffic.sent p q).map Prod.snd)

/-- The CS messages that the children have sent to each other. -/
def MutexRun.csMessages (r : MutexRun cfg M) : Nat :=
  ∑ p ∈ Finset.Icc 1 cfg.numChildren, ∑ q ∈ peers cfg.numChildren p,
    ((r.traffic.sent p q).map Prod.snd).countP fun m => m.type.IsCs

theorem countP_isCs (l : List Message) : (l.countP fun m => m.type.IsCs) =
    ofType .csRequest l + ofType .csReply l + ofType .csRelease l := by
  induction l with
  | nil => rfl
  | cons m l ih =>
    rw [List.countP_cons, ih]
    cases type : m.type <;> simp [ofType, type, MessageType.IsCs] <;> omega

/-- A sum over the children that are not `p`, for every `p`. -/
theorem sum_peers (n : Nat) (f : Nat → Nat) :
    ∑ p ∈ Finset.Icc 1 n, ∑ q ∈ peers n p, f q = ∑ p ∈ Finset.Icc 1 n, (n - 1) * f p := by
  have swap : ∑ p ∈ Finset.Icc 1 n, ∑ q ∈ peers n p, f q =
      ∑ q ∈ Finset.Icc 1 n, ∑ _p ∈ peers n q, f q := by
    refine Finset.sum_comm' fun p q => ?_
    simp only [mem_peers, Finset.mem_Icc, IsChild]
    constructor <;> rintro ⟨_, _⟩ <;> omega
  rw [swap]
  refine Finset.sum_congr rfl fun q mem => ?_
  rw [Finset.sum_const_nat fun _ _ => rfl, card_peers (Finset.mem_Icc.mp mem)]

theorem MutexRun.sum_entries {stamp : Nat → Process μ → Nat} (r : MutexRun cfg M)
    (counted : Counted cfg r.final.view (r.observations stamp))
    (exited : ∀ p, IsChild cfg.numChildren p → (r.final.loc p).pc = .exited) :
    ∑ p ∈ Finset.Icc 1 cfg.numChildren, entriesBy p (r.observations stamp) =
      ∑ p ∈ Finset.Icc 1 cfg.numChildren, 5 * p := by
  refine Finset.sum_congr rfl fun p mem => ?_
  have child : IsChild cfg.numChildren p := Finset.mem_Icc.mp mem
  rw [(counted p child).2, State.view_loc, exited p child, Pc.entries]

/-- When all children have ended, every one has sent `k` releases and, as a request or as a reply,
two messages to every other one for each critical section. -/
theorem MutexRun.csMessages_of_exited (leaves : M.Leaves cfg) (r : MutexRun cfg M) {B : Books μ}
    {k : Nat} (balanced : ∀ p q, IsChild cfg.numChildren p → IsChild cfg.numChildren q → q ≠ p →
      Balanced B cfg r.final.view r.traffic p q)
    (exited : ∀ p, IsChild cfg.numChildren p → (r.final.loc p).pc = .exited)
    (nothing : ∀ p q, IsChild cfg.numChildren p → IsChild cfg.numChildren q → q ≠ p →
      B.owed (r.final.loc p) q = 0)
    (released : ∀ p, B.released p .exited = k * (5 * p)) :
    r.csMessages = (2 + k) * (cfg.numChildren - 1) * ∑ p ∈ Finset.Icc 1 cfg.numChildren, 5 * p := by
  have asked {p : Nat} (child : IsChild cfg.numChildren p) :
      (r.final.view.loc p).pc.asked p = 5 * p := Pc.Finished.asked (.inr (exited p child)) p
  have each : r.csMessages = ∑ p ∈ Finset.Icc 1 cfg.numChildren,
      ∑ q ∈ peers cfg.numChildren p, ((1 + k) * (5 * p) + 5 * q) := by
    refine Finset.sum_congr rfl fun p mem => Finset.sum_congr rfl fun q peer => ?_
    have child : IsChild cfg.numChildren p := Finset.mem_Icc.mp mem
    obtain ⟨ne, qchild⟩ := mem_peers.mp peer
    have books := balanced p q child qchild ne
    have peerBooks := balanced q p qchild child ne.symm
    have replies := books.replies
    have releases := books.releases
    rw [State.view_loc, nothing p q child qchild ne] at replies
    rw [State.view_loc, exited p child, released] at releases
    -- Every request to `p` has been taken.
    have taken := congrArg (ofType .csRequest) (r.sent_eq q p)
    rw [State.view_chan, r.transit_eq_nil leaves child.2 (exited p child), List.append_nil,
      peerBooks.requests, asked qchild] at taken
    rw [countP_isCs, books.requests, asked child, releases, Nat.add_mul]
    omega
  have own : ∀ p ∈ Finset.Icc 1 cfg.numChildren,
      ∑ _q ∈ peers cfg.numChildren p, (1 + k) * (5 * p) =
        (cfg.numChildren - 1) * ((1 + k) * (5 * p)) := by
    intro p mem
    rw [Finset.sum_const_nat fun _ _ => rfl, card_peers (Finset.mem_Icc.mp mem)]
  simp only [each, Finset.sum_add_distrib]
  rw [Finset.sum_congr rfl own, sum_peers, ← Finset.sum_add_distrib, Finset.mul_sum]
  refine Finset.sum_congr rfl fun p _ => ?_
  ring

/-! ## What a child sends at most -/

/-- The messages from `a` to `b`: the announcements, the requests and the `k` releases for the
critical sections of `a`, and the replies for those of `b`. -/
def share (k a b : Nat) : Nat :=
  if a = parentId ∨ a = b then 0 else if b = parentId then 2 else 2 + ((1 + k) * (5 * a) + 5 * b)

theorem share_le (k : Nat) {n a b : Nat} (ha : a ≤ n) (hb : b ≤ n) :
    share k a b ≤ 2 + ((1 + k) * (5 * n) + 5 * n) := by
  have asked := Nat.mul_le_mul_left (1 + k) (Nat.mul_le_mul_left 5 ha)
  unfold share
  split
  · omega
  · split <;> omega

theorem Pc.asked_le {pc : Pc} {self : Nat} (range : pc.InRange self) :
    pc.asked self ≤ 5 * self := by
  cases pc <;> simp [Pc.asked, Pc.entries, Pc.phase, Pc.InRange] at range ⊢ <;> omega

theorem length_eq_announcements (l : List Message) :
    l.length = (announcements l).length + l.countP fun m => m.type.IsCs := by
  induction l with
  | nil => rfl
  | cons m l ih =>
    rw [List.length_cons, ih, List.countP_cons]
    by_cases cs : m.type.IsCs <;> simp [announcements, cs] <;> omega

theorem MutexRun.length_sent_le (leaves : M.Leaves cfg) {B : Books μ} {k : Nat}
    (balanced : ∀ r : MutexRun cfg M, ∀ p q, IsChild cfg.numChildren p →
      IsChild cfg.numChildren q → q ≠ p → Balanced B cfg r.final.view r.traffic p q)
    (range : ∀ (r : MutexRun cfg M) p, IsChild cfg.numChildren p → (r.final.loc p).pc.InRange p)
    (released : ∀ p pc, pc.InRange p → B.released p pc ≤ k * (5 * p)) (r : MutexRun cfg M)
    (a b : Nat) : (r.traffic.sent a b).length ≤ share k a b := by
  have announces := r.announces leaves
  have announced := announces.announced
  have nothing (none_ : r.traffic.sent a b = []) : (r.traffic.sent a b).length ≤ share k a b := by
    rw [none_]
    exact Nat.zero_le _
  by_cases child : IsChild cfg.numChildren a
  swap
  · exact nothing (announced.silent a b child)
  by_cases own : a = b
  · subst own
    exact nothing (announced.own a)
  by_cases le : b ≤ cfg.numChildren
  swap
  · exact nothing (announced.within a b (Nat.not_le.mp le))
  have parts := length_eq_announcements ((r.traffic.sent a b).map Prod.snd)
  have two : (announcements ((r.traffic.sent a b).map Prod.snd)).length ≤ 2 := by
    rw [announced.sent a b child le (Ne.symm own)]
    exact (Pc.announced_prefix _).length_le
  rw [List.length_map] at parts
  rw [share, if_neg (not_or.mpr ⟨child.ne_parent, own⟩)]
  split
  next parent =>
    subst parent
    have none_ : ((r.traffic.sent a parentId).map Prod.snd).countP (fun m => m.type.IsCs) = 0 := by
      rw [List.countP_eq_zero]
      intro m mem
      obtain ⟨x, member, rfl⟩ := List.mem_map.mp mem
      simpa using announced.parent a x member
    omega
  next other =>
    have bchild : IsChild cfg.numChildren b := ⟨Nat.pos_of_ne_zero other, le⟩
    have books := balanced r a b child bchild (Ne.symm own)
    have peerBooks := balanced r b a bchild child own
    have asked := Pc.asked_le (range r a child)
    have peerAsked := Pc.asked_le (range r b bchild)
    have left := released a _ (range r a child)
    have replies := books.replies
    -- A reply answers a request that has been sent.
    have taken := congrArg (ofType .csRequest) (r.sent_eq b a)
    rw [ofType_append, peerBooks.requests] at taken
    rw [countP_isCs, books.requests, books.releases] at parts
    rw [State.view_loc] at *
    rw [Nat.add_mul, Nat.one_mul]
    omega

section Counting

variable {type : MessageType} {p q : Nat} {m : Message} {out : Sends}

theorem ofType_outTo_single :
    ofType type (outTo [(p, m)] q) = if p = q ∧ m.type = type then 1 else 0 := by
  by_cases receiver : p = q
  · by_cases same : m.type = type <;> simp [outTo_cons, ofType, receiver, same]
  · simp [outTo_cons, receiver]

theorem ofType_outTo_multicast {n : Nat} (child : IsChild n q) (ne : q ≠ p) :
    ofType type (outTo (ipcMulticastToChildren n p m) q) = if m.type = type then 1 else 0 := by
  rw [outTo_multicastToChildren child, if_neg ne]
  by_cases same : m.type = type <;> simp [ofType, same]

theorem ofType_outTo_other (other : ∀ x ∈ out, x.2.type ≠ type) : ofType type (outTo out q) = 0 :=
  ofType_eq_zero.mpr fun _ mem => other _ (mem_outTo.mp mem)

end Counting

end Distra
