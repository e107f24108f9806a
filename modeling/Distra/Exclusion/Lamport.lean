import Distra.Exclusion.Messages
import Distra.Exclusion.Order
import Distra.Network.Channels
import Mathlib.Data.Fintype.Card

/-!
# Lamport's mutual exclusion

The algorithm for a finite set of processes with FIFO channels. A request is stamped with its
sender's clock; a process enters when every other one has answered its request and no request that
it knows of comes before its own. `served` records the requests granted so far.

All of the invariant is about one ordered pair of processes, a requester and one of its peers. So
it is stated for the pair as it stands alone (`Link`), where a step has few effects.
-/

namespace Distra.Exclusion

namespace Lamport

open Network

/-- The record `x` of a sender's request, 0 for none, after the messages of `l`. It fails on a
second request and on a release without a request. -/
def replay : ℕ → List Msg → Option ℕ
  | x, [] => some x
  | x, .request t :: l => if x = 0 ∧ t ≠ 0 then replay t l else none
  | x, .release _ :: l => if x ≠ 0 then replay 0 l else none
  | x, .reply _ :: l => replay x l

theorem replay_append (x : ℕ) (l l' : List Msg) :
    replay x (l ++ l') = (replay x l).bind (fun y => replay y l') := by
  induction l generalizing x with
  | nil => rfl
  | cons m l ih =>
    cases m with
    | request t =>
      simp only [List.cons_append, replay]
      split
      · exact ih t
      · rfl
    | reply t => exact ih x
    | release t =>
      simp only [List.cons_append, replay]
      split
      · exact ih 0
      · rfl

/-- Without a request on the way, a standing request is already on record. -/
theorem record_of_replay {x y : ℕ} {l : List Msg} (h : replay x l = some y) (standing : y ≠ 0)
    (clean : requests l = 0) : x = y := by
  induction l generalizing x with
  | nil => exact Option.some.inj h
  | cons m l ih =>
    cases m with
    | request t => simp at clean
    | reply t => exact ih h (by simpa using clean)
    | release t =>
      simp only [replay] at h
      split at h
      · exact absurd (ih h (by simpa using clean)) (Ne.symm standing)
      · cases h

/-! ## A requester and one peer -/

/-- The requester's phase, request and clock, the peer's clock and its record of the request, and
the channels from the requester to the peer and back. -/
structure Link where
  phase : Phase
  request : ℕ
  clock : ℕ
  peer : ℕ
  known : ℕ
  out : List Msg
  back : List Msg

/-- Neither the request nor the reply to it is on its way. -/
def Link.Settled (l : Link) : Prop := requests l.out = 0 ∧ replies l.back = 0

instance (l : Link) : Decidable l.Settled := inferInstanceAs (Decidable (_ ∧ _))

structure Link.Inv (l : Link) : Prop where
  record : replay l.known l.out = some l.request
  single : requests l.out + replies l.back ≤ 1
  settled : l.phase ≠ .waiting → l.Settled
  stamp : ∀ t, .request t ∈ l.out → t = l.request
  sorted : l.out.Pairwise (fun m m' => m.time < m'.time)
  bounded : ∀ m ∈ l.out, m.time ≤ l.clock
  backSorted : l.back.Pairwise (fun m m' => m.time < m'.time)
  backBounded : ∀ m ∈ l.back, m.time ≤ l.peer
  /-- Once the peer has seen the request, all it sends from the reply on is stamped later. -/
  later : l.phase ≠ .idle → requests l.out = 0 → l.request < l.peer ∧
    (∀ t, .reply t ∈ l.back → l.request < t) ∧
    (replies l.back = 0 → ∀ m ∈ l.back, l.request < m.time)

namespace Link

variable {l : Link} {t u : ℕ} {m : Msg} {rest : List Msg}

theorem pairwise_snoc {l : List Msg} {m : Msg} {t : ℕ}
    (sorted : l.Pairwise (fun m m' => m.time < m'.time)) (bounded : ∀ x ∈ l, x.time ≤ t)
    (lt : t < m.time) : (l ++ [m]).Pairwise (fun m m' => m.time < m'.time) := by
  refine List.pairwise_append.mpr ⟨sorted, List.pairwise_singleton _ _, fun x hx y hy => ?_⟩
  rw [List.mem_singleton.mp hy]
  exact Nat.lt_of_le_of_lt (bounded x hx) lt

theorem bounded_snoc {l : List Msg} {m : Msg} {t : ℕ} (bounded : ∀ x ∈ l, x.time ≤ t)
    (lt : t < m.time) : ∀ x ∈ l ++ [m], x.time ≤ m.time := by
  intro x hx
  rcases List.mem_append.mp hx with hx | hx
  · exact Nat.le_of_lt (Nat.lt_of_le_of_lt (bounded x hx) lt)
  · rw [List.mem_singleton.mp hx]

theorem Inv.tick (h : l.Inv) (le : l.clock ≤ t) : Inv { l with clock := t } :=
  { h with
    bounded := fun m hm => Nat.le_trans (h.bounded m hm) le }

theorem Inv.tickPeer (h : l.Inv) (le : l.peer ≤ t) : Inv { l with peer := t } :=
  { h with
    backBounded := fun m hm => Nat.le_trans (h.backBounded m hm) le
    later := fun active clean => by
      obtain ⟨lt, rest⟩ := h.later active clean
      exact ⟨Nat.lt_of_lt_of_le lt le, rest⟩ }

/-- The requester asks. -/
theorem Inv.ask (h : l.Inv) (idle : l.phase = .idle) (none_ : l.request = 0) (lt : l.clock < t) :
    Inv { l with phase := .waiting, request := t, clock := t, out := l.out ++ [.request t] } := by
  obtain ⟨noRequest, noReply⟩ := h.settled (by simp [idle])
  have pos : t ≠ 0 := Nat.ne_of_gt (Nat.zero_lt_of_lt lt)
  refine ⟨?_, ?_, by simp, ?_, pairwise_snoc h.sorted h.bounded lt,
    bounded_snoc h.bounded lt, h.backSorted, h.backBounded, ?_⟩
  · rw [replay_append, h.record, none_]
    simp [replay, pos]
  · simp [noRequest, noReply]
  · intro t' mem
    rcases List.mem_append.mp mem with mem | mem
    · exact absurd mem (request_notMem noRequest)
    · simpa using mem
  · intro _ clean
    simp at clean

/-- The peer sends something that is not a reply. -/
theorem Inv.peerSend (h : l.Inv) (lt : l.peer < m.time) (notReply : m.isReply = false) :
    Inv { l with peer := m.time, back := l.back ++ [m] } := by
  have same : replies (l.back ++ [m]) = replies l.back := by
    simp [replies, notReply]
  refine { h with
    single := by simpa only [same] using h.single
    settled := fun k => ⟨(h.settled k).1, by simpa only [same] using (h.settled k).2⟩
    backSorted := pairwise_snoc h.backSorted h.backBounded lt
    backBounded := bounded_snoc h.backBounded lt
    later := fun active clean => ?_ }
  obtain ⟨lt', replied, after⟩ := h.later active clean
  refine ⟨Nat.lt_trans lt' lt, fun t mem => ?_, fun none_ x hx => ?_⟩
  · rcases List.mem_append.mp mem with mem | mem
    · exact replied t mem
    · rw [← List.mem_singleton.mp mem] at notReply
      simp [Msg.isReply] at notReply
  · rcases List.mem_append.mp hx with hx | hx
    · exact after (by simpa only [same] using none_) x hx
    · rw [List.mem_singleton.mp hx]
      exact Nat.lt_trans lt' lt

/-- The peer takes the request, records it and replies. -/
theorem Inv.peerAnswer (h : l.Inv) (head : l.out = .request t :: rest) (lt : l.peer < u)
    (gt : t < u) :
    Inv { l with peer := u, known := t, out := rest, back := l.back ++ [.reply u] } := by
  obtain ⟨phase, request, clock, peer, known, out, back⟩ := l
  obtain rfl : out = .request t :: rest := head
  have stamp : t = request := h.stamp t (by simp)
  have single : requests rest = 0 ∧ replies back = 0 := by
    have := h.single
    simp only [requests_request] at this
    omega
  have waiting : phase = .waiting := by
    by_contra k
    simpa [Settled] using h.settled k
  have record := h.record
  simp only [replay] at record
  split at record
  swap
  · cases record
  refine ⟨record, by simp [single], fun k => absurd waiting k, fun t mem =>
    h.stamp t (List.mem_cons_of_mem _ mem), h.sorted.of_cons,
    fun m hm => h.bounded m (List.mem_cons_of_mem _ hm),
    pairwise_snoc h.backSorted h.backBounded lt,
    bounded_snoc h.backBounded lt, fun _ _ => ⟨stamp ▸ gt, fun t' mem => ?_, fun none_ => ?_⟩⟩
  · rcases List.mem_append.mp mem with mem | mem
    · exact absurd mem (reply_notMem single.2)
    · simp only [List.mem_singleton, Msg.reply.injEq] at mem
      rw [mem, ← stamp]
      exact gt
  · simp at none_

/-- The requester takes a request of the peer and replies. -/
theorem Inv.answer (h : l.Inv) (head : l.back = .request t :: rest) (lt : l.clock < u) :
    Inv { l with clock := u, out := l.out ++ [.reply u], back := rest } := by
  obtain ⟨phase, request, clock, peer, known, out, back⟩ := l
  obtain rfl : back = .request t :: rest := head
  refine ⟨?_, by simpa using h.single, fun k => by simpa [Settled] using h.settled k,
    fun t mem => ?_,
    pairwise_snoc h.sorted h.bounded lt, bounded_snoc h.bounded lt, h.backSorted.of_cons,
    fun m hm => h.backBounded m (List.mem_cons_of_mem _ hm), fun active clean => ?_⟩
  · simp only [replay_append, h.record]
    rfl
  · rcases List.mem_append.mp mem with mem | mem
    · exact h.stamp t mem
    · simp at mem
  · obtain ⟨lt', replied, after⟩ := h.later active (by simpa using clean)
    refine ⟨lt', fun t mem => replied t (List.mem_cons_of_mem _ mem), fun none_ m hm => ?_⟩
    exact after (by simpa using none_) m (List.mem_cons_of_mem _ hm)

/-- The requester takes the reply. -/
theorem Inv.hearReply (h : l.Inv) (head : l.back = .reply t :: rest) (le : l.clock ≤ u) :
    Inv { l with clock := u, back := rest } := by
  obtain ⟨phase, request, clock, peer, known, out, back⟩ := l
  obtain rfl : back = .reply t :: rest := head
  have single : requests out = 0 ∧ replies rest = 0 := by
    have := h.single
    simp only [replies_reply] at this
    omega
  have waiting : phase = .waiting := by
    by_contra k
    simpa [Settled] using h.settled k
  refine ⟨h.record, by simp [single], fun k => absurd waiting k, h.stamp,
    h.sorted, fun m hm => Nat.le_trans (h.bounded m hm) le,
    h.backSorted.of_cons, fun m hm => h.backBounded m (List.mem_cons_of_mem _ hm),
    fun active clean => ?_⟩
  obtain ⟨lt, replied, -⟩ := h.later active clean
  refine ⟨lt, fun t mem => replied t (List.mem_cons_of_mem _ mem), fun _ m hm => ?_⟩
  -- what follows the reply in the channel is stamped later than the reply
  exact Nat.lt_trans (replied t List.mem_cons_self) ((List.pairwise_cons.mp h.backSorted).1 m hm)

/-- The requester takes something from the peer that is not a reply. -/
theorem Inv.hear (h : l.Inv) (head : l.back = m :: rest) (notReply : m.isReply = false)
    (le : l.clock ≤ u) : Inv { l with clock := u, back := rest } := by
  obtain ⟨phase, request, clock, peer, known, out, back⟩ := l
  obtain rfl : back = m :: rest := head
  have same : replies (m :: rest) = replies rest := by simp [replies, notReply]
  refine ⟨h.record, by simpa only [same] using h.single, fun k => ?_, h.stamp,
    h.sorted, fun m hm => Nat.le_trans (h.bounded m hm) le,
    h.backSorted.of_cons, fun m hm => h.backBounded m (List.mem_cons_of_mem _ hm),
    fun active clean => ?_⟩
  · exact ⟨(h.settled k).1, by simpa only [same] using (h.settled k).2⟩
  · obtain ⟨lt, replied, after⟩ := h.later active clean
    refine ⟨lt, fun t mem => replied t (List.mem_cons_of_mem _ mem), fun none_ m hm => ?_⟩
    exact after (by simpa only [same] using none_) m (List.mem_cons_of_mem _ hm)

/-- The peer takes a reply of the requester. -/
theorem Inv.peerHearReply (h : l.Inv) (head : l.out = .reply t :: rest) (le : l.peer ≤ u) :
    Inv { l with peer := u, out := rest } := by
  obtain ⟨phase, request, clock, peer, known, out, back⟩ := l
  obtain rfl : out = .reply t :: rest := head
  refine ⟨h.record, by simpa using h.single, fun k => by simpa [Settled] using h.settled k,
    fun t mem => h.stamp t (List.mem_cons_of_mem _ mem), h.sorted.of_cons,
    fun m hm => h.bounded m (List.mem_cons_of_mem _ hm), h.backSorted,
    fun m hm => Nat.le_trans (h.backBounded m hm) le, fun active clean => ?_⟩
  obtain ⟨lt, rest⟩ := h.later active (by simpa using clean)
  exact ⟨Nat.lt_of_lt_of_le lt le, rest⟩

/-- The peer takes a release of the requester. -/
theorem Inv.peerHearRelease (h : l.Inv) (head : l.out = .release t :: rest) (le : l.peer ≤ u) :
    Inv { l with peer := u, known := 0, out := rest } := by
  obtain ⟨phase, request, clock, peer, known, out, back⟩ := l
  obtain rfl : out = .release t :: rest := head
  have record := h.record
  simp only [replay] at record
  split at record
  swap
  · cases record
  refine ⟨record, by simpa using h.single, fun k => by simpa [Settled] using h.settled k,
    fun t mem => h.stamp t (List.mem_cons_of_mem _ mem), h.sorted.of_cons,
    fun m hm => h.bounded m (List.mem_cons_of_mem _ hm), h.backSorted,
    fun m hm => Nat.le_trans (h.backBounded m hm) le, fun active clean => ?_⟩
  obtain ⟨lt, rest⟩ := h.later active (by simpa using clean)
  exact ⟨Nat.lt_of_lt_of_le lt le, rest⟩

theorem Inv.enter (h : l.Inv) (waiting : l.phase = .waiting) (settled : l.Settled) :
    Inv { l with phase := .inside } :=
  { h with
    settled := fun _ => settled
    later := fun _ clean => h.later (by simp [waiting]) clean }

theorem Inv.leave (h : l.Inv) (inside : l.phase = .inside) (standing : l.request ≠ 0)
    (lt : l.clock < u) :
    Inv { l with phase := .idle, request := 0, clock := u, out := l.out ++ [.release u] } := by
  obtain ⟨noRequest, noReply⟩ := h.settled (by simp [inside])
  refine ⟨?_, by simp [noRequest, noReply], fun _ => by simp [Settled, noRequest, noReply],
    fun t mem => ?_, pairwise_snoc h.sorted h.bounded lt, bounded_snoc h.bounded lt,
    h.backSorted, h.backBounded, fun active => by simp at active⟩
  · rw [replay_append, h.record]
    simp [replay, standing]
  · rcases List.mem_append.mp mem with mem | mem
    · exact absurd mem (request_notMem noRequest)
    · simp at mem

end Link

/-! ## All processes -/

structure State (P : Type*) extends Grants P where
  known : P → P → ℕ
  chan : Channels P Msg

namespace State

variable {P : Type*}

/-- The requester `p` and its peer `q`. -/
def link (s : State P) (p q : P) : Link where
  phase := s.phase p
  request := s.request p
  clock := s.clock p
  peer := s.clock q
  known := s.known q p
  out := s.chan p q
  back := s.chan q p

section

variable [DecidableEq P]

def record (s : State P) (p q : P) (t : ℕ) : P → P → ℕ :=
  Function.update s.known p (Function.update (s.known p) q t)

def tick (s : State P) (p : P) (t : ℕ) : State P := { s with toGrants := s.toGrants.tick p t }

def ask (s : State P) (p : P) (t : ℕ) : State P :=
  { s with toGrants := s.toGrants.ask p t, chan := s.chan.post p (toPeers p (.request t)) }

/-- `p` takes the request of `q` with time `t` and replies at `u`. -/
def answer (s : State P) (p q : P) (t u : ℕ) : State P where
  toGrants := s.toGrants.tick p u
  known := s.record p q t
  chan := (s.chan.pop q p).post p (only q (.reply u))

def hearReply (s : State P) (p q : P) (u : ℕ) : State P :=
  { s with toGrants := s.toGrants.tick p u, chan := s.chan.pop q p }

def hearRelease (s : State P) (p q : P) (u : ℕ) : State P where
  toGrants := s.toGrants.tick p u
  known := s.record p q 0
  chan := s.chan.pop q p

def enter (s : State P) (p : P) : State P := { s with toGrants := s.toGrants.enter p }

def leave (s : State P) (p : P) (u : ℕ) : State P :=
  { s with toGrants := s.toGrants.leave p u, chan := s.chan.post p (toPeers p (.release u)) }

end

/-! ## The replies received -/

section Replied

variable [DecidableEq P] [Fintype P] {s s' : State P} {p q : P} {t u : ℕ} {rest : List Msg}

/-- The processes that have answered the request of `p`. -/
def replied (s : State P) (p : P) : Finset P :=
  Finset.univ.filter (fun q => q ≠ p ∧ (s.link p q).Settled)

theorem replied_congr {a : P} (same : ∀ b, b ≠ a → ((s'.link a b).Settled ↔ (s.link a b).Settled)) :
    s'.replied a = s.replied a :=
  Finset.filter_congr fun b _ => and_congr_right (same b)

theorem replied_tick (a : P) : (s.tick p t).replied a = s.replied a :=
  replied_congr fun _ _ => .rfl

theorem replied_enter (a : P) : (s.enter p).replied a = s.replied a :=
  replied_congr fun _ _ => .rfl

theorem replied_ask : (s.ask p t).replied p = ∅ := by
  refine Finset.filter_eq_empty_iff.mpr fun b _ => ?_
  rintro ⟨ne, clean, -⟩
  simp [State.link, State.ask, toPeers, ne] at clean

theorem replied_ask_ne {a : P} (ne : a ≠ p) : (s.ask p t).replied a = s.replied a := by
  refine replied_congr fun b _ => ?_
  by_cases hb : b = p
  · subst hb
    simp [Link.Settled, State.link, State.ask, toPeers, ne, Channels.post_ne]
  · simp [Link.Settled, State.link, State.ask, ne, hb, Channels.post_ne]

theorem replied_leave (a : P) : (s.leave p u).replied a = s.replied a := by
  refine replied_congr fun b ne => ?_
  by_cases ha : a = p
  · subst ha
    simp [Link.Settled, State.link, State.leave, toPeers, ne, Channels.post_ne]
  · by_cases hb : b = p
    · subst hb
      simp [Link.Settled, State.link, State.leave, toPeers, ha, Channels.post_ne]
    · simp [Link.Settled, State.link, State.leave, ha, hb, Channels.post_ne]

theorem replied_answer (other : q ≠ p) (head : s.chan q p = .request t :: rest) (a : P) :
    (s.answer p q t u).replied a = s.replied a := by
  refine replied_congr fun b ne => ?_
  by_cases ha : a = p
  · subst ha
    by_cases hb : b = q
    · subst hb
      simp [Link.Settled, State.link, State.answer, only, ne, Channels.post_ne, Channels.pop, head]
    · simp [Link.Settled, State.link, State.answer, only, ne, hb, Channels.post_ne, Channels.pop]
  · by_cases hb : b = p
    · subst hb
      by_cases haq : a = q
      · subst haq
        simp [Link.Settled, State.link, State.answer, only, ne, ha, Channels.post_ne, Channels.pop,
          head]
      · simp [Link.Settled, State.link, State.answer, only, ha, haq, Channels.post_ne,
          Channels.pop]
    · simp [Link.Settled, State.link, State.answer, ha, hb, Channels.post_ne, Channels.pop]

theorem replied_hearRelease (other : q ≠ p) (head : s.chan q p = .release t :: rest) (a : P) :
    (s.hearRelease p q u).replied a = s.replied a := by
  refine replied_congr fun b _ => ?_
  have same (c d : P) : requests ((s.hearRelease p q u).chan c d) = requests (s.chan c d) ∧
      replies ((s.hearRelease p q u).chan c d) = replies (s.chan c d) := by
    by_cases eq : c = q ∧ d = p
    · obtain ⟨rfl, rfl⟩ := eq
      simp [State.hearRelease, Channels.pop_head, head]
    · simp only [State.hearRelease, Channels.pop_ne _ eq, and_self]
  exact and_congr (by rw [State.link, State.link, (same a b).1]) (by
    rw [State.link, State.link, (same b a).2])

theorem replied_hearReply_ne (other : q ≠ p) (head : s.chan q p = .reply t :: rest) {a : P}
    (ne : a ≠ p) : (s.hearReply p q u).replied a = s.replied a := by
  refine replied_congr fun b _ => ?_
  have back : (s.hearReply p q u).chan b a = s.chan b a :=
    Channels.pop_ne _ (fun eq => ne eq.2)
  have out : requests ((s.hearReply p q u).chan a b) = requests (s.chan a b) := by
    by_cases eq : a = q ∧ b = p
    · obtain ⟨rfl, rfl⟩ := eq
      simp [State.hearReply, Channels.pop_head, head]
    · simp only [State.hearReply, Channels.pop_ne _ eq]
  exact and_congr (by rw [State.link, State.link, out]) (by rw [State.link, State.link, back])

/-- A full count of replies is one from every other process. -/
theorem settled_of_card (full : (s.replied p).card = Fintype.card P - 1) (q : P) (ne : q ≠ p) :
    (s.link p q).Settled := by
  have subset : s.replied p ⊆ Finset.univ.erase p := by
    intro b mem
    simpa using (Finset.mem_filter.mp mem).2.1
  have all : s.replied p = Finset.univ.erase p := by
    apply Finset.eq_of_subset_of_card_le subset
    rw [full, Finset.card_erase_of_mem (Finset.mem_univ p), Finset.card_univ]
  have mem : q ∈ s.replied p := by
    rw [all]
    simpa using ne
  exact (Finset.mem_filter.mp mem).2.2

theorem card_of_settled (settled : ∀ q, q ≠ p → (s.link p q).Settled) :
    (s.replied p).card = Fintype.card P - 1 := by
  have all : s.replied p = Finset.univ.erase p := by
    ext b
    simp only [replied, Finset.mem_filter, Finset.mem_univ, true_and, Finset.mem_erase, and_true]
    exact ⟨fun h => h.1, fun ne => ⟨ne, settled b ne⟩⟩
  rw [all, Finset.card_erase_of_mem (Finset.mem_univ p), Finset.card_univ]

end Replied

/-! ## The invariant -/

variable [LinearOrder P] [DecidableEq P]

structure Inv (s : State P) : Prop where
  grants : s.toGrants.Inv
  link : ∀ p q, p ≠ q → (s.link p q).Inv

/-- `p` may enter: it has all replies, and no request that it knows of comes first. -/
structure Granted (s : State P) (p : P) : Prop where
  replied : ∀ q, q ≠ p → (s.link p q).Settled
  top : ∀ q, q ≠ p → s.known p q ≠ 0 → s.label p < toLex (s.known p q, q)

inductive Step : State P → State P → Prop
  | tick {s p t} : s.clock p ≤ t → Step s (s.tick p t)
  | ask {s p t} : s.phase p = .idle → s.clock p < t → Step s (s.ask p t)
  | answer {s p q t u rest} : q ≠ p → s.chan q p = .request t :: rest → s.clock p < u → t < u →
      Step s (s.answer p q t u)
  | hearReply {s p q t u rest} : q ≠ p → s.chan q p = .reply t :: rest → s.clock p ≤ u →
      Step s (s.hearReply p q u)
  | hearRelease {s p q t u rest} : q ≠ p → s.chan q p = .release t :: rest → s.clock p ≤ u →
      Step s (s.hearRelease p q u)
  | enter {s p} : s.phase p = .waiting → s.Granted p → Step s (s.enter p)
  | leave {s p u} : s.phase p = .inside → s.clock p < u → Step s (s.leave p u)

variable {s s' : State P} {p q : P} {t u : ℕ} {rest : List Msg}

omit [DecidableEq P] in
theorem Inv.request_eq_zero (h : s.Inv) (idle : s.phase p = .idle) : s.request p = 0 := by
  by_contra standing
  exact (h.grants.standing p).mp standing idle

theorem Inv.tick (h : s.Inv) (le : s.clock p ≤ t) : (s.tick p t).Inv := by
  refine ⟨h.grants.tick le, fun a b ne => ?_⟩
  by_cases ha : a = p
  · subst ha
    simpa [State.link, State.tick, Grants.tick, ne.symm] using (h.link a b ne).tick le
  · by_cases hb : b = p
    · subst hb
      simpa [State.link, State.tick, Grants.tick, ne] using (h.link a b ne).tickPeer le
    · simpa [State.link, State.tick, Grants.tick, ha, hb] using h.link a b ne

theorem Inv.ask (h : s.Inv) (idle : s.phase p = .idle) (lt : s.clock p < t) :
    (s.ask p t).Inv := by
  refine ⟨h.grants.ask idle lt, fun a b ne => ?_⟩
  by_cases ha : a = p
  · subst ha
    simpa [State.link, State.ask, Grants.ask, toPeers, ne.symm, Channels.post_ne] using
      (h.link a b ne).ask idle (h.request_eq_zero idle) lt
  · by_cases hb : b = p
    · subst hb
      simpa [State.link, State.ask, Grants.ask, toPeers, ne, Channels.post_ne] using
        (h.link a b ne).peerSend (m := .request t) lt rfl
    · simpa [State.link, State.ask, Grants.ask, ha, hb, Channels.post_ne] using h.link a b ne

theorem Inv.answer (h : s.Inv) (other : q ≠ p) (head : s.chan q p = .request t :: rest)
    (lt : s.clock p < u) (gt : t < u) : (s.answer p q t u).Inv := by
  refine ⟨h.grants.tick lt.le, fun a b ne => ?_⟩
  by_cases ha : a = p
  · subst ha
    by_cases hb : b = q
    · subst hb
      have := (h.link a b ne).answer head lt
      simpa [State.link, State.answer, Grants.tick, State.record, only, ne, ne.symm,
        Channels.post_ne, Channels.pop, head] using this
    · have := (h.link a b ne).tick lt.le
      simpa [State.link, State.answer, Grants.tick, State.record, only, ne, ne.symm, hb,
        Channels.post_ne, Channels.pop] using this
  · by_cases hb : b = p
    · subst hb
      by_cases haq : a = q
      · subst haq
        have := (h.link a b ne).peerAnswer head lt gt
        simpa [State.link, State.answer, Grants.tick, State.record, only, ne, ne.symm,
          Channels.post_ne, Channels.pop, head] using this
      · have := (h.link a b ne).tickPeer lt.le
        simpa [State.link, State.answer, Grants.tick, State.record, only, ne, ne.symm, haq,
          Channels.post_ne, Channels.pop] using this
    · simpa [State.link, State.answer, Grants.tick, State.record, ha, hb, Channels.post_ne,
        Channels.pop] using h.link a b ne

theorem Inv.hearReply (h : s.Inv) (other : q ≠ p) (head : s.chan q p = .reply t :: rest)
    (le : s.clock p ≤ u) : (s.hearReply p q u).Inv := by
  refine ⟨h.grants.tick le, fun a b ne => ?_⟩
  by_cases ha : a = p
  · subst ha
    by_cases hb : b = q
    · subst hb
      have := (h.link a b ne).hearReply head le
      simpa [State.link, State.hearReply, Grants.tick, ne, ne.symm, Channels.pop, head] using this
    · have := (h.link a b ne).tick le
      simpa [State.link, State.hearReply, Grants.tick, ne, ne.symm, hb, Channels.pop] using this
  · by_cases hb : b = p
    · subst hb
      by_cases haq : a = q
      · subst haq
        have := (h.link a b ne).peerHearReply head le
        simpa [State.link, State.hearReply, Grants.tick, ne, ne.symm, Channels.pop, head] using this
      · have := (h.link a b ne).tickPeer le
        simpa [State.link, State.hearReply, Grants.tick, ne, ne.symm, haq, Channels.pop] using this
    · simpa [State.link, State.hearReply, Grants.tick, ha, hb, Channels.pop] using h.link a b ne

theorem Inv.hearRelease (h : s.Inv) (other : q ≠ p) (head : s.chan q p = .release t :: rest)
    (le : s.clock p ≤ u) : (s.hearRelease p q u).Inv := by
  refine ⟨h.grants.tick le, fun a b ne => ?_⟩
  by_cases ha : a = p
  · subst ha
    by_cases hb : b = q
    · subst hb
      have := (h.link a b ne).hear head rfl le
      simpa [State.link, State.hearRelease, Grants.tick, State.record, ne, ne.symm, Channels.pop,
        head] using this
    · have := (h.link a b ne).tick le
      simpa [State.link, State.hearRelease, Grants.tick, State.record, ne, ne.symm, hb,
        Channels.pop] using this
  · by_cases hb : b = p
    · subst hb
      by_cases haq : a = q
      · subst haq
        have := (h.link a b ne).peerHearRelease head le
        simpa [State.link, State.hearRelease, Grants.tick, State.record, ne, ne.symm, Channels.pop,
          head] using this
      · have := (h.link a b ne).tickPeer le
        simpa [State.link, State.hearRelease, Grants.tick, State.record, ne, ne.symm, haq,
          Channels.pop] using this
    · simpa [State.link, State.hearRelease, Grants.tick, State.record, ha, hb, Channels.pop] using
        h.link a b ne

/-! What the head of a channel tells its receiver. -/

omit [DecidableEq P] in
theorem Inv.waiting_of_reply (h : s.Inv) (other : q ≠ p) (head : s.chan q p = .reply t :: rest) :
    s.phase p = .waiting := by
  by_contra k
  have := ((h.link p q other.symm).settled k).2
  simp [State.link, head] at this

omit [DecidableEq P] in
theorem Inv.unknown_of_request (h : s.Inv) (other : q ≠ p)
    (head : s.chan q p = .request t :: rest) : s.known p q = 0 := by
  have record := (h.link q p other).record
  by_contra k
  simp [State.link, head, replay, k] at record

omit [DecidableEq P] in
theorem Inv.known_of_release (h : s.Inv) (other : q ≠ p)
    (head : s.chan q p = .release t :: rest) : s.known p q ≠ 0 := by
  intro k
  have record := (h.link q p other).record
  simp [State.link, head, replay, k] at record

omit [DecidableEq P] in
/-- A granted request comes before every request that stands, known to its process or not. -/
theorem Inv.first (h : s.Inv) (active : s.phase p ≠ .idle) (granted : s.Granted p) :
    s.First p := by
  have later (q : P) (ne : q ≠ p) := (h.link p q ne.symm).later active (granted.replied q ne).1
  refine ⟨fun q ne => (later q ne).1.le, fun q ne standing => ?_⟩
  · have record := (h.link q p ne).record
    by_cases clean : requests (s.chan q p) = 0
    · have known := record_of_replay record ((h.grants.standing q).mpr standing) clean
      have top := granted.top q ne
      rw [show s.known p q = s.request q from known] at top
      exact top ((h.grants.standing q).mpr standing)
    · obtain ⟨m, mem, isRequest⟩ := List.countP_pos_iff.mp (Nat.pos_of_ne_zero clean)
      cases m with
      | request t =>
        have stamp := (h.link q p ne).stamp t mem
        have after := (later q ne).2.2 (granted.replied q ne).2 _ mem
        rw [Msg.time_request, stamp] at after
        exact Grants.lt_label_of_time_lt after
      | reply t => cases isRequest
      | release t => cases isRequest

theorem Inv.enter (h : s.Inv) (waiting : s.phase p = .waiting) (granted : s.Granted p) :
    (s.enter p).Inv := by
  refine ⟨h.grants.enter waiting (h.first (by simp [waiting]) granted), fun a b ne => ?_⟩
  by_cases ha : a = p
  · subst ha
    simpa [State.link, State.enter, Grants.enter] using
      (h.link a b ne).enter waiting (granted.replied b ne.symm)
  · simpa [State.link, State.enter, Grants.enter, ha] using h.link a b ne

theorem Inv.leave (h : s.Inv) (inside : s.phase p = .inside) (lt : s.clock p < u) :
    (s.leave p u).Inv := by
  refine ⟨h.grants.leave lt.le, fun a b ne => ?_⟩
  by_cases ha : a = p
  · subst ha
    have standing := (h.grants.standing a).mpr (by simp [inside])
    simpa [State.link, State.leave, Grants.leave, toPeers, ne.symm, Channels.post_ne] using
      (h.link a b ne).leave inside standing lt
  · by_cases hb : b = p
    · subst hb
      simpa [State.link, State.leave, Grants.leave, toPeers, ne, Channels.post_ne] using
        (h.link a b ne).peerSend (m := .release u) lt rfl
    · simpa [State.link, State.leave, Grants.leave, ha, hb, Channels.post_ne] using h.link a b ne

theorem Inv.step (h : s.Inv) (step : Step s s') : s'.Inv := by
  cases step with
  | tick le => exact h.tick le
  | ask idle lt => exact h.ask idle lt
  | answer other head lt gt => exact h.answer other head lt gt
  | hearReply other head le => exact h.hearReply other head le
  | hearRelease other head le => exact h.hearRelease other head le
  | enter waiting granted => exact h.enter waiting granted
  | leave inside lt => exact h.leave inside lt

/-! ## The count of replies -/

/-- Each reply received is one of the request that stands. -/
theorem Inv.replied_hearReply [Fintype P] (h : s.Inv) (other : q ≠ p)
    (head : s.chan q p = .reply t :: rest) :
    ((s.hearReply p q u).replied p).card = (s.replied p).card + 1 := by
  have single := (h.link p q other.symm).single
  simp only [State.link, head, replies_reply] at single
  have fresh : q ∉ s.replied p := by
    intro mem
    have := (Finset.mem_filter.mp mem).2.2.2
    simp [State.link, head] at this
  rw [← Finset.card_insert_of_notMem fresh]
  congr 1
  ext b
  simp only [replied, Finset.mem_insert, Finset.mem_filter, Finset.mem_univ, true_and]
  by_cases hb : b = q
  · subst hb
    have out : (s.hearReply p b u).chan p b = s.chan p b :=
      Channels.pop_ne _ (fun eq => other eq.1.symm)
    have back : (s.hearReply p b u).chan b p = rest := by
      simp [State.hearReply, Channels.pop_head, head]
    simp only [other, ne_eq, not_false_eq_true, true_and, Link.Settled, State.link, out, back,
      true_or, iff_true]
    omega
  · have out : (s.hearReply p q u).chan p b = s.chan p b :=
      Channels.pop_ne _ (fun eq => other eq.1.symm)
    have back : (s.hearReply p q u).chan b p = s.chan b p :=
      Channels.pop_ne _ (fun eq => hb eq.1)
    simp only [Link.Settled, State.link, out, back, hb, false_or]

end State

end Lamport

end Distra.Exclusion
