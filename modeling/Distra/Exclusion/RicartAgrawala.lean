import Distra.Exclusion.Messages
import Distra.Exclusion.Order
import Distra.Network.Channels
import Mathlib.Data.Fintype.Card

/-!
# Ricart and Agrawala's mutual exclusion

A process answers a request at once, or puts the answer off until it leaves when its own request
comes first. It enters when every other process has answered. As for Lamport's algorithm the
invariant is about a requester and one peer, but the channels need not be ordered: an answer alone
tells that the peer's clock has passed the request.
-/

namespace Distra.Exclusion.RicartAgrawala

open Network Function

/-- The requester's phase and label, the peer's clock, phase and label, the request that the peer
has put off, and the channels from the requester to the peer and back. -/
structure Link (P : Type*) where
  phase : Phase
  label : Label P
  peer : ℕ
  peerPhase : Phase
  peerLabel : Label P
  deferred : ℕ
  out : List Msg
  back : List Msg

/-- An answer put off counts as one. -/
def owed (deferred : ℕ) : ℕ := if deferred = 0 then 0 else 1

@[simp] theorem owed_zero : owed 0 = 0 := rfl

theorem owed_of_ne {t : ℕ} (h : t ≠ 0) : owed t = 1 := if_neg h

theorem owed_eq_zero {t : ℕ} : owed t = 0 ↔ t = 0 := by
  unfold owed
  split <;> simp_all

namespace Link

variable {P : Type*}

/-- What is left of the requests that the requester has sent: on the way, put off or answered. -/
def pending (l : Link P) : ℕ :=
  requests l.out + owed l.deferred + replies l.back

variable [LinearOrder P]

structure Inv (l : Link P) : Prop where
  single : l.pending ≤ 1
  settled : l.phase ≠ .waiting → l.pending = 0
  stamp : ∀ t, .request t ∈ l.out → t = (ofLex l.label).1
  unreleased : ∀ t, .release t ∉ l.out
  standing : l.phase ≠ .idle → (ofLex l.label).1 ≠ 0
  later : l.phase ≠ .idle → requests l.out = 0 → (ofLex l.label).1 < l.peer
  /-- The peer answers before its own request is served only if the latter comes second. -/
  earned : l.phase ≠ .idle → requests l.out = 0 → l.deferred = 0 → l.peerPhase ≠ .idle →
    l.label < l.peerLabel
  deferral : l.deferred ≠ 0 → l.peerPhase ≠ .idle ∧ l.peerLabel < l.label

variable {l : Link P} {t u : ℕ} {m : Msg} {rest : List Msg} {p q : P}

omit [LinearOrder P] in
theorem pending_eq_zero :
    l.pending = 0 ↔ requests l.out = 0 ∧ l.deferred = 0 ∧ replies l.back = 0 := by
  rw [pending, Nat.add_eq_zero_iff, Nat.add_eq_zero_iff, owed_eq_zero, and_assoc]

theorem Inv.tickPeer (h : l.Inv) (le : l.peer ≤ t) : Inv { l with peer := t } :=
  { h with later := fun active clean => (h.later active clean).trans_le le }

/-- The requester asks. -/
theorem Inv.ask (h : l.Inv) (idle : l.phase = .idle) (pos : t ≠ 0) :
    Inv { l with phase := .waiting, label := toLex (t, p), out := l.out ++ [.request t] } := by
  obtain ⟨noRequest, none_, noReply⟩ := pending_eq_zero.mp (h.settled (by simp [idle]))
  refine ⟨?_, by simp, ?_, ?_, fun _ => pos, ?_, ?_, ?_⟩
  · simp [pending, noRequest, none_, noReply]
  · intro t' mem
    rcases List.mem_append.mp mem with mem | mem
    · exact absurd mem (request_notMem noRequest)
    · simpa using mem
  · intro t' mem
    rcases List.mem_append.mp mem with mem | mem
    · exact h.unreleased t' mem
    · simp at mem
  · intro _ clean
    simp at clean
  · intro _ clean
    simp at clean
  · intro put
    exact absurd none_ put

/-- The peer asks. -/
theorem Inv.peerAsk (h : l.Inv) (idle : l.peerPhase = .idle) (lt : l.peer < t) :
    Inv { l with peer := t, peerPhase := .waiting, peerLabel := toLex (t, q),
                 back := l.back ++ [.request t] } := by
  have none_ : l.deferred = 0 := by
    by_contra put
    exact (h.deferral put).1 idle
  refine ⟨?_, ?_, h.stamp, h.unreleased, h.standing, ?_, ?_, fun put => absurd none_ put⟩
  · simpa [pending] using h.single
  · intro k
    simpa [pending] using h.settled k
  · intro active clean
    exact (h.later active clean).trans lt
  · intro active clean _ _
    exact Prod.Lex.lt_iff.mpr (.inl ((h.later active clean).trans lt))

/-- The requester takes the request of the peer, and answers it or puts it off. -/
theorem Inv.hear (h : l.Inv) (head : l.back = .request t :: rest) (out : List Msg)
    (replied : ∀ m ∈ out, ∃ u, m = .reply u) :
    Inv { l with out := l.out ++ out, back := rest } := by
  obtain ⟨phase, label, peer, peerPhase, peerLabel, deferred, out₀, back⟩ := l
  obtain rfl : back = .request t :: rest := head
  have none_ : requests out = 0 := by
    refine List.countP_eq_zero.mpr fun m mem => ?_
    obtain ⟨u, rfl⟩ := replied m mem
    simp [Msg.isRequest]
  have same : pending ⟨phase, label, peer, peerPhase, peerLabel, deferred, out₀ ++ out, rest⟩ =
      pending ⟨phase, label, peer, peerPhase, peerLabel, deferred, out₀, .request t :: rest⟩ := by
    simp [pending, none_]
  refine ⟨same.trans_le h.single, fun k => same.trans (h.settled k), ?_, ?_, h.standing, ?_, ?_,
    h.deferral⟩
  · intro t' mem
    rcases List.mem_append.mp mem with mem | mem
    · exact h.stamp t' mem
    · obtain ⟨u, eq⟩ := replied _ mem
      cases eq
  · intro t' mem
    rcases List.mem_append.mp mem with mem | mem
    · exact h.unreleased t' mem
    · obtain ⟨u, eq⟩ := replied _ mem
      cases eq
  · intro active clean
    exact h.later active (by simpa [none_] using clean)
  · intro active clean
    exact h.earned active (by simpa [none_] using clean)

/-- A request at the head tells that nothing else of it is left. -/
theorem Inv.head_request (h : l.Inv) (head : l.out = .request t :: rest) :
    l.phase = .waiting ∧ t = (ofLex l.label).1 ∧ l.deferred = 0 ∧ requests rest = 0 ∧
      replies l.back = 0 := by
  have single := h.single
  simp only [pending, head, requests_request] at single
  have none_ : l.deferred = 0 := by
    by_contra put
    rw [owed_of_ne put] at single
    omega
  refine ⟨?_, h.stamp t (by simp [head]), none_, by omega, by omega⟩
  by_contra k
  have := (pending_eq_zero.mp (h.settled k)).1
  simp [head] at this

/-- The peer takes the request and puts the answer off. -/
theorem Inv.peerDefer (h : l.Inv) (head : l.out = .request t :: rest) (lt : t < u)
    (active : l.peerPhase ≠ .idle) (first : l.peerLabel < l.label) :
    Inv { l with peer := u, deferred := t, out := rest } := by
  obtain ⟨waiting, stamp, -, noRequest, noReply⟩ := h.head_request head
  have pos : t ≠ 0 := stamp ▸ h.standing (by simp [waiting])
  have inside {m : Msg} (mem : m ∈ rest) : m ∈ l.out := head ▸ List.mem_cons_of_mem _ mem
  refine ⟨?_, fun k => absurd waiting k, fun t mem => h.stamp t (inside mem),
    fun t mem => h.unreleased t (inside mem), h.standing, fun _ _ => stamp ▸ lt,
    fun _ _ none_ => absurd none_ pos, fun _ => ⟨active, first⟩⟩
  simp [pending, noRequest, noReply, owed_of_ne pos]

/-- The peer takes the request and answers it. -/
theorem Inv.peerAnswer (h : l.Inv) (head : l.out = .request t :: rest) (lt : t < u)
    (second : l.peerPhase ≠ .idle → l.label < l.peerLabel) (v : ℕ) :
    Inv { l with peer := u, out := rest, back := l.back ++ [.reply v] } := by
  obtain ⟨waiting, stamp, none_, noRequest, noReply⟩ := h.head_request head
  have inside {m : Msg} (mem : m ∈ rest) : m ∈ l.out := head ▸ List.mem_cons_of_mem _ mem
  refine ⟨?_, fun k => absurd waiting k, fun t mem => h.stamp t (inside mem),
    fun t mem => h.unreleased t (inside mem), h.standing, fun _ _ => stamp ▸ lt,
    fun _ _ _ active => second active, h.deferral⟩
  simp [pending, noRequest, none_, noReply]

/-- The requester takes the answer. -/
theorem Inv.hearReply (h : l.Inv) (head : l.back = .reply t :: rest) :
    Inv { l with back := rest } := by
  have single := h.single
  refine ⟨?_, fun k => ?_, h.stamp, h.unreleased, h.standing, h.later, h.earned, h.deferral⟩
  · simp only [pending, head, replies_reply] at single ⊢
    omega
  · have := (pending_eq_zero.mp (h.settled k)).2.2
    simp [head] at this

/-- The peer takes an answer of the requester. -/
theorem Inv.peerHearReply (h : l.Inv) (head : l.out = .reply t :: rest) (le : l.peer ≤ u) :
    Inv { l with peer := u, out := rest } := by
  have inside {m : Msg} (mem : m ∈ rest) : m ∈ l.out := head ▸ List.mem_cons_of_mem _ mem
  have clean : requests l.out = requests rest := by simp [head]
  refine ⟨?_, fun k => ?_, fun t mem => h.stamp t (inside mem),
    fun t mem => h.unreleased t (inside mem), h.standing, fun active k => ?_, fun active k => ?_,
    h.deferral⟩
  · simpa [pending, clean] using h.single
  · simpa [pending, clean] using h.settled k
  · exact (h.later active (clean.trans k)).trans_le le
  · exact h.earned active (clean.trans k)

theorem Inv.enter (h : l.Inv) (waiting : l.phase = .waiting) (settled : l.pending = 0) :
    Inv { l with phase := .inside } :=
  { h with
    settled := fun _ => settled
    standing := fun _ => h.standing (by simp [waiting])
    later := fun _ => h.later (by simp [waiting])
    earned := fun _ => h.earned (by simp [waiting]) }

theorem Inv.peerEnter (h : l.Inv) (waiting : l.peerPhase = .waiting) :
    Inv { l with peerPhase := .inside } :=
  { h with
    earned := fun active clean none_ _ => h.earned active clean none_ (by simp [waiting])
    deferral := fun put => ⟨by simp, (h.deferral put).2⟩ }

/-- The requester leaves, and sends the answers that it has put off. -/
theorem Inv.leave (h : l.Inv) (inside : l.phase = .inside) (label : Label P) {out : List Msg}
    (replied : ∀ m ∈ out, ∃ u, m = .reply u) :
    Inv { l with phase := .idle, label := label, out := l.out ++ out } := by
  obtain ⟨noRequest, none_, noReply⟩ := pending_eq_zero.mp (h.settled (by simp [inside]))
  have noRequest' : requests out = 0 := by
    refine List.countP_eq_zero.mpr fun m mem => ?_
    obtain ⟨u, rfl⟩ := replied m mem
    simp [Msg.isRequest]
  have same : pending { l with phase := .idle, label := label, out := l.out ++ out } = 0 := by
    simp [pending, noRequest, noRequest', none_, noReply]
  refine ⟨same.trans_le (Nat.zero_le 1), fun _ => same, fun t mem => ?_, fun t mem => ?_,
    by simp, by simp, by simp, fun put => absurd none_ put⟩
  · rcases List.mem_append.mp mem with mem | mem
    · exact absurd mem (request_notMem noRequest)
    · obtain ⟨u, eq⟩ := replied _ mem
      cases eq
  · rcases List.mem_append.mp mem with mem | mem
    · exact h.unreleased t mem
    · obtain ⟨u, eq⟩ := replied _ mem
      cases eq

/-- The peer leaves, and sends the answer if it has put it off. -/
theorem Inv.peerLeave (h : l.Inv) (le : l.peer ≤ t) (label : Label P) {replied : List Msg}
    (answered : replies replied = owed l.deferred) :
    Inv { l with peer := t, peerPhase := .idle, peerLabel := label, deferred := 0,
                 back := l.back ++ replied } := by
  have same : pending { l with peer := t, peerPhase := .idle, peerLabel := label, deferred := 0,
                               back := l.back ++ replied } = l.pending := by
    simp only [pending, replies_append, answered, owed_zero]
    omega
  refine ⟨same.trans_le h.single, fun k => same.trans (h.settled k), h.stamp, h.unreleased,
    h.standing, ?_, by simp, by simp⟩
  intro active clean
  exact (h.later active clean).trans_le le

end Link

/-! ## All processes -/

structure State (P : Type*) extends Grants P where
  deferred : P → P → ℕ
  chan : Channels P Msg

namespace State

variable {P : Type*}

/-- The requester `p` and its peer `q`. -/
def link (s : State P) (p q : P) : Link P where
  phase := s.phase p
  label := s.label p
  peer := s.clock q
  peerPhase := s.phase q
  peerLabel := s.label q
  deferred := s.deferred q p
  out := s.chan p q
  back := s.chan q p

section

variable [DecidableEq P]

def tick (s : State P) (p : P) (t : ℕ) : State P := { s with toGrants := s.toGrants.tick p t }

def ask (s : State P) (p : P) (t : ℕ) : State P :=
  { s with toGrants := s.toGrants.ask p t, chan := s.chan.post p (toPeers p (.request t)) }

/-- `p` takes the request of `q` with time `t` and puts the answer off. -/
def defer (s : State P) (p q : P) (t u : ℕ) : State P where
  toGrants := s.toGrants.tick p u
  deferred := update s.deferred p (update (s.deferred p) q t)
  chan := s.chan.pop q p

/-- `p` takes the request of `q` and answers it. -/
def answer (s : State P) (p q : P) (u : ℕ) : State P :=
  { s with
    toGrants := s.toGrants.tick p u
    chan := (s.chan.pop q p).post p (only q (.reply u)) }

def hearReply (s : State P) (p q : P) (u : ℕ) : State P :=
  { s with toGrants := s.toGrants.tick p u, chan := s.chan.pop q p }

def enter (s : State P) (p : P) : State P := { s with toGrants := s.toGrants.enter p }

/-- The answers that `p` has put off, sent at the times that `v` gives. -/
def answers (s : State P) (p : P) (v : P → ℕ) : P → List Msg :=
  fun q => if s.deferred p q = 0 then [] else [.reply (v q)]

def leave (s : State P) (p : P) (u : ℕ) (v : P → ℕ) : State P where
  toGrants := s.toGrants.leave p u
  deferred := update s.deferred p (fun _ => 0)
  chan := s.chan.post p (s.answers p v)

end

/-! ## The count of answers -/

section Replied

variable [DecidableEq P] [Fintype P] {s s' : State P} {p q : P} {t u : ℕ} {rest : List Msg}

/-- The processes that have answered the request of `p`. -/
def replied (s : State P) (p : P) : Finset P :=
  Finset.univ.filter (fun q => q ≠ p ∧ (s.link p q).pending = 0)

theorem replied_congr {a : P} (same : ∀ b, b ≠ a → (s'.link a b).pending = (s.link a b).pending) :
    s'.replied a = s.replied a :=
  Finset.filter_congr fun b _ => and_congr_right fun ne => by rw [same b ne]

theorem replied_tick (a : P) : (s.tick p t).replied a = s.replied a :=
  replied_congr fun _ _ => rfl

theorem replied_enter (a : P) : (s.enter p).replied a = s.replied a :=
  replied_congr fun _ _ => rfl

theorem replied_ask : (s.ask p t).replied p = ∅ := by
  refine Finset.filter_eq_empty_iff.mpr fun b _ => ?_
  rintro ⟨ne, clean⟩
  simp [Link.pending, State.link, State.ask, toPeers, ne] at clean

theorem replied_ask_ne {a : P} (ne : a ≠ p) : (s.ask p t).replied a = s.replied a := by
  refine replied_congr fun b _ => ?_
  by_cases hb : b = p
  · subst hb
    simp [Link.pending, State.link, State.ask, toPeers, ne, Channels.post_ne]
  · simp [Link.pending, State.link, State.ask, ne, hb, Channels.post_ne]

omit [DecidableEq P] [Fintype P] in
theorem replies_answers (v : P → ℕ) (a : P) :
    replies (s.answers p v a) = owed (s.deferred p a) := by
  unfold answers owed
  split <;> simp

omit [DecidableEq P] [Fintype P] in
theorem requests_answers (v : P → ℕ) (a : P) : requests (s.answers p v a) = 0 := by
  unfold answers
  split <;> simp

omit [Fintype P] in
theorem pending_leave {a b : P} (ne : b ≠ a) (v : P → ℕ) :
    ((s.leave p u v).link a b).pending = (s.link a b).pending := by
  by_cases ha : a = p
  · subst ha
    simp [Link.pending, State.link, State.leave, ne, Channels.post_ne, requests_answers]
  · by_cases hb : b = p
    · subst hb
      simp only [Link.pending, State.link, State.leave, Channels.post_self, Channels.post_ne _ ha,
        update_self, replies_append, replies_answers, owed_zero]
      omega
    · simp [Link.pending, State.link, State.leave, ha, hb, Channels.post_ne]

theorem replied_leave (a : P) (v : P → ℕ) : (s.leave p u v).replied a = s.replied a :=
  replied_congr fun _ ne => pending_leave ne v

theorem replied_answer (other : q ≠ p) (head : s.chan q p = .request t :: rest) (a : P) :
    (s.answer p q u).replied a = s.replied a := by
  refine replied_congr fun b ne => ?_
  by_cases ha : a = p
  · subst ha
    by_cases hb : b = q
    · subst hb
      simp [Link.pending, State.link, State.answer, only, ne, Channels.post_ne, Channels.pop, head]
    · simp [Link.pending, State.link, State.answer, only, ne, hb, Channels.post_ne, Channels.pop]
  · by_cases hb : b = p
    · subst hb
      by_cases haq : a = q
      · subst haq
        simp only [Link.pending, State.link, State.answer, only, Channels.post_self,
          Channels.post_ne _ ha, Channels.pop_head, head, Channels.pop_ne _ (fun k => ne k.1)]
        simp
        omega
      · simp [Link.pending, State.link, State.answer, only, ha, haq, Channels.post_ne,
          Channels.pop]
    · simp [Link.pending, State.link, State.answer, ha, hb, Channels.post_ne, Channels.pop]

/-- The request stops being on its way and is put off. -/
theorem replied_defer (other : q ≠ p) (head : s.chan q p = .request t :: rest) (pos : t ≠ 0)
    (vacant : s.deferred p q = 0) (a : P) : (s.defer p q t u).replied a = s.replied a := by
  refine replied_congr fun b ne => ?_
  by_cases ha : a = p
  · subst ha
    by_cases hb : b = q
    · subst hb
      simp [Link.pending, State.link, State.defer, ne, Channels.pop, head]
    · simp [Link.pending, State.link, State.defer, ne, hb, Channels.pop]
  · by_cases hb : b = p
    · subst hb
      by_cases haq : a = q
      · subst haq
        simp only [Link.pending, State.link, State.defer, Channels.pop_head, head, vacant,
          update_self, Channels.pop_ne _ (fun k => ne k.1), owed_of_ne pos]
        simp
      · simp [Link.pending, State.link, State.defer, ha, haq, Channels.pop]
    · simp [Link.pending, State.link, State.defer, ha, hb, Channels.pop]

theorem replied_hearReply_ne (other : q ≠ p) (head : s.chan q p = .reply t :: rest) {a : P}
    (ne : a ≠ p) : (s.hearReply p q u).replied a = s.replied a := by
  refine replied_congr fun b _ => ?_
  have back : (s.hearReply p q u).chan b a = s.chan b a :=
    Channels.pop_ne _ (fun eq => ne eq.2)
  have out : requests ((s.hearReply p q u).chan a b) = requests (s.chan a b) := by
    by_cases eq : a = q ∧ b = p
    · obtain ⟨rfl, rfl⟩ := eq
      simp [State.hearReply, Channels.pop_head, head]
    · simp only [State.hearReply, Channels.pop_ne _ eq]
  simp only [Link.pending, State.link, out, back]
  rfl

/-- Each answer received is one of the request that stands. -/
theorem replied_hearReply (other : q ≠ p) (head : s.chan q p = .reply t :: rest)
    (single : (s.link p q).pending ≤ 1) :
    ((s.hearReply p q u).replied p).card = (s.replied p).card + 1 := by
  simp only [Link.pending, State.link, head, replies_reply] at single
  have fresh : q ∉ s.replied p := by
    intro mem
    have := (Finset.mem_filter.mp mem).2.2
    simp [Link.pending, State.link, head] at this
  rw [← Finset.card_insert_of_notMem fresh]
  congr 1
  ext b
  simp only [replied, Finset.mem_insert, Finset.mem_filter, Finset.mem_univ, true_and]
  have out (b : P) : (s.hearReply p q u).chan p b = s.chan p b :=
    Channels.pop_ne _ (fun eq => other eq.1.symm)
  by_cases hb : b = q
  · subst hb
    have back : (s.hearReply p b u).chan b p = rest := by
      simp [State.hearReply, Channels.pop_head, head]
    have same : (s.hearReply p b u).deferred b p = s.deferred b p := rfl
    simp only [other, ne_eq, not_false_eq_true, true_and, Link.pending, State.link, out, back,
      same, true_or, iff_true]
    omega
  · have back : (s.hearReply p q u).chan b p = s.chan b p :=
      Channels.pop_ne _ (fun eq => hb eq.1)
    have same : (s.hearReply p q u).deferred b p = s.deferred b p := rfl
    simp only [Link.pending, State.link, out, back, same, hb, false_or]

/-- A full count of answers is one from every other process. -/
theorem settled_of_card (full : (s.replied p).card = Fintype.card P - 1) (q : P) (ne : q ≠ p) :
    (s.link p q).pending = 0 := by
  have subset : s.replied p ⊆ Finset.univ.erase p := by
    intro b mem
    simpa using (Finset.mem_filter.mp mem).2.1
  have all : s.replied p = Finset.univ.erase p := by
    apply Finset.eq_of_subset_of_card_le subset
    rw [full, Finset.card_erase_of_mem (Finset.mem_univ p), Finset.card_univ]
  have mem : q ∈ s.replied p := by
    rw [all]
    simpa using ne
  exact (Finset.mem_filter.mp mem).2.2

theorem card_of_settled (settled : ∀ q, q ≠ p → (s.link p q).pending = 0) :
    (s.replied p).card = Fintype.card P - 1 := by
  have all : s.replied p = Finset.univ.erase p := by
    ext b
    simp only [replied, Finset.mem_filter, Finset.mem_univ, true_and, Finset.mem_erase, and_true]
    exact ⟨fun h => h.1, fun ne => ⟨ne, settled b ne⟩⟩
  rw [all, Finset.card_erase_of_mem (Finset.mem_univ p), Finset.card_univ]

end Replied

/-! ## The invariant -/

variable [LinearOrder P] [DecidableEq P]

structure Inv (s : State P) : Prop where
  grants : s.toGrants.Inv
  link : ∀ p q, p ≠ q → (s.link p q).Inv

inductive Step : State P → State P → Prop
  | tick {s p t} : s.clock p ≤ t → Step s (s.tick p t)
  | ask {s p t} : s.phase p = .idle → s.clock p < t → Step s (s.ask p t)
  | defer {s p q t u rest} : q ≠ p → s.chan q p = .request t :: rest → s.clock p ≤ u → t < u →
      s.phase p ≠ .idle → s.label p < toLex (t, q) → Step s (s.defer p q t u)
  | answer {s p q t u rest} : q ≠ p → s.chan q p = .request t :: rest → s.clock p ≤ u → t < u →
      (s.phase p ≠ .idle → toLex (t, q) < s.label p) → Step s (s.answer p q u)
  | hearReply {s p q t u rest} : q ≠ p → s.chan q p = .reply t :: rest → s.clock p ≤ u →
      Step s (s.hearReply p q u)
  | enter {s p} : s.phase p = .waiting → (∀ q, q ≠ p → (s.link p q).pending = 0) →
      Step s (s.enter p)
  | leave {s p u v} : s.phase p = .inside → s.clock p ≤ u → Step s (s.leave p u v)

variable {s s' : State P} {p q : P} {t u : ℕ} {rest : List Msg}

omit [DecidableEq P] in
theorem Inv.request_eq_zero (h : s.Inv) (idle : s.phase p = .idle) : s.request p = 0 := by
  by_contra standing
  exact (h.grants.standing p).mp standing idle

theorem Inv.tick (h : s.Inv) (le : s.clock p ≤ t) : (s.tick p t).Inv := by
  refine ⟨h.grants.tick le, fun a b ne => ?_⟩
  by_cases hb : b = p
  · subst hb
    simpa [State.link, State.tick, Grants.tick, Grants.label] using (h.link a b ne).tickPeer le
  · simpa [State.link, State.tick, Grants.tick, Grants.label, hb] using h.link a b ne

theorem Inv.ask (h : s.Inv) (idle : s.phase p = .idle) (lt : s.clock p < t) :
    (s.ask p t).Inv := by
  have pos : t ≠ 0 := Nat.ne_of_gt (Nat.zero_lt_of_lt lt)
  refine ⟨h.grants.ask idle lt, fun a b ne => ?_⟩
  by_cases ha : a = p
  · subst ha
    have := (h.link a b ne).ask (p := a) idle pos
    simpa [State.link, State.ask, Grants.ask, Grants.label, toPeers, ne.symm,
      Channels.post_ne] using this
  · by_cases hb : b = p
    · subst hb
      have := (h.link a b ne).peerAsk (q := b) idle lt
      simpa [State.link, State.ask, Grants.ask, Grants.label, toPeers, ne, Channels.post_ne] using
        this
    · simpa [State.link, State.ask, Grants.ask, Grants.label, ha, hb, Channels.post_ne] using
        h.link a b ne

omit [DecidableEq P] in
/-- A request that `p` takes is the one of its sender, which waits, and nothing else is left
of it. -/
theorem Inv.head_request (h : s.Inv) (other : q ≠ p) (head : s.chan q p = .request t :: rest) :
    s.phase q = .waiting ∧ t = s.request q ∧ s.deferred p q = 0 := by
  obtain ⟨waiting, stamp, none_, -⟩ := (h.link q p other).head_request head
  exact ⟨waiting, stamp, none_⟩

theorem Inv.defer (h : s.Inv) (other : q ≠ p) (head : s.chan q p = .request t :: rest)
    (le : s.clock p ≤ u) (gt : t < u) (active : s.phase p ≠ .idle)
    (first : s.label p < toLex (t, q)) : (s.defer p q t u).Inv := by
  obtain ⟨-, stamp, -⟩ := h.head_request other head
  have asked : toLex (t, q) = s.label q := by rw [Grants.label, stamp]
  rw [asked] at first
  refine ⟨h.grants.tick le, fun a b ne => ?_⟩
  by_cases ha : a = p
  · subst ha
    by_cases hb : b = q
    · subst hb
      have := (h.link a b ne).hear head [] (by simp)
      simpa [State.link, State.defer, Grants.tick, Grants.label, ne, ne.symm, Channels.pop, head]
        using this
    · simpa [State.link, State.defer, Grants.tick, Grants.label, ne, ne.symm, hb, Channels.pop]
        using h.link a b ne
  · by_cases hb : b = p
    · subst hb
      by_cases haq : a = q
      · subst haq
        have := (h.link a b ne).peerDefer head gt active first
        simpa [State.link, State.defer, Grants.tick, Grants.label, ne, ne.symm, Channels.pop, head]
          using this
      · have := (h.link a b ne).tickPeer le
        simpa [State.link, State.defer, Grants.tick, Grants.label, ne, ne.symm, haq, Channels.pop]
          using this
    · simpa [State.link, State.defer, Grants.tick, Grants.label, ha, hb, Channels.pop] using
        h.link a b ne

theorem Inv.answer (h : s.Inv) (other : q ≠ p) (head : s.chan q p = .request t :: rest)
    (le : s.clock p ≤ u) (gt : t < u) (second : s.phase p ≠ .idle → toLex (t, q) < s.label p) :
    (s.answer p q u).Inv := by
  obtain ⟨-, stamp, -⟩ := h.head_request other head
  have asked : toLex (t, q) = s.label q := by rw [Grants.label, stamp]
  rw [asked] at second
  refine ⟨h.grants.tick le, fun a b ne => ?_⟩
  by_cases ha : a = p
  · subst ha
    by_cases hb : b = q
    · subst hb
      have := (h.link a b ne).hear head [.reply u] (by simp)
      simpa [State.link, State.answer, Grants.tick, Grants.label, only, ne, ne.symm,
        Channels.post_ne, Channels.pop, head] using this
    · simpa [State.link, State.answer, Grants.tick, Grants.label, only, ne, ne.symm, hb,
        Channels.post_ne, Channels.pop] using h.link a b ne
  · by_cases hb : b = p
    · subst hb
      by_cases haq : a = q
      · subst haq
        have := (h.link a b ne).peerAnswer head gt second u
        simpa [State.link, State.answer, Grants.tick, Grants.label, only, ne, ne.symm,
          Channels.post_ne, Channels.pop, head] using this
      · have := (h.link a b ne).tickPeer le
        simpa [State.link, State.answer, Grants.tick, Grants.label, only, ne, ne.symm, haq,
          Channels.post_ne, Channels.pop] using this
    · simpa [State.link, State.answer, Grants.tick, Grants.label, ha, hb, Channels.post_ne,
        Channels.pop] using h.link a b ne

theorem Inv.hearReply (h : s.Inv) (other : q ≠ p) (head : s.chan q p = .reply t :: rest)
    (le : s.clock p ≤ u) : (s.hearReply p q u).Inv := by
  refine ⟨h.grants.tick le, fun a b ne => ?_⟩
  by_cases ha : a = p
  · subst ha
    by_cases hb : b = q
    · subst hb
      have := (h.link a b ne).hearReply head
      simpa [State.link, State.hearReply, Grants.tick, Grants.label, ne, ne.symm, Channels.pop,
        head] using this
    · simpa [State.link, State.hearReply, Grants.tick, Grants.label, ne, ne.symm, hb,
        Channels.pop] using h.link a b ne
  · by_cases hb : b = p
    · subst hb
      by_cases haq : a = q
      · subst haq
        have := (h.link a b ne).peerHearReply head le
        simpa [State.link, State.hearReply, Grants.tick, Grants.label, ne, ne.symm, Channels.pop,
          head] using this
      · have := (h.link a b ne).tickPeer le
        simpa [State.link, State.hearReply, Grants.tick, Grants.label, ne, ne.symm, haq,
          Channels.pop] using this
    · simpa [State.link, State.hearReply, Grants.tick, Grants.label, ha, hb, Channels.pop] using
        h.link a b ne

omit [DecidableEq P] in
theorem Inv.waiting_of_reply (h : s.Inv) (other : q ≠ p) (head : s.chan q p = .reply t :: rest) :
    s.phase p = .waiting := by
  by_contra k
  have := (Link.pending_eq_zero.mp ((h.link p q other.symm).settled k)).2.2
  simp [State.link, head] at this

omit [DecidableEq P] in
/-- A request that all have answered comes before every request that stands. -/
theorem Inv.first (h : s.Inv) (active : s.phase p ≠ .idle)
    (settled : ∀ q, q ≠ p → (s.link p q).pending = 0) : s.First p where
  passed q ne :=
    ((h.link p q ne.symm).later active (Link.pending_eq_zero.mp (settled q ne)).1).le
  least q ne standing := by
    obtain ⟨clean, none_, -⟩ := Link.pending_eq_zero.mp (settled q ne)
    exact (h.link p q ne.symm).earned active clean none_ standing

theorem Inv.enter (h : s.Inv) (waiting : s.phase p = .waiting)
    (settled : ∀ q, q ≠ p → (s.link p q).pending = 0) : (s.enter p).Inv := by
  refine ⟨h.grants.enter waiting (h.first (by simp [waiting]) settled), fun a b ne => ?_⟩
  by_cases ha : a = p
  · subst ha
    have := (h.link a b ne).enter waiting (settled b ne.symm)
    simpa [State.link, State.enter, Grants.enter, Grants.label, ne.symm] using this
  · by_cases hb : b = p
    · subst hb
      have := (h.link a b ne).peerEnter waiting
      simpa [State.link, State.enter, Grants.enter, Grants.label, ne] using this
    · simpa [State.link, State.enter, Grants.enter, Grants.label, ha, hb] using h.link a b ne

theorem Inv.leave (h : s.Inv) (inside : s.phase p = .inside) (le : s.clock p ≤ u) (v : P → ℕ) :
    (s.leave p u v).Inv := by
  have replied (b : P) : ∀ m ∈ s.answers p v b, ∃ u, m = .reply u := by
    intro m mem
    unfold answers at mem
    split at mem
    · cases mem
    · exact ⟨v b, List.mem_singleton.mp mem⟩
  refine ⟨h.grants.leave le, fun a b ne => ?_⟩
  by_cases ha : a = p
  · subst ha
    have := (h.link a b ne).leave inside (toLex (0, a)) (replied b)
    simpa [State.link, State.leave, Grants.leave, Grants.label, ne, ne.symm, Channels.post_ne]
      using this
  · by_cases hb : b = p
    · subst hb
      have := (h.link a b ne).peerLeave le (toLex (0, b)) (replies_answers v a)
      simpa [State.link, State.leave, Grants.leave, Grants.label, ne, Channels.post_ne] using this
    · simpa [State.link, State.leave, Grants.leave, Grants.label, ha, hb, Channels.post_ne] using
        h.link a b ne

theorem Inv.step (h : s.Inv) (step : Step s s') : s'.Inv := by
  cases step with
  | tick le => exact h.tick le
  | ask idle lt => exact h.ask idle lt
  | defer other head le gt active first => exact h.defer other head le gt active first
  | answer other head le gt second => exact h.answer other head le gt second
  | hearReply other head le => exact h.hearReply other head le
  | enter waiting settled => exact h.enter waiting settled
  | leave inside le => exact h.leave inside le _

end State

end Distra.Exclusion.RicartAgrawala
