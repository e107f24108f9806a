import Distra.Ipc.Message
import Mathlib.Data.List.Nodup
import Mathlib.Logic.Function.Basic

/-!
# The pipes of `ipcio.c`

The parent makes one pipe for every ordered pair of processes, before its children inherit them
all. Then every process closes the ends that it has no use for.
-/

namespace Distra.Ipc

inductive Side where
  | read
  | write
  deriving DecidableEq

/-- One end of the pipe that some call of `pipe` has made. The calls are counted from 0. -/
structure PipeEnd where
  pipe : Nat
  side : Side
  deriving DecidableEq

/-- The descriptors that the calls of `pipe` return. -/
structure PipeCalls where
  fd : PipeEnd → Int
  pos : ∀ e, 0 < fd e
  injective : Function.Injective fd

theorem lowestFd_pos (e : PipeEnd) :
    (0 : Int) < 3 + 2 * e.pipe + (if e.side = .read then 0 else 1) := by
  split <;> omega

theorem lowestFd_injective : Function.Injective
    fun e : PipeEnd => (3 + 2 * e.pipe + (if e.side = .read then 0 else 1) : Int) := by
  rintro ⟨k, side⟩ ⟨k', side'⟩ eq
  cases side <;> cases side' <;> simp at eq <;> simp <;> omega

/-- The lowest descriptors after those of the standard streams. -/
def PipeCalls.lowest : PipeCalls where
  fd e := 3 + 2 * e.pipe + (if e.side = .read then 0 else 1)
  pos := lowestFd_pos
  injective := lowestFd_injective

/-- The pipe ends that a process has open. -/
abbrev Fds := Int → Option PipeEnd

/-- `close`, which fails for a descriptor that is not open. -/
def closeFd (fds : Fds) (fd : Int) : Option Fds :=
  if fds fd = none then none else some (Function.update fds fd none)

structure PipeDescriptor where
  readFd : Int
  writeFd : Int
  deriving DecidableEq

def PipeDescriptor.fd (d : PipeDescriptor) : Side → Int
  | .read => d.readFd
  | .write => d.writeFd

/-- The assignment of -1 after a `close`. -/
def PipeDescriptor.clear (d : PipeDescriptor) : Side → PipeDescriptor
  | .read => { d with readFd := -1 }
  | .write => { d with writeFd := -1 }

/-- `struct IPCIO`. The pair `(dst, from)` is the place `pipes[dst][from]`. -/
structure Ipcio where
  id : Nat
  numChildren : Nat
  pipes : Nat × Nat → PipeDescriptor

/-- What a process knows of the pipes, and what of them it has open. -/
structure Wiring where
  ipcio : Ipcio
  fds : Fds

/-- The places of the table in the order of the loops. -/
def places (numChildren : Nat) : List (Nat × Nat) :=
  (List.range (numChildren + 1)).flatMap fun dst =>
    (List.range (numChildren + 1)).map fun fr => (dst, fr)

/-- The process that keeps an end of the pipe at a place. -/
def owner (place : Nat × Nat) : Side → Nat
  | .read => place.1
  | .write => place.2

section Code

/-- The body of the loops of `ipc_init`, with the calls of `pipe` so far. -/
def ipcInitPipe (calls : PipeCalls) (acc : Wiring × Nat) (place : Nat × Nat) : Wiring × Nat :=
  let (w, k) := acc
  if place.1 ≠ place.2 then
    ({ ipcio := { w.ipcio with
          pipes := Function.update w.ipcio.pipes place
            ⟨calls.fd ⟨k, .read⟩, calls.fd ⟨k, .write⟩⟩ }
       fds := Function.update (Function.update w.fds (calls.fd ⟨k, .read⟩) (some ⟨k, .read⟩))
          (calls.fd ⟨k, .write⟩) (some ⟨k, .write⟩) },
      k + 1)
  else (w, k)

/-- `ipc_init`, when no call of `pipe` fails. -/
def ipcInit (calls : PipeCalls) (numChildren : Nat) : Wiring :=
  ((places numChildren).foldl (ipcInitPipe calls)
    (⟨⟨parentId, numChildren, fun _ => ⟨0, 0⟩⟩, fun _ => none⟩, 0)).1

/-- One of the two `if`s in `_close_unused_pipes`. -/
def closeEnd (w : Wiring) (place : Nat × Nat) (side : Side) : Option Wiring :=
  if owner place side ≠ w.ipcio.id then do
    let fds ← closeFd w.fds ((w.ipcio.pipes place).fd side)
    return {
      ipcio := { w.ipcio with
        pipes := Function.update w.ipcio.pipes place ((w.ipcio.pipes place).clear side) }
      fds := fds }
  else return w

def closeUnusedPipe (w : Wiring) (place : Nat × Nat) : Option Wiring :=
  if place.1 = place.2 then return w
  else do
    let w ← closeEnd w place .read
    closeEnd w place .write

/-- `_close_unused_pipes`. There is no result when a `close` fails. -/
def closeUnusedPipes (w : Wiring) : Option Wiring :=
  (places w.ipcio.numChildren).foldlM closeUnusedPipe w

def ipcSetUpChild (w : Wiring) (childId : Nat) : Option Wiring :=
  closeUnusedPipes { w with ipcio := { w.ipcio with id := parentId + 1 + childId } }

def ipcSetUpParent (w : Wiring) : Option Wiring := closeUnusedPipes w

end Code

/-! ## After `ipc_init` -/

/-- The places that get a pipe. -/
def links (numChildren : Nat) : List (Nat × Nat) :=
  (places numChildren).filter fun place => place.1 ≠ place.2

theorem mem_links {n : Nat} {place : Nat × Nat} :
    place ∈ links n ↔ place.1 ≤ n ∧ place.2 ≤ n ∧ place.1 ≠ place.2 := by
  obtain ⟨dst, fr⟩ := place
  have within (a : Nat) : a < n + 1 ↔ a ≤ n := Nat.lt_succ_iff
  simp [links, places, within, and_assoc]

theorem links_nodup (n : Nat) : (links n).Nodup := by
  have places : (places n).Nodup := (List.nodup_range (n := n + 1)).product List.nodup_range
  exact places.filter _

/-! ## Open ends -/

/-- The ends that are open, under the descriptors that `pipe` has returned for them. -/
def Opens (calls : PipeCalls) (fds : Fds) (P : PipeEnd → Prop) : Prop :=
  ∀ fd e, fds fd = some e ↔ fd = calls.fd e ∧ P e

section Opens

variable {calls : PipeCalls} {fds : Fds} {P Q : PipeEnd → Prop}

theorem opens_none (calls : PipeCalls) : Opens calls (fun _ => none) fun _ => False :=
  fun _ _ => ⟨nofun, fun h => h.2.elim⟩

theorem Opens.congr (h : Opens calls fds P) (iff : ∀ e, P e ↔ Q e) : Opens calls fds Q :=
  fun fd e => (h fd e).trans (and_congr_right fun _ => iff e)

theorem Opens.open (h : Opens calls fds P) (end_ : PipeEnd) :
    Opens calls (Function.update fds (calls.fd end_) (some end_)) fun e => P e ∨ e = end_ := by
  intro fd e
  by_cases own : fd = calls.fd end_
  · subst own
    rw [Function.update_self, calls.injective.eq_iff, Option.some.injEq]
    exact ⟨fun eq => ⟨eq, .inr eq.symm⟩, And.left⟩
  · rw [Function.update_of_ne own, h fd e]
    refine and_congr_right fun eq => (or_iff_left ?_).symm
    rintro rfl
    exact own eq

/-- An open end can be closed, once. -/
theorem Opens.close (h : Opens calls fds P) (end_ : PipeEnd) (held : P end_) :
    ∃ fds', closeFd fds (calls.fd end_) = some fds' ∧
      Opens calls fds' fun e => P e ∧ e ≠ end_ := by
  have some_ : fds (calls.fd end_) ≠ none := by
    rw [(h (calls.fd end_) end_).mpr ⟨rfl, held⟩]
    exact Option.some_ne_none _
  refine ⟨_, if_neg some_, fun fd e => ?_⟩
  by_cases own : fd = calls.fd end_
  · subst own
    rw [Function.update_self, calls.injective.eq_iff]
    exact ⟨nofun, fun both => absurd both.1.symm both.2.2⟩
  · rw [Function.update_of_ne own, h fd e]
    refine and_congr_right fun eq => (and_iff_left ?_).symm
    rintro rfl
    exact own eq

end Opens

/-- The first calls of `pipe` are those for the places `laid`. -/
structure Laid (calls : PipeCalls) (n : Nat) (laid : List (Nat × Nat)) (w : Wiring) : Prop where
  id : w.ipcio.id = parentId
  numChildren : w.ipcio.numChildren = n
  table : ∀ place ∈ laid, w.ipcio.pipes place =
    ⟨calls.fd ⟨laid.idxOf place, .read⟩, calls.fd ⟨laid.idxOf place, .write⟩⟩
  rest : ∀ place ∉ laid, w.ipcio.pipes place = ⟨0, 0⟩
  opens : Opens calls w.fds fun e => e.pipe < laid.length

section Init

variable {calls : PipeCalls} {n : Nat} {laid : List (Nat × Nat)} {place : Nat × Nat}
  {w w' : Wiring}

theorem ipcInitPipe_of_ne (ne : place.1 ≠ place.2) (w : Wiring) (k : Nat) :
    ipcInitPipe calls (w, k) place =
      ({ ipcio := { w.ipcio with
            pipes := Function.update w.ipcio.pipes place
              ⟨calls.fd ⟨k, .read⟩, calls.fd ⟨k, .write⟩⟩ }
         fds := Function.update
            (Function.update w.fds (calls.fd ⟨k, .read⟩) (some ⟨k, .read⟩))
            (calls.fd ⟨k, .write⟩) (some ⟨k, .write⟩) },
        k + 1) :=
  if_pos ne

/-- One more pipe. -/
theorem Laid.snoc (h : Laid calls n laid w) (fresh : place ∉ laid) (ne : place.1 ≠ place.2) :
    Laid calls n (laid ++ [place]) (ipcInitPipe calls (w, laid.length) place).1 := by
  have last : (laid ++ [place]).idxOf place = laid.length := by
    rw [List.idxOf_append_of_notMem fresh, List.idxOf_cons_self, Nat.add_zero]
  rw [ipcInitPipe_of_ne ne]
  refine ⟨h.id, h.numChildren, fun place' mem => ?_, fun place' notMem => ?_, ?_⟩
  · by_cases new : place' = place
    · rw [new, last]
      exact Function.update_self _ _ _
    · have old : place' ∈ laid := by
        rcases List.mem_append.mp mem with old | mem
        · exact old
        · exact absurd (List.mem_singleton.mp mem) new
      rw [List.idxOf_append_of_mem old, ← h.table place' old]
      exact Function.update_of_ne new _ _
  · have new : place' ≠ place := by
      rintro rfl
      exact notMem (List.mem_append_right _ List.mem_cons_self)
    rw [← h.rest place' fun mem => notMem (List.mem_append_left _ mem)]
    exact Function.update_of_ne new _ _
  · refine ((h.opens.open _).open _).congr fun e => ?_
    obtain ⟨k, side⟩ := e
    rw [List.length_append, List.length_singleton, Nat.lt_succ_iff_lt_or_eq, or_assoc]
    refine or_congr_right ?_
    cases side <;> simp

theorem ipcInit_eq (calls : PipeCalls) (n : Nat) :
    ipcInit calls n = ((links n).foldl (ipcInitPipe calls)
      (⟨⟨parentId, n, fun _ => ⟨0, 0⟩⟩, fun _ => none⟩, 0)).1 := by
  have body : ipcInitPipe calls = fun acc place =>
      if decide (place.1 ≠ place.2) = true then ipcInitPipe calls acc place else acc := by
    funext acc place
    by_cases ne : place.1 ≠ place.2
    · rw [if_pos (decide_eq_true ne)]
    · rw [if_neg (by simpa using ne)]
      exact if_neg ne
  rw [ipcInit, links, List.foldl_filter, ← body]

theorem laid_foldl (h : Laid calls n laid w) (rest : List (Nat × Nat))
    (nodup : (laid ++ rest).Nodup) (ne : ∀ place ∈ rest, place.1 ≠ place.2) :
    Laid calls n (laid ++ rest) (rest.foldl (ipcInitPipe calls) (w, laid.length)).1 := by
  induction rest generalizing laid w with
  | nil => rwa [List.append_nil]
  | cons place rest ih =>
    obtain ⟨first, others⟩ := List.forall_mem_cons.mp ne
    have fresh : place ∉ laid := fun mem =>
      (List.nodup_append.mp nodup).2.2 place mem place List.mem_cons_self rfl
    rw [List.append_cons] at nodup ⊢
    have snoc := ih (h.snoc fresh first) nodup others
    rw [List.length_append, List.length_singleton] at snoc
    rw [List.foldl_cons]
    rwa [ipcInitPipe_of_ne first] at snoc ⊢

/-- After `ipc_init` the parent has both ends of all pipes. -/
theorem laid_ipcInit (calls : PipeCalls) (n : Nat) : Laid calls n (links n) (ipcInit calls n) := by
  have start : Laid calls n [] ⟨⟨parentId, n, fun _ => ⟨0, 0⟩⟩, fun _ => none⟩ :=
    ⟨rfl, rfl, nofun, fun _ _ => rfl, (opens_none calls).congr fun e => by simp⟩
  rw [ipcInit_eq]
  exact laid_foldl start (links n) (links_nodup n) fun place mem => (mem_links.mp mem).2.2

end Init

/-! ## After `_close_unused_pipes` -/

/-- The ends in the order in which they are looked at. -/
def ends (places : List (Nat × Nat)) : List ((Nat × Nat) × Side) :=
  places.flatMap fun place => [(place, .read), (place, .write)]

section Close

variable {calls : PipeCalls} {n self : Nat} {place : Nat × Nat} {side : Side} {w w' : Wiring}
  {seen : List ((Nat × Nat) × Side)}

/-- The pipe at a place. -/
def pipeOf (n : Nat) (place : Nat × Nat) : Nat := (links n).idxOf place

theorem pipeOf_inj {place' : Nat × Nat} (mem : place ∈ links n) :
    pipeOf n place = pipeOf n place' ↔ place = place' := List.idxOf_inj mem

/-- Among the ends seen so far, process `p` only has its own. -/
structure Closed (calls : PipeCalls) (n p : Nat) (seen : List ((Nat × Nat) × Side))
    (w : Wiring) : Prop where
  id : w.ipcio.id = p
  numChildren : w.ipcio.numChildren = n
  table : ∀ place ∈ links n, ∀ side, ((place, side) ∈ seen → owner place side = p) →
    (w.ipcio.pipes place).fd side = calls.fd ⟨pipeOf n place, side⟩
  rest : ∀ place ∉ links n, w.ipcio.pipes place = ⟨0, 0⟩
  opens : Opens calls w.fds fun e => ∃ place ∈ links n, e.pipe = pipeOf n place ∧
    ((place, e.side) ∈ seen → owner place e.side = p)

theorem PipeDescriptor.fd_clear (d : PipeDescriptor) {side side' : Side} (ne : side' ≠ side) :
    (d.clear side).fd side' = d.fd side' := by
  cases side <;> cases side' <;> first | rfl | exact absurd rfl ne

/-- Another end is looked at, and closed if it is not an own one. -/
theorem Closed.closeEnd (h : Closed calls n self seen w) (mem : place ∈ links n)
    (fresh : (place, side) ∉ seen) :
    ∃ w', closeEnd w place side = some w' ∧ Closed calls n self (seen ++ [(place, side)]) w' := by
  have fd := h.table place mem side fun seen => absurd seen fresh
  by_cases own : owner place side = self
  · refine ⟨w, if_neg (by rw [h.id]; exact not_not_intro own), h.id, h.numChildren, ?_,
      h.rest, ?_⟩
    · exact fun place' mem' side' held =>
        h.table place' mem' side' fun seen => held (List.mem_append_left _ seen)
    · refine h.opens.congr fun e => exists_congr fun place' => ?_
      refine and_congr_right fun _ => and_congr_right fun _ => ?_
      refine ⟨fun held seen => ?_, fun held seen => held (List.mem_append_left _ seen)⟩
      rcases List.mem_append.mp seen with seen | last
      · exact held seen
      · obtain ⟨rfl, side_⟩ := Prod.mk.inj (List.mem_singleton.mp last)
        rw [side_]
        exact own
  · obtain ⟨fds', close, opens⟩ := h.opens.close ⟨pipeOf n place, side⟩
      ⟨place, mem, rfl, fun seen => absurd seen fresh⟩
    rw [← fd] at close
    have notLast {place' : Nat × Nat} {side' : Side} (held : (place', side') ∈
        seen ++ [(place, side)] → owner place' side' = self) : (place', side') ≠ (place, side) := by
      rintro eq
      obtain ⟨rfl, rfl⟩ := Prod.mk.inj eq
      exact own (held (List.mem_append_right _ List.mem_cons_self))
    refine ⟨{
        ipcio := { w.ipcio with
          pipes := Function.update w.ipcio.pipes place ((w.ipcio.pipes place).clear side) }
        fds := fds' }, ?_, h.id, h.numChildren, fun place' mem' side' held => ?_,
      fun place' notMem => ?_, ?_⟩
    · rw [Ipc.closeEnd, if_pos (by rw [h.id]; exact own), close]
      rfl
    · rw [← h.table place' mem' side' fun seen => held (List.mem_append_left _ seen)]
      by_cases same : place' = place
      · subst same
        have other : side' ≠ side := fun eq => notLast held (Prod.ext rfl eq)
        exact (congrArg (fun d : PipeDescriptor => d.fd side') (Function.update_self _ _ _)).trans
          (PipeDescriptor.fd_clear _ other)
      · exact congrArg (fun d : PipeDescriptor => d.fd side') (Function.update_of_ne same _ _)
    · have other : place' ≠ place := by
        rintro rfl
        exact notMem mem
      rw [← h.rest place' notMem]
      exact Function.update_of_ne other _ _
    · refine opens.congr fun e => ?_
      constructor
      · rintro ⟨⟨place', mem', pipe, held⟩, ne⟩
        refine ⟨place', mem', pipe, fun seen => ?_⟩
        rcases List.mem_append.mp seen with seen | last
        · exact held seen
        · obtain ⟨rfl, side_⟩ := Prod.mk.inj (List.mem_singleton.mp last)
          obtain ⟨k, side'⟩ := e
          obtain rfl : k = _ := pipe
          obtain rfl : side' = side := side_
          exact absurd rfl ne
      · rintro ⟨place', mem', pipe, held⟩
        refine ⟨⟨place', mem', pipe, fun seen => held (List.mem_append_left _ seen)⟩, ?_⟩
        rintro rfl
        obtain rfl := (pipeOf_inj mem).mp pipe
        exact notLast held rfl

theorem Closed.foldlM (h : Closed calls n self seen w) (rest : List ((Nat × Nat) × Side))
    (nodup : (seen ++ rest).Nodup) (linked : ∀ x ∈ rest, x.1 ∈ links n) :
    ∃ w', rest.foldlM (fun w x => Ipc.closeEnd w x.1 x.2) w = some w' ∧
      Closed calls n self (seen ++ rest) w' := by
  induction rest generalizing seen w with
  | nil => exact ⟨w, rfl, by rwa [List.append_nil]⟩
  | cons x rest ih =>
    obtain ⟨first, others⟩ := List.forall_mem_cons.mp linked
    have fresh : x ∉ seen := fun mem =>
      (List.nodup_append.mp nodup).2.2 x mem x List.mem_cons_self rfl
    obtain ⟨w₁, close, closed⟩ := h.closeEnd first fresh
    rw [List.append_cons] at nodup ⊢
    obtain ⟨w', rest_, closed'⟩ := ih closed nodup others
    refine ⟨w', ?_, closed'⟩
    rw [List.foldlM_cons, close]
    exact rest_

theorem mem_ends {places : List (Nat × Nat)} : (place, side) ∈ ends places ↔ place ∈ places := by
  cases side <;> simp [ends]

theorem ends_nodup {places : List (Nat × Nat)} (nodup : places.Nodup) : (ends places).Nodup := by
  refine List.nodup_flatMap.mpr ⟨fun place _ => by simp, nodup.imp fun ne x mem mem' => ne ?_⟩
  have place_eq {place : Nat × Nat} (mem : x ∈ [(place, Side.read), (place, Side.write)]) :
      x.1 = place := by
    rcases List.mem_pair.mp mem with rfl | rfl <;> rfl
  rw [← place_eq mem, ← place_eq mem']

/-- The loops skip the places without a pipe. -/
theorem foldlM_closeUnusedPipe (places : List (Nat × Nat)) (w : Wiring) :
    places.foldlM closeUnusedPipe w =
      (ends (places.filter fun place => place.1 ≠ place.2)).foldlM
        (fun w x => Ipc.closeEnd w x.1 x.2) w := by
  induction places generalizing w with
  | nil => rfl
  | cons place places ih =>
    rw [List.foldlM_cons, closeUnusedPipe]
    by_cases ne : place.1 ≠ place.2
    · have kept : (place :: places).filter (fun place => place.1 ≠ place.2) =
          place :: places.filter fun place => place.1 ≠ place.2 :=
        List.filter_cons_of_pos (decide_eq_true ne)
      rw [if_neg ne, kept, ends, List.flatMap_cons, List.foldlM_append,
        bind_assoc]
      simp only [List.foldlM_cons, List.foldlM_nil, bind_pure, bind_assoc]
      refine bind_congr fun w => bind_congr fun w => ?_
      exact ih w
    · have skipped : (place :: places).filter (fun place => place.1 ≠ place.2) =
          places.filter fun place => place.1 ≠ place.2 :=
        List.filter_cons_of_neg (by simpa using ne)
      rw [if_pos (not_not.mp ne), skipped]
      exact ih w

theorem pipe_lt_iff (n k : Nat) :
    k < (links n).length ↔ ∃ place ∈ links n, k = pipeOf n place := by
  constructor
  · intro lt
    exact ⟨(links n)[k], List.getElem_mem lt, ((links_nodup n).idxOf_getElem k lt).symm⟩
  · rintro ⟨place, mem, rfl⟩
    exact List.idxOf_lt_length_of_mem mem

/-- The table and the descriptors that a process has inherited, before it has closed any. -/
theorem closed_nil (calls : PipeCalls) (n self : Nat) :
    Closed calls n self []
      { ipcInit calls n with ipcio := { (ipcInit calls n).ipcio with id := self } } := by
  have laid := laid_ipcInit calls n
  refine ⟨rfl, laid.numChildren, fun place mem side _ => ?_, laid.rest,
    laid.opens.congr fun e => ?_⟩
  · refine (congrArg (fun d : PipeDescriptor => d.fd side) (laid.table place mem)).trans ?_
    cases side <;> rfl
  · rw [pipe_lt_iff]
    refine exists_congr fun place => and_congr_right fun _ => (and_iff_left ?_).symm
    exact nofun

/-- No `close` fails, and a process keeps its own ends only. -/
theorem closeUnusedPipes_spec (calls : PipeCalls) (n self : Nat) :
    ∃ w, closeUnusedPipes
        { ipcInit calls n with ipcio := { (ipcInit calls n).ipcio with id := self } } = some w ∧
      Closed calls n self (ends (links n)) w := by
  have start := closed_nil calls n self
  obtain ⟨w, close, closed⟩ := start.foldlM (ends (links n)) (ends_nodup (links_nodup n))
    fun x mem => mem_ends.mp mem
  refine ⟨w, ?_, closed⟩
  rw [closeUnusedPipes, foldlM_closeUnusedPipe, start.numChildren]
  exact close

end Close

end Distra.Ipc
