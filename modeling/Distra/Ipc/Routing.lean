import Distra.Ipc.Descriptors
import Distra.Ipc.Packed

/-!
# From `ipc_write` to `ipc_read`

`spawn_children` makes the pipes, forks the children, and every process closes what it does not
need. Whatever the order of these steps and of the reads and writes, what one process writes to
another one is what that one reads from it.
-/

namespace Distra.Ipc

inductive Phase where
  | unborn
  /-- The parent in the loop of `spawn_children`, after some forks. -/
  | spawning (i : Nat)
  /-- A child before `ipc_set_up_child`. -/
  | forked (i : Nat)
  | running
  | exited
  deriving DecidableEq

structure WiredProcess where
  phase : Phase
  wiring : Wiring

/-- A process without descriptors. -/
def WiredProcess.without (phase : Phase) : WiredProcess :=
  ⟨phase, ⟨⟨0, 0, fun _ => ⟨0, 0⟩⟩, fun _ => none⟩⟩

structure System where
  procs : Nat → WiredProcess
  /-- The bytes in the pipes. -/
  queues : Nat → List Byte

def System.set (s : System) (p : Nat) (proc : WiredProcess) : System :=
  { s with procs := Function.update s.procs p proc }

/-- After `ipc_init` in the parent. -/
def System.initial (calls : PipeCalls) (n : Nat) : System where
  procs p := if p = parentId then ⟨.spawning 0, ipcInit calls n⟩ else .without .unborn
  queues _ := []

inductive WireEvent where
  | fork
  | setUp (p : Nat)
  /-- The bytes that a call of `ipc_write` has written. -/
  | write (p dst : Nat) (bytes : List Byte)
  /-- The bytes that a `read` in `ipc_read` has returned. -/
  | read (p fr : Nat) (bytes : List Byte)
  | exit (p : Nat)

/-- The end of a pipe that `ipc_write` writes to. -/
def ipcWriteEnd (w : Wiring) (dst : Nat) : Option PipeEnd :=
  if dst > w.ipcio.numChildren then none else w.fds (w.ipcio.pipes (dst, w.ipcio.id)).writeFd

/-- The end of a pipe that `ipc_read` reads from. -/
def ipcReadEnd (w : Wiring) (fr : Nat) : Option PipeEnd :=
  if fr > w.ipcio.numChildren then none else w.fds (w.ipcio.pipes (w.ipcio.id, fr)).readFd

inductive WireStep (n : Nat) (s : System) : WireEvent → System → Prop
  | fork {i} : (s.procs parentId).phase = .spawning i → i < n →
      WireStep n s .fork
        ((s.set (i + 1) ⟨.forked i, (s.procs parentId).wiring⟩).set parentId
          ⟨.spawning (i + 1), (s.procs parentId).wiring⟩)
  | setUpParent {w} : (s.procs parentId).phase = .spawning n →
      ipcSetUpParent (s.procs parentId).wiring = some w →
      WireStep n s (.setUp parentId) (s.set parentId ⟨.running, w⟩)
  | setUpChild {p i w} : (s.procs p).phase = .forked i →
      ipcSetUpChild (s.procs p).wiring i = some w →
      WireStep n s (.setUp p) (s.set p ⟨.running, w⟩)
  | write {p dst k bytes} : (s.procs p).phase = .running →
      ipcWriteEnd (s.procs p).wiring dst = some ⟨k, .write⟩ →
      WireStep n s (.write p dst bytes)
        { s with queues := Function.update s.queues k (s.queues k ++ bytes) }
  | read {p fr k bytes rest} : (s.procs p).phase = .running →
      ipcReadEnd (s.procs p).wiring fr = some ⟨k, .read⟩ → s.queues k = bytes ++ rest →
      WireStep n s (.read p fr bytes) { s with queues := Function.update s.queues k rest }
  | exit {p} : (s.procs p).phase = .running →
      WireStep n s (.exit p) (s.set p (.without .exited))

/-- Finite runs, with what has happened. -/
inductive WireRun (calls : PipeCalls) (n : Nat) : List WireEvent → System → Prop
  | nil : WireRun calls n [] (.initial calls n)
  | snoc {es s e s'} : WireRun calls n es s → WireStep n s e s' →
      WireRun calls n (es ++ [e]) s'

/-- The bytes that `p` has written to `q`. -/
def writtenTo (p q : Nat) (es : List WireEvent) : List Byte :=
  es.flatMap fun
    | .write p' q' bytes => if p' = p ∧ q' = q then bytes else []
    | _ => []

/-- The bytes that `q` has read from `p`. -/
def readFrom (q p : Nat) (es : List WireEvent) : List Byte :=
  es.flatMap fun
    | .read q' p' bytes => if q' = q ∧ p' = p then bytes else []
    | _ => []

/-! ## Who has what -/

/-- What a process knows and has in its phase. -/
def Wired (calls : PipeCalls) (n p : Nat) (proc : WiredProcess) : Prop :=
  match proc.phase with
  | .unborn | .exited => ∀ fd, proc.wiring.fds fd = none
  | .spawning i => p = parentId ∧ i ≤ n ∧ proc.wiring = ipcInit calls n
  | .forked i => p = parentId + 1 + i ∧ i < n ∧ proc.wiring = ipcInit calls n
  | .running => p ≤ n ∧ Closed calls n p (ends (links n)) proc.wiring

section Closed

variable {calls : PipeCalls} {n p q fr dst fd : Nat} {w : Wiring} {e : PipeEnd}

/-- The ends that a process keeps. -/
theorem Closed.fds_eq_some (h : Closed calls n p (ends (links n)) w) {fd : Int} :
    w.fds fd = some e ↔ fd = calls.fd e ∧
      ∃ place ∈ links n, e.pipe = pipeOf n place ∧ owner place e.side = p := by
  rw [h.opens fd e]
  refine and_congr_right fun _ => exists_congr fun place => and_congr_right fun mem => ?_
  exact and_congr_right fun _ => forall_prop_of_true (mem_ends.mpr mem)

theorem Closed.own_end (h : Closed calls n p (ends (links n)) w) {place : Nat × Nat}
    (side : Side) (mem : place ∈ links n) (own : owner place side = p) :
    w.fds ((w.ipcio.pipes place).fd side) = some ⟨pipeOf n place, side⟩ := by
  rw [h.table place mem side fun _ => own, h.fds_eq_some]
  exact ⟨rfl, place, mem, rfl, own⟩

/-- What a descriptor of the table stands for. -/
theorem Closed.end_eq (h : Closed calls n p (ends (links n)) w) {place : Nat × Nat}
    (side : Side) (own : owner place side = p)
    (open_ : w.fds ((w.ipcio.pipes place).fd side) = some e) :
    place ∈ links n ∧ e = ⟨pipeOf n place, side⟩ := by
  by_cases mem : place ∈ links n
  · rw [h.own_end side mem own] at open_
    exact ⟨mem, (Option.some_inj.mp open_).symm⟩
  · rw [h.rest place mem] at open_
    have zero : (PipeDescriptor.mk 0 0).fd side = 0 := by cases side <;> rfl
    rw [zero, h.fds_eq_some] at open_
    exact absurd open_.1 (calls.pos e).ne

theorem Closed.writeEnd (h : Closed calls n p (ends (links n)) w)
    (end_ : ipcWriteEnd w dst = some e) :
    (dst, p) ∈ links n ∧ e = ⟨pipeOf n (dst, p), .write⟩ := by
  rw [ipcWriteEnd, h.id] at end_
  split at end_
  next => cases end_
  next => exact h.end_eq .write rfl end_

theorem Closed.readEnd (h : Closed calls n p (ends (links n)) w)
    (end_ : ipcReadEnd w fr = some e) : (p, fr) ∈ links n ∧ e = ⟨pipeOf n (p, fr), .read⟩ := by
  rw [ipcReadEnd, h.id] at end_
  split at end_
  next => cases end_
  next => exact h.end_eq .read rfl end_

end Closed

/-! ## Steps -/

section Steps

variable {calls : PipeCalls} {n p q r : Nat} {s s' : System} {e : WireEvent} {es : List WireEvent}
  {w : Wiring}

theorem Wired.running (h : Wired calls n p (s.procs p)) (running : (s.procs p).phase = .running) :
    p ≤ n ∧ Closed calls n p (ends (links n)) (s.procs p).wiring := by
  rw [Wired, running] at h
  exact h

/-- `ipc_set_up_parent` closes what it should. -/
theorem setUpParent_spec (calls : PipeCalls) (n : Nat) :
    ∃ w, ipcSetUpParent (ipcInit calls n) = some w ∧
      Closed calls n parentId (ends (links n)) w := by
  have own := (laid_ipcInit calls n).id
  obtain ⟨w, close, closed⟩ := closeUnusedPipes_spec calls n parentId
  rw [← own] at close
  exact ⟨w, close, closed⟩

/-- So does `ipc_set_up_child`. -/
theorem setUpChild_spec (calls : PipeCalls) (n i : Nat) :
    ∃ w, ipcSetUpChild (ipcInit calls n) i = some w ∧
      Closed calls n (parentId + 1 + i) (ends (links n)) w :=
  closeUnusedPipes_spec calls n (parentId + 1 + i)

theorem wired_set (h : ∀ p, Wired calls n p (s.procs p)) {proc : WiredProcess}
    (new : Wired calls n p proc) : ∀ q, Wired calls n q ((s.set p proc).procs q) := by
  intro q
  dsimp only [System.set]
  by_cases own : q = p
  · subst own
    rwa [Function.update_self]
  · rw [Function.update_of_ne own]
    exact h q

theorem WireStep.wired (step : WireStep n s e s') (h : ∀ p, Wired calls n p (s.procs p)) :
    ∀ p, Wired calls n p (s'.procs p) := by
  cases step with
  | @fork i phase lt =>
    have parent := h parentId
    rw [Wired, phase] at parent
    obtain ⟨-, -, wiring⟩ := parent
    rw [wiring]
    have child : Wired calls n (i + 1) ⟨.forked i, ipcInit calls n⟩ :=
      ⟨by rw [parentId]; omega, lt, rfl⟩
    exact wired_set (wired_set h child) ⟨rfl, lt, rfl⟩
  | setUpParent phase close =>
    have parent := h parentId
    rw [Wired, phase] at parent
    obtain ⟨-, -, wiring⟩ := parent
    rw [wiring] at close
    obtain ⟨w, close', closed⟩ := setUpParent_spec calls n
    cases close'.symm.trans close
    exact wired_set h ⟨Nat.zero_le n, closed⟩
  | @setUpChild p i w phase close =>
    have child := h p
    rw [Wired, phase] at child
    obtain ⟨rfl, lt, wiring⟩ := child
    rw [wiring] at close
    obtain ⟨w, close', closed⟩ := setUpChild_spec calls n i
    cases close'.symm.trans close
    exact wired_set h ⟨by rw [parentId]; omega, closed⟩
  | write | read => exact h
  | exit => exact wired_set h fun _ => rfl

theorem wired_initial (calls : PipeCalls) (n p : Nat) :
    Wired calls n p ((System.initial calls n).procs p) := by
  dsimp only [System.initial]
  split
  next parent => exact ⟨parent, Nat.zero_le n, rfl⟩
  next => exact fun _ => rfl

theorem WireRun.wired (run : WireRun calls n es s) : ∀ p, Wired calls n p (s.procs p) := by
  induction run with
  | nil => exact wired_initial calls n
  | snoc _ step ih => exact step.wired ih

/-! ## What is written and read -/

/-- The bytes written to a process are those that it has read and those in the pipe. -/
def Carried (n : Nat) (es : List WireEvent) (s : System) : Prop :=
  ∀ p q, (q, p) ∈ links n →
    writtenTo p q es = readFrom q p es ++ s.queues (pipeOf n (q, p))

theorem writtenTo_snoc (p q : Nat) (es : List WireEvent) (e : WireEvent) :
    writtenTo p q (es ++ [e]) = writtenTo p q es ++ writtenTo p q [e] := List.flatMap_append

theorem readFrom_snoc (q p : Nat) (es : List WireEvent) (e : WireEvent) :
    readFrom q p (es ++ [e]) = readFrom q p es ++ readFrom q p [e] := List.flatMap_append

theorem writtenTo_write (p q p' dst : Nat) (bytes : List Byte) :
    writtenTo p q [.write p' dst bytes] = if p' = p ∧ dst = q then bytes else [] :=
  List.append_nil _

theorem readFrom_read (q p q' fr : Nat) (bytes : List Byte) :
    readFrom q p [.read q' fr bytes] = if q' = q ∧ fr = p then bytes else [] :=
  List.append_nil _

theorem WireStep.carried (step : WireStep n s e s') (wired : ∀ p, Wired calls n p (s.procs p))
    (h : Carried n es s) : Carried n (es ++ [e]) s' := by
  intro p q mem
  rw [writtenTo_snoc, readFrom_snoc, h p q mem]
  cases step with
  | fork | setUpParent | setUpChild | exit =>
    exact (List.append_nil _).trans
      (congrArg (· ++ s.queues (pipeOf n (q, p))) (List.append_nil _).symm)
  | @write p' dst k bytes running end_ =>
    obtain ⟨link, eq⟩ := ((wired p').running running).2.writeEnd end_
    cases eq
    have nothing : readFrom q p [.write p' dst bytes] = [] := rfl
    rw [writtenTo_write, nothing, List.append_nil, List.append_assoc]
    congr 1
    dsimp only
    split_ifs with same
    · obtain ⟨rfl, rfl⟩ := same
      rw [Function.update_self]
    · have other : pipeOf n (q, p) ≠ pipeOf n (dst, p') := by
        intro eq
        obtain ⟨rfl, rfl⟩ := Prod.mk.inj ((pipeOf_inj mem).mp eq)
        exact same ⟨rfl, rfl⟩
      rw [Function.update_of_ne other, List.append_nil]
  | @read q' fr k bytes rest running end_ queue =>
    obtain ⟨link, eq⟩ := ((wired q').running running).2.readEnd end_
    cases eq
    have nothing : writtenTo p q [.read q' fr bytes] = [] := rfl
    rw [readFrom_read, nothing, List.append_nil, List.append_assoc]
    congr 1
    dsimp only
    split_ifs with same
    · obtain ⟨rfl, rfl⟩ := same
      rw [Function.update_self, queue]
    · have other : pipeOf n (q, p) ≠ pipeOf n (q', fr) := by
        intro eq
        obtain ⟨rfl, rfl⟩ := Prod.mk.inj ((pipeOf_inj mem).mp eq)
        exact same ⟨rfl, rfl⟩
      rw [Function.update_of_ne other, List.nil_append]

theorem WireRun.carried (run : WireRun calls n es s) : Carried n es s := by
  induction run with
  | nil => exact fun p q _ => rfl
  | snoc run step ih => exact step.carried run.wired ih

/-! ## Who has an end open -/

/-- Every process has run `ipc_set_up_child` or `ipc_set_up_parent`. -/
def AllSetUp (n : Nat) (s : System) : Prop :=
  ∀ p ≤ n, (s.procs p).phase = .running ∨ (s.procs p).phase = .exited

/-- A process with an open end is running then. -/
theorem running_of_open (wired : ∀ p, Wired calls n p (s.procs p)) (all : AllSetUp n s)
    {r : Nat} {fd : Int} {e : PipeEnd} (open_ : (s.procs r).wiring.fds fd = some e) :
    (s.procs r).phase = .running := by
  have wired := wired r
  have late : r ≤ n → (s.procs r).phase = .running ∨ (s.procs r).phase = .exited := all r
  cases phase : (s.procs r).phase with
  | unborn | exited =>
    rw [Wired, phase] at wired
    rw [wired fd] at open_
    cases open_
  | spawning =>
    rw [Wired, phase] at wired
    rw [phase] at late
    obtain ⟨rfl, -⟩ := wired
    rcases late (Nat.zero_le n) with h | h <;> cases h
  | forked =>
    rw [Wired, phase] at wired
    rw [phase] at late
    obtain ⟨rfl, lt, -⟩ := wired
    rcases late (by rw [parentId]; omega) with h | h <;> cases h
  | running => rfl

/-- Only its owner has an end open then. -/
theorem opened_iff (wired : ∀ p, Wired calls n p (s.procs p)) (all : AllSetUp n s)
    {place : Nat × Nat} (mem : place ∈ links n) (side : Side) (r : Nat) :
    (∃ fd, (s.procs r).wiring.fds fd = some ⟨pipeOf n place, side⟩) ↔
      r = owner place side ∧ (s.procs r).phase = .running := by
  constructor
  · rintro ⟨fd, open_⟩
    have running := running_of_open wired all open_
    obtain ⟨-, place', mem', pipe, own⟩ :=
      ((wired r).running running).2.fds_eq_some.mp open_
    obtain rfl := (pipeOf_inj mem).mp pipe
    exact ⟨own.symm, running⟩
  · rintro ⟨rfl, running⟩
    exact ⟨_, ((wired _).running running).2.own_end side mem rfl⟩

end Steps

/-- A run as a value. -/
structure Spawning (calls : PipeCalls) (n : Nat) where
  events : List WireEvent
  final : System
  run : WireRun calls n events final

/-- What the pipes do for `p` as the writer and `q` as the reader. -/
structure Routed (n : Nat) (es : List WireEvent) (s : System) (p q : Nat) : Prop where
  bytes : writtenTo p q es = readFrom q p es ++ s.queues (pipeOf n (q, p))
  writes : (s.procs p).phase = .running →
    ipcWriteEnd (s.procs p).wiring q = some ⟨pipeOf n (q, p), .write⟩
  reads : (s.procs q).phase = .running →
    ipcReadEnd (s.procs q).wiring p = some ⟨pipeOf n (q, p), .read⟩
  writer : AllSetUp n s → ∀ r,
    (∃ fd, (s.procs r).wiring.fds fd = some ⟨pipeOf n (q, p), .write⟩) ↔
      r = p ∧ (s.procs r).phase = .running
  reader : AllSetUp n s → ∀ r,
    (∃ fd, (s.procs r).wiring.fds fd = some ⟨pipeOf n (q, p), .read⟩) ↔
      r = q ∧ (s.procs r).phase = .running

section Routes

variable {calls : PipeCalls} {n p q : Nat} {s : System} {es : List WireEvent} {w : Wiring}

theorem WireRun.routed (run : WireRun calls n es s) (hp : p ≤ n) (hq : q ≤ n) (ne : p ≠ q) :
    Routed n es s p q := by
  have wired := run.wired
  have link : (q, p) ∈ links n := mem_links.mpr ⟨hq, hp, ne.symm⟩
  refine ⟨run.carried p q link, fun running => ?_, fun running => ?_, fun all r => ?_,
    fun all r => ?_⟩
  · obtain ⟨-, closed⟩ := (wired p).running running
    rw [ipcWriteEnd, closed.numChildren, closed.id, if_neg (not_lt.mpr hq)]
    exact closed.own_end .write link rfl
  · obtain ⟨-, closed⟩ := (wired q).running running
    rw [ipcReadEnd, closed.numChildren, closed.id, if_neg (not_lt.mpr hp)]
    exact closed.own_end .read link rfl
  · exact opened_iff wired all link .write r
  · exact opened_iff wired all link .read r

/-- The ends that a process keeps are those for writing to others and for reading from them. -/
theorem Closed.kept (h : Closed calls n p (ends (links n)) w) {fd : Int} {e : PipeEnd}
    (open_ : w.fds fd = some e) :
    ∃ q ≤ n, q ≠ p ∧ (e = ⟨pipeOf n (q, p), .write⟩ ∨ e = ⟨pipeOf n (p, q), .read⟩) := by
  obtain ⟨-, ⟨dst, fr⟩, mem, pipe, own⟩ := h.fds_eq_some.mp open_
  obtain ⟨hdst, hfr, ne⟩ := mem_links.mp mem
  obtain ⟨k, side⟩ := e
  obtain rfl : k = _ := pipe
  cases side with
  | read =>
    obtain rfl : dst = p := own
    exact ⟨fr, hfr, ne.symm, .inr rfl⟩
  | write =>
    obtain rfl : fr = p := own
    exact ⟨dst, hdst, ne, .inl rfl⟩

end Routes

/-- Every pair of processes has its pipe, no other end stays open, and no `close` fails. -/
theorem pipes_routed (calls : PipeCalls) (n : Nat) (r : Spawning calls n) :
    (∀ p q, p ≤ n → q ≤ n → p ≠ q → Routed n r.events r.final p q) ∧
      (∀ p, (r.final.procs p).phase = .running →
        ∀ fd e, (r.final.procs p).wiring.fds fd = some e → ∃ q ≤ n, q ≠ p ∧
          (e = ⟨pipeOf n (q, p), .write⟩ ∨ e = ⟨pipeOf n (p, q), .read⟩)) ∧
      (∀ p i, (r.final.procs p).phase = .forked i →
        (ipcSetUpChild (r.final.procs p).wiring i).isSome) ∧
      ∀ i, (r.final.procs parentId).phase = .spawning i →
        (ipcSetUpParent (r.final.procs parentId).wiring).isSome := by
  obtain ⟨es, s, run⟩ := r
  have wired := run.wired
  refine ⟨fun p q hp hq ne => run.routed hp hq ne, fun p running fd e open_ => ?_,
    fun p i phase => ?_, fun i phase => ?_⟩
  · exact ((wired p).running running).2.kept open_
  · have child := wired p
    rw [Wired, phase] at child
    rw [child.2.2]
    obtain ⟨w, close, -⟩ := setUpChild_spec calls n i
    exact Option.isSome_of_eq_some close
  · have parent := wired parentId
    rw [Wired, phase] at parent
    rw [parent.2.2]
    obtain ⟨w, close, -⟩ := setUpParent_spec calls n
    exact Option.isSome_of_eq_some close

theorem pipes_routed_oneChild :
    ∃ s, WireRun .lowest 1 [.fork, .setUp 1, .setUp 0, .write 1 0 [7]] s ∧
      s.queues (pipeOf 1 (0, 1)) = [7] := by
  obtain ⟨w₁, child, closed₁⟩ := setUpChild_spec .lowest 1 0
  obtain ⟨w₀, parent, -⟩ := setUpParent_spec .lowest 1
  have link : (0, 1) ∈ links 1 := by decide
  have end_ : ipcWriteEnd w₁ 0 = some ⟨pipeOf 1 (0, 1), .write⟩ := by
    rw [ipcWriteEnd, closed₁.id, if_neg (Nat.not_lt_zero _)]
    exact closed₁.own_end .write link rfl
  have start : WireRun .lowest 1 [] (.initial .lowest 1) := .nil
  have spawned := ((start.snoc (.fork rfl Nat.one_pos)).snoc
    (@WireStep.setUpChild _ _ 1 _ _ rfl child)).snoc (.setUpParent rfl parent)
  have run := spawned.snoc (@WireStep.write _ _ 1 0 _ [7] rfl end_)
  refine ⟨_, run, ?_⟩
  have routed := (pipes_routed .lowest 1 ⟨_, _, run⟩).1 1 0 le_rfl (Nat.zero_le 1) Nat.one_ne_zero
  exact routed.bytes.symm

end Distra.Ipc
