import Distra.Exclusion.Philosophers
import Distra.Pa4.Grants
import Distra.Pa6.MutexSteps

/-!
# `pa6` runs the dining philosophers

In the image of a state a `CS_REPLY` is a fork and a `CS_REQUEST` a token. A step of a child is a
step or two at the table, the second one being the end of a round of `request_cs`, and no
assertion fails.
-/

namespace Distra.Pa6

open Network Exclusion Function

variable {cfg : Config}

def stageOf : Pc → Forks.Stage
  | .requestCs _ => .waiting
  | .criticalSection _ => .inside
  | .handleCsRequests | .exited => .retired
  | _ => .resting

def forkMsg : MessageType → Option Forks.Msg
  | .csRequest => some .token
  | .csReply => some .fork
  | _ => none

/-- What a child at the given stage shares with `q`. -/
def endOf (stage : Forks.Stage) (mux : Mux) (q : Nat) : Forks.End :=
  ⟨stage, mux.hasFork q, mux.forkDirty q, mux.hasRequest q⟩

abbrev forkChan (cfg : Config) (v : ProcessView Mux) : Channels (Child cfg.numChildren) Forks.Msg :=
  childChan (fun m => forkMsg m.type) cfg v

def image (cfg : Config) (v : ProcessView Mux) : Forks.State (Child cfg.numChildren) where
  stage p := stageOf (v.loc p).pc
  fork p q := (v.loc p).mux.hasFork q
  dirty p q := (v.loc p).mux.forkDirty q
  token p q := (v.loc p).mux.hasRequest q
  chan := forkChan cfg v

/-- The forks and tokens sent to `q`. -/
def sent (out : Sends) (q : Nat) : List Forks.Msg := (typesTo out q).filterMap forkMsg

theorem image_side (v : ProcessView Mux) (p q : Child cfg.numChildren) :
    (image cfg v).side p q = endOf (stageOf (v.loc p).pc) (v.loc p).mux q := rfl

theorem sent_eq (out : Sends) (q : Nat) :
    sent out q = (outTo out q).filterMap (fun m => forkMsg m.type) := by
  simp [sent, typesTo, List.filterMap_map]

theorem forkMsg_eq_none {type : MessageType} (other : ¬type.IsCs) : forkMsg type = none := by
  cases type <;> simp_all [forkMsg, MessageType.IsCs]

theorem stageOf_eq (pc : Pc) : stageOf pc =
    match pc.phase with
    | .waiting => .waiting
    | .inside => .inside
    | .idle => if pc.Finished then .retired else .resting := by
  cases pc <;> simp [stageOf, Pc.phase, Pc.Finished]

theorem stageOf_eq_inside {pc : Pc} : stageOf pc = .inside ↔ pc.Inside := by
  cases pc <;> simp [stageOf, Pc.Inside]

/-! ## Operations at the table -/

section Step

variable {v : ProcessView Mux} {p : Child cfg.numChildren} {m : Message}
  {input : Option (Nat × Message)} {next : Next Nat (Process Mux) Message}
  {op : Forks.Op (Child cfg.numChildren)} {l l' : Locals} {out : Sends}

theorem image_step (input : Option (Nat × Message))
    (does : ∀ q : Child cfg.numChildren, q ≠ p →
      (op.deed q).Does (endOf (stageOf (v.loc p).pc) (v.loc p).mux q)
        (forkChan cfg v p q) (forkChan cfg v q p)
        (endOf (stageOf next.1.pc) next.1.mux q)
        (forkChan cfg v p q ++ sent next.2 q) (forkChan cfg (v.consume p input) q p)) :
    Forks.Step (image cfg v) p op (image cfg ((v.consume p input).become p next)) := by
  have chan (a b : Child cfg.numChildren) :
      (image cfg ((v.consume p input).become p next)).chan a b =
        forkChan cfg (v.consume p input) a b ++ if a = p then sent next.2 b else [] := by
    simp only [image, forkChan, childChan, View.consume_become_chan, List.filterMap_append, sent_eq,
      Subtype.ext_iff]
    split <;> rfl
  have other (a b : Child cfg.numChildren) (ne : b ≠ p) :
      forkChan cfg (v.consume p input) a b = forkChan cfg v a b := by
    simp only [forkChan, childChan]
    rw [View.consume_chan_ne v input fun k => ne (Subtype.ext k)]
  refine ⟨fun a ne b => ?_, fun a b ne ne' => ?_, fun q ne => ?_⟩
  · rw [image_side, View.consume_become_loc, if_neg fun k => ne (Subtype.ext k)]
    rfl
  · rw [chan, if_neg ne, List.append_nil, other a b ne']
    rfl
  · rw [chan, chan, if_pos rfl, if_neg ne, List.append_nil, other p q ne, image_side, image_side,
      View.consume_become_loc, if_pos rfl]
    exact does q ne

theorem forkChan_dropped (ready : Ready cfg v p input)
    (dropped : ∀ q m, input = some (q, m) → forkMsg m.type = none) :
    forkChan cfg (v.consume p input) = forkChan cfg v := by
  cases input with
  | none => rfl
  | some x => exact childChan_dropped ready (dropped x.1 x.2 rfl)

theorem sent_other (other : ∀ x ∈ out, ¬x.2.type.IsCs) (q : Nat) : sent out q = [] := by
  rw [sent_eq, List.filterMap_eq_nil_iff]
  intro m mem
  exact forkMsg_eq_none (other (q, m) (mem_outTo.mp mem))

/-- A step outside the mutex is no step at the table, or the child has had its last meal. -/
theorem image_quiet (quiet : Quiet (v.loc p) input next) (ready : Ready cfg v p input)
    (stays : (v.loc p).pc.Finished → next.1.pc.Finished) :
    ∃ op, (op = .stay ∨ op = .retire) ∧
      Forks.Step (image cfg v) p op (image cfg ((v.consume p input).become p next)) := by
  have chan := forkChan_dropped ready fun q m eq => forkMsg_eq_none (quiet.takes q m eq)
  by_cases same : stageOf next.1.pc = stageOf (v.loc p).pc
  · refine ⟨.stay, .inl rfl, image_step input fun q _ => ?_⟩
    rw [quiet.mux, same, sent_other quiet.sends, List.append_nil, chan]
    exact ⟨rfl, rfl, rfl⟩
  · have last : stageOf (v.loc p).pc = .resting ∧ stageOf next.1.pc = .retired := by
      rw [stageOf_eq, stageOf_eq, quiet.phase] at same ⊢
      cases phase : (v.loc p).pc.phase with
      | waiting | inside => simp [phase] at same
      | idle =>
        by_cases before : (v.loc p).pc.Finished
        · simp [phase, before, stays before] at same
        · by_cases after : next.1.pc.Finished <;> simp_all
    refine ⟨.retire, .inr rfl, image_step input fun q _ => ?_⟩
    rw [quiet.mux, sent_other quiet.sends, List.append_nil, chan, last.2]
    exact ⟨last.1, rfl, rfl, rfl⟩

theorem mem_children (q : Child cfg.numChildren) : q.1 ∈ List.range' 1 cfg.numChildren := by
  have := q.2
  rw [List.mem_range'_1]
  unfold IsChild at this
  omega

theorem Requested.ask (h : Requested p (List.range' 1 cfg.numChildren) l l' out)
    (stage : Forks.Stage) {q : Child cfg.numChildren} (ne : q ≠ p) :
    endOf .waiting l'.mux q = (endOf stage l.mux q).ask ∧
      sent out q = (endOf stage l.mux q).askSends := by
  have other : q.1 ∈ List.range' 1 cfg.numChildren ∧ q.1 ≠ p.1 :=
    ⟨mem_children q, fun k => ne (Subtype.ext k)⟩
  constructor
  · simp only [endOf, Forks.End.ask, h.hasFork, h.forkDirty, h.hasRequest, if_pos other]
  · rw [sent, h.sends, Forks.End.askSends]
    simp only [other, ne_eq, not_false_eq_true, and_self, true_and, endOf]
    rw [apply_ite (List.filterMap forkMsg)]
    rfl

/-- The loop at the top of a round. -/
theorem image_ask {i : Nat} {k : Int} (ready : Ready cfg v p input)
    (dropped : ∀ q m, input = some (q, m) → forkMsg m.type = none)
    (requested : Requested p (List.range' 1 cfg.numChildren) l l' out)
    (mux : l.mux = (v.loc p).mux)
    (active : stageOf (v.loc p).pc = .resting ∨ stageOf (v.loc p).pc = .waiting) :
    Forks.Step (image cfg v) p .ask (image cfg ((v.consume p input).become p
      ({ (v.loc p).at_ (.requestCs i) l' with awaitingChildren := k }, out))) := by
  refine image_step input fun q ne => ?_
  obtain ⟨after, sends⟩ := requested.ask (stageOf (v.loc p).pc) ne
  rw [mux] at after sends
  rw [forkChan_dropped ready dropped]
  exact ⟨active, after, congrArg _ sends, rfl⟩

theorem image_enter {i : Nat} (waiting : stageOf (v.loc p).pc = .waiting)
    (can : canEnterCs cfg p (v.loc p).mux = true) :
    Forks.Step (image cfg v) p .enter (image cfg ((v.consume p none).become p
      ((v.loc p).at_ (.criticalSection i) (v.loc p).locals, []))) := by
  refine image_step none fun q ne => ?_
  have ready := canEnterCs_iff.mp can q q.2 fun k => ne (Subtype.ext k)
  exact ⟨waiting, ready, rfl, List.append_nil _, rfl⟩

theorem image_leave {i : Nat} (inside : stageOf (v.loc p).pc = .inside)
    (holds : ∀ q : Child cfg.numChildren, q ≠ p → (v.loc p).mux.hasFork q = true)
    (released : Released p (List.range' 1 cfg.numChildren) (v.loc p).locals l' out) :
    Forks.Step (image cfg v) p .leave (image cfg ((v.consume p none).become p
      ((v.loc p).at_ (.iteration i) l', out))) := by
  refine image_step none fun q ne => ?_
  have other : q.1 ∈ List.range' 1 cfg.numChildren ∧ q.1 ≠ p.1 :=
    ⟨mem_children q, fun k => ne (Subtype.ext k)⟩
  refine ⟨⟨inside, holds q ne⟩, ?_, ?_, rfl⟩
  · simp only [endOf, Process.at_, Forks.End.leave, released.hasFork, released.forkDirty,
      released.hasRequest, if_pos other]
    rfl
  · rw [sent, released.sends, Forks.End.leaveSends]
    simp only [other, ne_eq, not_false_eq_true, and_self, true_and, endOf]
    rw [apply_ite (List.filterMap forkMsg)]
    rfl

/-! A CS message concerns the pair with its sender only. -/

theorem forkChan_taken {q : Child cfg.numChildren} (ready : Ready cfg v p (some (q.1, m)))
    {x : Forks.Msg} (kept : forkMsg m.type = some x) :
    forkChan cfg v q p = x :: forkChan cfg (v.consume p (some (q.1, m))) q p ∧
      ∀ r, r ≠ q → forkChan cfg (v.consume p (some (q.1, m))) r p = forkChan cfg v r p := by
  obtain ⟨popped, rest, head⟩ := childChan_taken (f := fun m => forkMsg m.type) ready kept
  change forkChan cfg (v.consume p (some (q.1, m))) = _ at popped
  refine ⟨?_, fun r ne => ?_⟩
  · rw [popped, Channels.pop_head, head]
    exact head
  · rw [popped, Channels.pop_ne _ fun k => ne k.1]

theorem image_single {q : Child cfg.numChildren} (ready : Ready cfg v p (some (q.1, m)))
    {x : Forks.Msg} (kept : forkMsg m.type = some x) {d : Forks.Deed}
    (deed : ∀ r, op.deed r = if r = q then d else .stay)
    (own : ∀ rest, d.Does (endOf (stageOf (v.loc p).pc) (v.loc p).mux q)
      (forkChan cfg v p q) (x :: rest) (endOf (stageOf next.1.pc) next.1.mux q)
      (forkChan cfg v p q ++ sent next.2 q) rest)
    (ends : ∀ r : Child cfg.numChildren, r.1 ≠ q.1 →
      endOf (stageOf next.1.pc) next.1.mux r = endOf (stageOf (v.loc p).pc) (v.loc p).mux r)
    (sends : ∀ r : Child cfg.numChildren, r.1 ≠ q.1 → sent next.2 r = []) :
    Forks.Step (image cfg v) p op
      (image cfg ((v.consume p (some (q.1, m))).become p next)) := by
  obtain ⟨head, others⟩ := forkChan_taken ready kept
  refine image_step _ fun r _ => ?_
  by_cases eq : r = q
  · subst eq
    rw [deed, if_pos rfl, head]
    exact own _
  · have ne : r.1 ≠ q.1 := fun k => eq (Subtype.ext k)
    rw [deed, if_neg eq, ends r ne, sends r ne, others r eq, List.append_nil]
    exact ⟨rfl, rfl, rfl⟩

/-- What a CS message does at the table when it is taken in `request_cs`. -/
def takes (m : Message) (q : Child cfg.numChildren) : Forks.Op (Child cfg.numChildren) :=
  if m.type = .csReply then .takeFork q else .takeToken q

theorem image_serves {i : Nat} {q : Child cfg.numChildren}
    (ready : Ready cfg v p (some (q.1, m))) (serves : Serves (v.loc p).locals q m l' out)
    (pc : (v.loc p).pc = .requestCs i) :
    Forks.Step (image cfg v) p (takes m q) (image cfg ((v.consume p (some (q.1, m))).become p
      ((v.loc p).at_ (.requestCs i) l', out))) := by
  have waiting : stageOf (v.loc p).pc = .waiting := by rw [pc]; rfl
  cases serves with
  | fork type =>
    rw [takes, if_pos type]
    refine image_single ready (x := .fork) (by simp [type, forkMsg]) (fun _ => rfl)
      (fun rest => ⟨rfl, ?_, List.append_nil _⟩) (fun r ne => ?_) (fun _ _ => rfl)
    · simp [endOf, Forks.End.takeFork, Process.at_, Process.locals, stageOf, pc]
    · simp [endOf, Process.at_, Process.locals, stageOf, pc, ne]
  | giveUp type fork dirty =>
    have fork : (v.loc p).mux.hasFork q = true := fork
    have dirty : (v.loc p).mux.forkDirty q = true := dirty
    rw [takes, if_neg (by simp [type])]
    refine image_single ready (x := .token) (by simp [type, forkMsg]) (fun _ => rfl)
      (fun rest => ⟨waiting, rfl, ?_, ?_⟩) (fun r ne => ?_) (fun r ne => ?_)
    · simp [endOf, Forks.End.takeToken, Process.at_, Process.locals, stageOf, pc, fork, dirty]
    · simp [endOf, Forks.End.takeTokenSends, sent, typesTo_single, fork, dirty, forkMsg]
    · simp [endOf, Process.at_, Process.locals, stageOf, pc, ne]
    · simp [sent, typesTo_single, ne]
  | keep type keeps =>
    have keeps : ((v.loc p).mux.hasFork q && (v.loc p).mux.forkDirty q) = false := keeps
    rw [takes, if_neg (by simp [type])]
    refine image_single ready (x := .token) (by simp [type, forkMsg]) (fun _ => rfl)
      (fun rest => ⟨waiting, rfl, ?_, ?_⟩) (fun r ne => ?_) (fun _ _ => rfl)
    · have kept : ((v.loc p).mux.hasFork q && !(v.loc p).mux.forkDirty q) =
          (v.loc p).mux.hasFork q := by
        cases fork : (v.loc p).mux.hasFork q <;> simp_all
      simp [endOf, Forks.End.takeToken, Process.at_, Process.locals, stageOf, pc, kept]
    · simp [endOf, Forks.End.takeTokenSends, keeps, sent]
    · simp [endOf, Process.at_, Process.locals, stageOf, pc, ne]

/-- A request answered in the last loop. -/
theorem image_surrender {q : Child cfg.numChildren} {t t' : Nat}
    (ready : Ready cfg v p (some (q.1, m))) (type : m.type = .csRequest)
    (pc : (v.loc p).pc = .handleCsRequests) :
    Forks.Step (image cfg v) p (.surrender q) (image cfg ((v.consume p (some (q.1, m))).become p
      ((v.loc p).at_ .handleCsRequests
        ⟨{ (v.loc p).mux with hasFork := update (v.loc p).mux.hasFork q false }, t⟩,
        [(q.1, ⟨.csReply, t'⟩)]))) := by
  have retired : stageOf (v.loc p).pc = .retired := by rw [pc]; rfl
  refine image_single ready (x := .token) (by simp [type, forkMsg]) (fun _ => rfl)
    (fun rest => ⟨retired, rfl, ?_, ?_⟩) (fun r ne => ?_) (fun r ne => ?_)
  · simp [endOf, Forks.End.surrender, Process.at_, stageOf, pc]
  · simp [sent, typesTo_single, forkMsg]
  · simp [endOf, Process.at_, stageOf, pc, ne]
  · simp [sent, typesTo_single, ne]

end Step

/-! ## Requests taken and entries -/

/-- The part of a trace that is seen at the table. -/
def heard (n : Nat) (os : List Observation) : List (Forks.Event (Child n)) :=
  os.filterMap fun
    | .took p q m =>
      if h : (IsChild n p ∧ IsChild n q) ∧ m.type = .csRequest then
        some (.asked ⟨p, h.1.1⟩ ⟨q, h.1.2⟩)
      else none
    | .entered p _ => if h : IsChild n p then some (.entered ⟨p, h⟩) else none

theorem heard_append (n : Nat) (os os' : List Observation) :
    heard n (os ++ os') = heard n os ++ heard n os' := List.filterMap_append

theorem heard_childEvents {n : Nat} (stamp : Nat → Process Mux → Nat) (p : Child n)
    (input : Option (Nat × Message)) (st st' : Process Mux) :
    heard n (childEvents stamp p input st st') =
      heard n (input.toList.map fun x => .took p x.1 x.2) ++
        if ¬st.pc.Inside ∧ st'.pc.Inside then [.entered p] else [] := by
  rw [childEvents, heard_append]
  congr 1
  split
  · simp [heard, p.2]
  · rfl

theorem heard_took {n : Nat} (p q : Child n) (m : Message) :
    heard n [.took p q m] = if m.type = .csRequest then [.asked p q] else [] := by
  by_cases type : m.type = .csRequest <;> simp [heard, type, p.2, q.2]

theorem heard_quiet {n : Nat} (p : Child n) {input : Option (Nat × Message)}
    (takes : ∀ q m, input = some (q, m) → m.type ≠ .csRequest) :
    heard n (input.toList.map fun x => .took p x.1 x.2) = [] := by
  cases input with
  | none => rfl
  | some x => simp [heard, takes x.1 x.2 rfl]

theorem entries_heard {n : Nat} (p : Child n) (os : List Observation) :
    Forks.entries p (heard n os) = entriesBy p os := by
  rw [Forks.entries, heard, List.count, List.countP_filterMap, entriesBy]
  refine List.countP_congr fun o _ => ?_
  cases o with
  | took a b m => by_cases h : (IsChild n a ∧ IsChild n b) ∧ m.type = .csRequest <;> simp [h]
  | entered a t =>
    by_cases h : IsChild n a
    · simp [h, Subtype.ext_iff]
    · have : a ≠ p := fun eq => h (eq ▸ p.2)
      simp [h, this]

/-! ## The steps of a child -/

section Table

variable {v : ProcessView Mux} {p : Child cfg.numChildren} {m : Message}
  {input : Option (Nat × Message)} {next : Next Nat (Process Mux) Message}
  {l l' : Locals} {out : Sends} (stamp : Nat → Process Mux → Nat)

/-- A step of `p` is a step or two at the table, and this is what is heard of it. -/
def Tabled (v : ProcessView Mux) (p : Child cfg.numChildren) (input : Option (Nat × Message))
    (next : Next Nat (Process Mux) Message) : Prop :=
  Forks.Steps (image cfg v) p (heard cfg.numChildren (childEvents stamp p input (v.loc p) next.1))
    (image cfg ((v.consume p input).become p next))

theorem Tabled.of_step {op : Forks.Op (Child cfg.numChildren)}
    (step : Forks.Step (image cfg v) p op (image cfg ((v.consume p input).become p next)))
    (events : heard cfg.numChildren (childEvents stamp p input (v.loc p) next.1) = op.events p) :
    Tabled stamp v p input next := by
  rw [Tabled, events]
  exact .one step

theorem tabled_quiet (quiet : Quiet (v.loc p) input next) (ready : Ready cfg v p input)
    (stays : (v.loc p).pc.Finished → next.1.pc.Finished) : Tabled stamp v p input next := by
  obtain ⟨op, still, step⟩ := image_quiet quiet ready stays
  refine .of_step stamp step ?_
  have outside : ¬(¬(v.loc p).pc.Inside ∧ next.1.pc.Inside) := by
    rw [← Pc.phase_eq_inside, ← Pc.phase_eq_inside, quiet.phase]
    exact fun k => k.1 k.2
  rw [heard_childEvents, if_neg outside,
    heard_quiet p fun q m eq type => quiet.takes q m eq (.inl type)]
  rcases still with rfl | rfl <;> rfl

/-- `request_cs` from its call to its first poll. -/
theorem tabled_ask {i : Nat} {k : Int} (ready : Ready cfg v p input)
    (other : ∀ q m, input = some (q, m) → ¬m.type.IsCs)
    (requested : Requested p (List.range' 1 cfg.numChildren) l l' out)
    (mux : l.mux = (v.loc p).mux)
    (active : stageOf (v.loc p).pc = .resting ∨ stageOf (v.loc p).pc = .waiting) :
    Tabled stamp v p input
      ({ (v.loc p).at_ (.requestCs i) l' with awaitingChildren := k }, out) := by
  refine .of_step stamp (image_ask ready (fun q m eq => forkMsg_eq_none (other q m eq)) requested
    mux active) ?_
  rw [heard_childEvents, if_neg (by simp [Process.at_, Pc.Inside]),
    heard_quiet p fun q m eq type => other q m eq (.inl type)]
  rfl

theorem tabled_leave {i : Nat} (inside : stageOf (v.loc p).pc = .inside)
    (holds : ∀ q : Child cfg.numChildren, q ≠ p → (v.loc p).mux.hasFork q = true)
    (released : Released p (List.range' 1 cfg.numChildren) (v.loc p).locals l' out) :
    Tabled stamp v p none ((v.loc p).at_ (.iteration i) l', out) := by
  refine .of_step stamp (image_leave inside holds released) ?_
  rw [heard_childEvents, if_neg (by simp [Process.at_, Pc.Inside])]
  rfl

theorem tabled_surrender {q : Child cfg.numChildren} {t t' : Nat}
    (ready : Ready cfg v p (some (q.1, m))) (type : m.type = .csRequest)
    (pc : (v.loc p).pc = .handleCsRequests) :
    Tabled stamp v p (some (q.1, m)) ((v.loc p).at_ .handleCsRequests
      ⟨{ (v.loc p).mux with hasFork := update (v.loc p).mux.hasFork q false }, t⟩,
      [(q.1, ⟨.csReply, t'⟩)]) := by
  refine .of_step stamp (image_surrender ready type pc) ?_
  rw [heard_childEvents, if_neg (by simp [Process.at_, Pc.Inside]), Option.toList, List.map,
    List.map, heard_took, if_pos type]
  rfl

/-- A CS message taken in `request_cs`, before the end of the round. -/
theorem heard_serves {i : Nat} {q : Child cfg.numChildren}
    (serves : Serves (v.loc p).locals q m l' out) :
    heard cfg.numChildren (childEvents stamp p (some (q.1, m)) (v.loc p)
      ((v.loc p).at_ (.requestCs i) l')) = (takes m q).events p := by
  rw [heard_childEvents, if_neg (by simp [Process.at_, Pc.Inside]), List.append_nil,
    Option.toList, List.map, List.map, heard_took, takes]
  cases serves with
  | fork type => simp [type, Forks.Op.events]
  | giveUp type | keep type => simp [type, Forks.Op.events]

/-- The end of a round: the entry, or the top of the next round. -/
theorem step_endRound {i : Nat} {verdict : Verdict} (pc : (v.loc p).pc = .requestCs i)
    (round : endRound cfg p (v.loc p).locals [] = some (verdict, l', out)) :
    ∃ op, Forks.Step (image cfg v) p op
        (image cfg ((v.consume p none).become p ((v.loc p).at_ (verdict.pc i) l', out))) ∧
      heard cfg.numChildren
        (childEvents stamp p none (v.loc p) ((v.loc p).at_ (verdict.pc i) l')) = op.events p := by
  have waiting : stageOf (v.loc p).pc = .waiting := by rw [pc]; rfl
  rcases endRound_some round with ⟨can, rfl, rfl, rfl⟩ | ⟨out₁, requested, rfl, rfl⟩
  · refine ⟨.enter, image_enter waiting can, ?_⟩
    rw [heard_childEvents, if_pos (by simp [Process.at_, pc, Pc.Inside, Verdict.pc])]
    rfl
  · refine ⟨.ask, image_ask (k := (v.loc p).awaitingChildren) trivial (by simp) requested rfl
      (.inr waiting), ?_⟩
    rw [heard_childEvents, if_neg (by simp [Process.at_, Pc.Inside, Verdict.pc])]
    rfl

/-- A round of `request_cs` with a CS message. -/
theorem tabled_round {i : Nat} {q : Child cfg.numChildren} (pc : (v.loc p).pc = .requestCs i)
    (ready : Ready cfg v p (some (q.1, m))) (serves : Serves (v.loc p).locals q m l out)
    {verdict : Verdict} {out' : Sends}
    (test : endRound cfg p l out = some (verdict, l', out')) :
    Tabled stamp v p (some (q.1, m)) ((v.loc p).at_ (verdict.pc i) l', out') := by
  obtain ⟨out₁, round, rfl⟩ := endRound_append test
  have first := image_serves ready serves pc
  have loc : ((v.consume p (some (q.1, m))).become p ((v.loc p).at_ (.requestCs i) l, out)).loc p =
      (v.loc p).at_ (.requestCs i) l := by
    rw [View.consume_become_loc, if_pos rfl]
  obtain ⟨op, second, events⟩ := step_endRound stamp (p := p) (i := i) (by rw [loc]; rfl)
    (by rw [loc]; exact round)
  rw [loc] at second events
  have taking : takes m q = .takeFork q ∨ takes m q = .takeToken q := by
    unfold takes
    split
    · exact .inl rfl
    · exact .inr rfl
  have both := Forks.Steps.two taking first second
  rw [← heard_serves stamp serves, ← events, ← heard_append,
    childEvents_split _ _ _ _ (by simp [pc, Pc.Inside]) (by simp [Process.at_, Pc.Inside])] at both
  rw [View.consume, become_append] at both
  exact both

theorem sender_child (control : Control cfg v) {q : Nat}
    (ready : Ready cfg v p (some (q, m))) : ∃ a : Child cfg.numChildren, a.1 = q ∧ a ≠ p := by
  obtain ⟨child, ne⟩ := control.sender_child p.2 ready
  exact ⟨⟨q, child⟩, rfl, fun eq => ne (congrArg Subtype.val eq)⟩

/-- The forks that a child gives up at the end of a critical section are there. -/
theorem released_holds (inv : Forks.Inv (image cfg v)) {i : Nat}
    (pc : (v.loc p).pc = .criticalSection i) (c : Nat) (child : IsChild cfg.numChildren c)
    (ne : c ≠ p) : (v.loc p).mux.hasFork c = true :=
  inv.holds p ⟨c, child⟩ (fun k => ne (congrArg Subtype.val k).symm) (by
    change stageOf (v.loc p).pc = .inside
    rw [pc]
    rfl)

/-- Every step of a child that does not fail is a step or two at the table. -/
theorem tabled (inv : Forks.Inv (image cfg v)) (control : Control cfg v)
    (ready : Ready cfg v p input) (step : LocalStep cfg mutex p (v.loc p) input next) :
    Tabled stamp v p input next := by
  have isDone {q : Nat} {m : Message} (type : m.type = .done) :
      ∀ q' m', some (q, m) = some (q', m') → ¬m'.type.IsCs := by
    intro _ _ eq
    cases eq
    simp [type, MessageType.IsCs]
  cases step.mutex with
  | quiet quiet => exact tabled_quiet stamp quiet ready step.finished
  | request pc requested =>
    exact tabled_ask stamp (k := (v.loc p).awaitingChildren) trivial (by simp)
      (requestCs_some requested) rfl (.inl (by rw [pc]; rfl))
  | @served i q m verdict l out pc taken cs =>
    obtain ⟨a, rfl, -⟩ := sender_child control ready
    rcases requestCsTake_some taken with ⟨l₁, out₁, serves, round⟩ | ⟨-, nonCs, -, -⟩
    · exact tabled_round stamp pc ready serves round
    · exact absurd nonCs cs
  | doneServed pc taken type retried =>
    rcases requestCsTake_some taken with ⟨_, _, serves, -⟩ | ⟨-, -, rfl, -⟩
    · cases serves <;> simp_all
    · exact tabled_ask stamp ready (isDone type) (requestCs_some retried) rfl
        (.inr (by rw [pc]; rfl))
  | idle pc found =>
    obtain ⟨op, step, events⟩ := step_endRound stamp pc found
    exact .of_step stamp step events
  | release pc released =>
    have holds := released_holds inv pc
    obtain ⟨l', out, run, spec⟩ := @releaseCs_spec cfg p (v.loc p).locals fun c child ne _ =>
      holds c child ne
    cases run.symm.trans released
    exact tabled_leave stamp (by rw [pc]; rfl)
      (fun q ne => holds q q.2 fun k => ne (Subtype.ext k)) spec
  | @handled q m verdict l out pc taken cs =>
    obtain ⟨a, rfl, -⟩ := sender_child control ready
    have taken := (@handleCsRequests_eq cfg p _ a.1 m).symm.trans taken
    split at taken
    next type =>
      split at taken <;> cases taken
      exact tabled_surrender stamp ready type pc
    next =>
      cases taken
      exact absurd rfl cs
  | @doneHandled q m l out pc' k pc finished taken type =>
    have taken := (@handleCsRequests_eq cfg p _ q m).symm.trans taken
    rw [if_neg (by simp [type])] at taken
    cases taken
    refine tabled_quiet stamp ⟨rfl, (lt_synchronizeTime _ _).le, ?_, by simp, isDone type⟩ ready
      fun _ => finished
    rw [pc]
    exact finished.phase

end Table

/-- No child sends a `CS_RELEASE`. -/
theorem unreleased_sends {p : Nat} {st : Process Mux} {input : Option (Nat × Message)}
    {next : Next Nat (Process Mux) Message} (step : LocalStep cfg mutex p st input next) :
    ∀ x ∈ next.2, x.2.type ≠ .csRelease := by
  have forks {out : Sends} (h : ForkSends out) : ∀ x ∈ out, x.2.type ≠ .csRelease := by
    intro x mem type
    rcases h x mem with request | reply
    · cases type.symm.trans request
    · cases type.symm.trans reply
  cases step.mutex with
  | quiet quiet => exact fun x mem type => quiet.sends x mem (.inr (.inr type))
  | request _ requested => exact forks (requestCs_some requested).sends_forks
  | served _ taken => exact forks (take_sends taken)
  | doneServed _ _ _ retried => exact forks (requestCs_some retried).sends_forks
  | idle _ found => exact forks (endRound_sends found (by simp [ForkSends]))
  | release _ released => exact forks (releaseForks_sends _ _ released)
  | @handled q m verdict l out _ taken => exact forks (@handle_sends cfg p q m _ _ _ _ taken)
  | doneHandled => simp

/-! ## The invariant -/

structure Refined (cfg : Config) (v : ProcessView Mux) (os : List Observation) : Prop where
  inv : Forks.Inv (image cfg v)
  watched : Forks.Watched (image cfg v) (heard cfg.numChildren os)
  once : Forks.OvertakenOnce (heard cfg.numChildren os)
  unreleased : ∀ a b : Child cfg.numChildren, ∀ m ∈ v.chan a b, m.type ≠ .csRelease

namespace Refined

variable {v : ProcessView Mux} {os : List Observation} {p : Child cfg.numChildren}
  {m : Message} {input : Option (Nat × Message)} {next : Next Nat (Process Mux) Message}
  {l l' : Locals} {out : Sends}

/-- Forks lie dirty at the larger of two children, so that smaller children come first. -/
theorem initial : Refined cfg (initialState cfg mutex).view [] where
  inv := by
    have resting (p : Child cfg.numChildren) : (initialProcess cfg mutex p).pc =
        .childSyncStarted := by
      simp [initialProcess, p.2.ne_parent]
    have side (p q : Child cfg.numChildren) : (image cfg (initialState cfg mutex).view).side p q =
        ⟨.resting, decide (q.1 < p.1), decide (q.1 < p.1), decide (p.1 < q.1)⟩ := by
      have child : 1 ≤ q.1 ∧ q.1 ≤ cfg.numChildren := q.2
      simp [image_side, endOf, initialState, initialProcess, p.2.ne_parent, stageOf, mutex,
        mutexInit, child]
    have chan (p q : Child cfg.numChildren) :
        (image cfg (initialState cfg mutex).view).chan p q = [] := rfl
    have larger {p q : Child cfg.numChildren} (lt : p.1 < q.1) :
        Forks.Shape ((image cfg (initialState cfg mutex).view).side q p)
          ((image cfg (initialState cfg mutex).view).side p q) [] [] := by
      rw [side, side]
      have none_ : decide (q.1 < p.1) = false := decide_eq_false lt.le.not_gt
      have has : decide (p.1 < q.1) = true := decide_eq_true lt
      exact .unasked has none_ none_ has fun _ => has
    refine ⟨fun p q ne => ?_, fun p q _ inside => ?_, ⟨fun p => p, fun p q _ => ?_⟩⟩
    · rcases Nat.lt_or_gt_of_ne fun k => ne (Subtype.ext k) with lt | gt
      · exact .inr (larger lt)
      · exact .inl (larger gt)
    · have stage : (image cfg (initialState cfg mutex).view).stage p = .resting :=
        congrArg stageOf (resting p)
      cases stage.symm.trans inside
    · rw [side, side, chan]
      rintro (⟨has, clean⟩ | ⟨has, -⟩ | absurd_)
      · exact absurd (has.symm.trans clean) (by simp)
      · exact of_decide_eq_true has
      · cases absurd_
  watched := by
    intro i j win _ suffix
    cases List.suffix_nil.mp suffix
  once := by
    intro i j win _ window
    cases List.infix_nil.mp window
  unreleased := fun _ _ _ mem => absurd mem List.not_mem_nil

theorem attended (h : Refined cfg v os) :
    Forks.Attended (image cfg v) (heard cfg.numChildren os) := ⟨h.inv, h.watched, h.once⟩

theorem of_steps (h : Refined cfg v os) {os' : List Observation}
    (steps : Forks.Steps (image cfg v) p (heard cfg.numChildren os')
      (image cfg ((v.consume p input).become p next)))
    (sends : ∀ x ∈ next.2, x.2.type ≠ .csRelease) :
    Refined cfg ((v.consume p input).become p next) (os ++ os') := by
  have attended := h.attended.steps steps
  rw [← heard_append] at attended
  refine ⟨attended.inv, attended.watched, attended.once, fun a b m mem => ?_⟩
  rw [View.consume_become_chan] at mem
  rcases List.mem_append.mp mem with old | new
  · refine h.unreleased a b m ?_
    cases input with
    | none => exact old
    | some x =>
      simp only [View.consume, View.pop, Channels.pop] at old
      split at old
      · exact List.mem_of_mem_tail old
      · exact old
  · split at new
    · exact sends _ (mem_outTo.mp new)
    · cases new

theorem parent (h : Refined cfg v os) {v' : ProcessView Mux} (frame : ParentFrame v v') :
    Refined cfg v' os := by
  have loc (p : Child cfg.numChildren) : v'.loc p = v.loc p := frame.loc p p.2.ne_parent
  have same : image cfg v' = image cfg v := by
    simp only [image, loc, forkChan, childChan_parent frame]
  refine ⟨same ▸ h.inv, same ▸ h.watched, h.once, fun a b => ?_⟩
  rw [frame.chan a b b.2.ne_parent]
  exact h.unreleased a b

theorem keep (stamp : Nat → Process Mux → Nat) (h : Refined cfg v os) (control : Control cfg v)
    (ready : Ready cfg v p input) (step : LocalStep cfg mutex p (v.loc p) input next) :
    Refined cfg ((v.consume p input).become p next)
      (os ++ childEvents stamp p input (v.loc p) next.1) :=
  h.of_steps (tabled stamp h.inv control ready step) (unreleased_sends step)

/-- No assertion fails, and no CS message comes as a surprise. -/
theorem safe (h : Refined cfg v os) (control : Control cfg v) (ready : Ready cfg v p input) :
    ¬MutexFails cfg mutex p (v.loc p) input := by
  have requested (l : Locals) : requestCs cfg p l ≠ none := by
    obtain ⟨l', out, run, -⟩ := @requestCs_spec cfg p l
    simp [run]
  have released {q : Nat} {m : Message} (ready : Ready cfg v p (some (q, m))) :
      m.type ≠ .csRelease := by
    obtain ⟨a, rfl, -⟩ := sender_child control ready
    obtain ⟨-, -, rest, head⟩ := ready
    exact h.unreleased a p m (by simp [head])
  intro fails
  cases fails with
  | requestCs pc failed => exact requested _ failed
  | take pc failed => exact requestCsTake_ne_none _ _ _ failed
  | takeUnexpected pc taken cs =>
    rcases requestCsTake_some taken with ⟨l₁, out₁, -, round⟩ | ⟨⟨noReply, noRequest⟩, -, -, -⟩
    · rcases endRound_some round with ⟨-, verdict, -⟩ | ⟨_, -, verdict, -⟩ <;> cases verdict
    · rcases cs with request | reply | release
      · exact noRequest request
      · exact noReply reply
      · exact released ready release
  | retry pc taken type failed => exact requested _ failed
  | empty pc failed => exact endRound_ne_none _ _ failed
  | release pc failed =>
    have inside : stageOf (v.loc p).pc = .inside := by rw [pc]; rfl
    obtain ⟨l', out, run, -⟩ := @releaseCs_spec cfg p (v.loc p).locals fun c child ne _ =>
      h.inv.holds p ⟨c, child⟩ (fun k => ne (congrArg Subtype.val k).symm) inside
    cases run.symm.trans failed
  | @handle q m pc failed =>
    obtain ⟨a, rfl, ne⟩ := sender_child control ready
    have failed := (@handleCsRequests_eq cfg p _ a.1 m).symm.trans failed
    split at failed
    next type =>
      -- A request is for a fork that the child has.
      have pair := h.inv.pair p a ne.symm
      have head : (image cfg v).chan a p = .token :: _ :=
        (forkChan_taken ready (x := .token) (by simp [type, forkMsg])).1
      rw [head] at pair
      have fork : (v.loc p).locals.mux.hasFork a = true := pair.fork_of_token.2.1
      rw [if_pos fork] at failed
      cases failed
    next => cases failed
  | @handleUnexpected q m l out pc taken cs =>
    obtain ⟨a, rfl, ne⟩ := sender_child control ready
    have taken := (@handleCsRequests_eq cfg p _ a.1 m).symm.trans taken
    split at taken
    next => split at taken <;> cases taken
    next noRequest =>
      rcases cs with request | reply | release
      · exact noRequest request
      · have pair := h.inv.pair p a ne.symm
        have head : (image cfg v).chan a p = .fork :: _ :=
          (forkChan_taken ready (x := .fork) (by simp [reply, forkMsg])).1
        rw [head] at pair
        have waiting : stageOf (v.loc p).pc = .waiting := pair.waiting_of_fork.1
        rw [pc] at waiting
        cases waiting
      · exact released ready release

theorem exclusive {v : ProcessView Mux} {os : List Observation} (h : Refined cfg v os) :
    Set.Subsingleton {p | IsChild cfg.numChildren p ∧ (v.loc p).pc.Inside} := by
  intro p hp q hq
  have inside (a : Child cfg.numChildren) (ha : (v.loc a).pc.Inside) :
      a ∈ {a | (image cfg v).stage a = .inside} := stageOf_eq_inside.mpr ha
  exact congrArg Subtype.val (h.inv.exclusive (inside ⟨p, hp.1⟩ hp.2) (inside ⟨q, hq.1⟩ hq.2))

end Refined

/-! ## Every run -/

/-- Entries are observed with the time of the entry. -/
def entryTime (_ : Nat) (st : Process Mux) : Nat := st.lamportTime

theorem refined (r : MutexRun cfg mutex) :
    Control cfg r.final.view ∧ Counted cfg r.final.view (r.observations entryTime) ∧
      Refined cfg r.final.view (r.observations entryTime) :=
  MutexRun.invariant mutex_lawful entryTime Refined.initial
    (fun _ _ p _ control inv child ready => inv.safe (p := ⟨p, child⟩) control ready)
    (fun _ _ p _ _ control inv child ready step =>
      inv.keep (p := ⟨p, child⟩) entryTime control ready step)
    (fun _ _ _ inv frame => inv.parent frame) r

/-- At most one child is in its critical section. -/
theorem forks_mutual_exclusion (r : MutexRun cfg mutex) :
    Set.Subsingleton {p | IsChild cfg.numChildren p ∧ (r.final.loc p).pc.Inside} :=
  (refined r).2.2.exclusive

theorem forks_bounded_overtaking (r : MutexRun cfg mutex) :
    BoundedOvertaking cfg.numChildren (r.observations entryTime) := by
  intro i j hi hj ne m win window type before
  have once := (refined r).2.2.once ⟨i, hi⟩ ⟨j, hj⟩ (heard cfg.numChildren win)
    (fun eq => ne (congrArg Subtype.val eq))
  rw [entries_heard, entries_heard] at once
  refine once ?_ before
  have seen : heard cfg.numChildren (.took j i m :: win) =
      .asked ⟨j, hj⟩ ⟨i, hi⟩ :: heard cfg.numChildren win := by
    rw [← List.singleton_append, heard_append]
    exact congrArg (· ++ _) ((heard_took ⟨j, hj⟩ ⟨i, hi⟩ m).trans (if_pos type))
  exact seen ▸ window.filterMap _

end Distra.Pa6
