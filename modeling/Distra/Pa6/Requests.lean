import Distra.Exclusion.Requests
import Distra.Pa4.Parent
import Distra.Pa6.Pairs

/-!
# The requests of `pa6`

A child asks every other one at most once in a critical section. A request takes the token that the
child has been given with a request, except for the first one of the smaller of the two children,
and every fork given up has been asked for.
-/

namespace Distra.Pa6

open Network Exclusion

variable {cfg : Config}

/-- The types of what has been sent from the local states in the list. -/
def sentTypes (type : MessageType) (l : List (Process Mux × Message)) : Nat :=
  ofType type (l.map Prod.snd)

theorem sentTypes_append (type : MessageType) (l l' : List (Process Mux × Message)) :
    sentTypes type (l ++ l') = sentTypes type l + sentTypes type l' := by
  simp [sentTypes]

theorem sentTypes_map (type : MessageType) (st : Process Mux) (l : List Message) :
    sentTypes type (l.map (st, ·)) = ofType type l := by
  simp [sentTypes, Function.comp_def]

/-- Where the sender of every `CS_REQUEST` stands. -/
def askedFrom (l : List (Process Mux × Message)) : List Pc :=
  (l.filter (fun x => x.2.type = .csRequest)).map (fun x => x.1.pc)

theorem askedFrom_append (l l' : List (Process Mux × Message)) :
    askedFrom (l ++ l') = askedFrom l ++ askedFrom l' := by
  simp [askedFrom]

theorem length_askedFrom (l : List (Process Mux × Message)) :
    (askedFrom l).length = sentTypes .csRequest l := by
  rw [askedFrom, List.length_map, ← List.countP_eq_length_filter, sentTypes, ofType,
    List.countP_map]
  rfl

theorem askedFrom_map (st : Process Mux) (l : List Message) :
    askedFrom (l.map (st, ·)) = List.replicate (ofType .csRequest l) st.pc := by
  simp [askedFrom, List.filter_map, ofType, List.countP_eq_length_filter, Function.comp_def]

/-! ## One step -/

/-- What a child shares with `q`. -/
abbrev sharedWith (st : Process Mux) (q : Nat) : Forks.End := endOf (stageOf st.pc) st.mux q

/-- What a step of `p` does to its requests to `q` and its answers. -/
structure Accounted (p q : Nat) (st : Process Mux) (input : Option (Nat × Message))
    (next : Next Nat (Process Mux) Message) : Prop where
  asks : ofType .csRequest (outTo next.2 q) + (sharedWith next.1 q).mayAsk.toNat +
    st.pc.entries p ≤ (sharedWith st q).mayAsk.toNat + next.1.pc.entries p
  tokens : ofType .csRequest (outTo next.2 q) + (next.1.mux.hasRequest q).toNat ≤
    (st.mux.hasRequest q).toNat + ofType .csRequest (outTo input.toList q)
  forks : ofType .csReply (outTo next.2 q) +
    (next.1.mux.hasFork q && next.1.mux.hasRequest q).toNat ≤
      (st.mux.hasFork q && st.mux.hasRequest q).toNat + ofType .csRequest (outTo input.toList q)
  asking : ofType .csRequest (outTo next.2 q) = 0 ∨ ∃ i, next.1.pc = .requestCs i
  range : next.1.pc.InRange p
  entries : next.1.pc.entries p = st.pc.entries p +
    if ¬st.pc.Inside ∧ next.1.pc.Inside then 1 else 0

section Step

variable {v : ProcessView Mux} {p q : Child cfg.numChildren} {input : Option (Nat × Message)}
  {next : Next Nat (Process Mux) Message}

theorem accounted (inv : Forks.Inv (image cfg v)) (control : Control cfg v)
    (range : (v.loc p).pc.InRange p) (ready : Ready cfg v p input)
    (step : LocalStep cfg mutex p (v.loc p) input next) (ne : q ≠ p) :
    Accounted p q (v.loc p) input next := by
  have steps := tabled entryTime inv control ready step
  have charged := steps.charged inv ne
  have asking := steps.asking ne
  obtain ⟨inRange, entries⟩ := step.entries range
  have other : q.1 ≠ p.1 := fun k => ne (Subtype.ext k)
  have meals : Forks.entries p (heard cfg.numChildren
      (childEvents entryTime p input (v.loc p) next.1)) =
      if ¬(v.loc p).pc.Inside ∧ next.1.pc.Inside then 1 else 0 := by
    rw [entries_heard, entriesBy_childEvents]
    simp
  -- The channels before and after, message by message.
  have sends : ((v.consume p input).become p next).chan p q = v.chan p q ++ outTo next.2 q := by
    rw [View.consume_become_chan, if_pos rfl, View.consume_chan_ne v input other]
  have takes : v.chan q p = outTo input.toList q ++
      ((v.consume p input).become p next).chan q p := by
    rw [View.consume_become_chan, if_neg other, List.append_nil]
    exact ready.chan_eq q
  have after : (image cfg ((v.consume p input).become p next)).side p q = sharedWith next.1 q := by
    rw [image_side, View.consume_become_loc, if_pos rfl]
  have before : (image cfg v).side p q = sharedWith (v.loc p) q := rfl
  have tokenChan (w : ProcessView Mux) (a b : Child cfg.numChildren) :
      ((image cfg w).chan a b).count .token = ofType .csRequest (w.chan a b) := count_token _
  have forkChan (w : ProcessView Mux) (a b : Child cfg.numChildren) :
      ((image cfg w).chan a b).count .fork = ofType .csReply (w.chan a b) := count_fork _
  obtain ⟨asks, tokens, forks⟩ := charged
  rw [after, before, meals] at asks
  rw [after, before] at tokens forks
  rw [after] at asking
  simp only [tokenChan, forkChan, sends, takes, ofType_append] at asks tokens forks asking
  refine ⟨?_, ?_, ?_, ?_, inRange, entries⟩
  · omega
  · change _ + (sharedWith next.1 q).token.toNat ≤ (sharedWith (v.loc p) q).token.toNat + _
    omega
  · change _ + ((sharedWith next.1 q).fork && (sharedWith next.1 q).token).toNat ≤
      ((sharedWith (v.loc p) q).fork && (sharedWith (v.loc p) q).token).toNat + _
    omega
  · rcases asking with none_ | waiting
    · exact .inl (by omega)
    · exact .inr (stageOf_eq_waiting.mp waiting)

end Step

/-! ## All that a child has sent to another one -/

/-- The requests to `q`: one at most in a critical section, and in the one that `p` waits for only
if it will not ask again. -/
structure Spaced (p q : Nat) (st : Process Mux) (l : List Pc) : Prop where
  nodup : l.Nodup
  asked : ∀ pc ∈ l, ∃ i, pc = .requestCs i ∧ (1 ≤ i ∧ i ≤ 5 * p) ∧ i ≤ st.pc.entries p + 1 ∧
    (i = st.pc.entries p + 1 → (sharedWith st q).mayAsk = false)

/-- What `p` has sent to `q` and taken from it. -/
structure Ledger (p q : Nat) (st : Process Mux) (sent : List (Process Mux × Message))
    (taken : List Message) : Prop where
  spaced : Spaced p q st (askedFrom sent)
  /-- The smaller of the two has a token at the start. -/
  tokens : sentTypes .csRequest sent + (st.mux.hasRequest q).toNat ≤
    ofType .csRequest taken + if p < q then 1 else 0
  forks : sentTypes .csReply sent + (st.mux.hasFork q && st.mux.hasRequest q).toNat ≤
    ofType .csRequest taken

section Ledger

variable {p q : Nat} {st : Process Mux} {input : Option (Nat × Message)}
  {next : Next Nat (Process Mux) Message} {l : List Pc} {sent : List (Process Mux × Message)}
  {taken : List Message}

theorem Spaced.step (h : Spaced p q st l) (step : Accounted p q st input next) :
    Spaced p q next.1
      (l ++ List.replicate (ofType .csRequest (outTo next.2 q)) next.1.pc) := by
  have asks := step.asks
  have entries := step.entries
  have bound := Bool.toNat_le (sharedWith st q).mayAsk
  -- Nothing is different for the requests made before.
  have old : ∀ pc ∈ l, ∃ i, pc = .requestCs i ∧ (1 ≤ i ∧ i ≤ 5 * p) ∧
      i ≤ next.1.pc.entries p + 1 ∧
      (i = next.1.pc.entries p + 1 → (sharedWith next.1 q).mayAsk = false) := by
    intro pc mem
    obtain ⟨i, rfl, range, le, settled⟩ := h.asked pc mem
    refine ⟨i, rfl, range, by omega, fun eq => ?_⟩
    have none_ := settled (by omega)
    rw [none_, Bool.toNat_false] at asks
    rw [← Bool.toNat_eq_zero]
    omega
  rcases Nat.eq_zero_or_pos (ofType .csRequest (outTo next.2 q)) with none_ | pos
  · rw [none_, List.replicate_zero, List.append_nil]
    exact ⟨h.nodup, old⟩
  · obtain ⟨i, pc⟩ := step.asking.resolve_left (Nat.ne_of_gt pos)
    have range := step.range
    rw [pc] at range
    have now : next.1.pc.entries p + 1 = i := by
      rw [pc]
      exact Nat.sub_add_cancel range.1
    rw [if_neg (by simp [pc, Pc.Inside])] at entries
    have once : ofType .csRequest (outTo next.2 q) = 1 := by omega
    have asked : (sharedWith st q).mayAsk = true := by
      rw [← Bool.toNat_eq_one]
      omega
    have settled : (sharedWith next.1 q).mayAsk = false := by
      rw [← Bool.toNat_eq_zero]
      omega
    have fresh : next.1.pc ∉ l := by
      intro mem
      obtain ⟨j, eq, -, -, settled⟩ := h.asked _ mem
      cases pc.symm.trans eq
      exact absurd (settled (by omega)) (by simp [asked])
    rw [once, List.replicate_one]
    refine ⟨List.nodup_append.mpr ⟨h.nodup, List.nodup_singleton _, ?_⟩, fun x mem => ?_⟩
    · intro x old y new eq
      exact fresh (List.mem_singleton.mp new ▸ eq ▸ old)
    · rcases List.mem_append.mp mem with mem | mem
      · exact old x mem
      · rw [List.mem_singleton.mp mem]
        exact ⟨i, pc, range, Nat.le_of_eq now.symm, fun _ => settled⟩

/-- A step of `p`. -/
theorem Ledger.step (h : Ledger p q st sent taken) (step : Accounted p q st input next) :
    Ledger p q next.1 (sent ++ (outTo next.2 q).map (next.1, ·))
      (taken ++ outTo input.toList q) := by
  have tokens := h.tokens
  have forks := h.forks
  have tokens' := step.tokens
  have forks' := step.forks
  refine ⟨?_, ?_, ?_⟩
  · rw [askedFrom_append, askedFrom_map]
    exact h.spaced.step step
  · rw [sentTypes_append, sentTypes_map, ofType_append]
    omega
  · rw [sentTypes_append, sentTypes_map, ofType_append]
    omega

/-- At most one request in each of the critical sections of `p`. -/
theorem Ledger.requests_le (h : Ledger p q st sent taken) :
    sentTypes .csRequest sent ≤ 5 * p := by
  rw [← length_askedFrom]
  have sections : askedFrom sent ⊆ (List.range' 1 (5 * p)).map Pc.requestCs := by
    intro pc mem
    obtain ⟨i, rfl, ⟨pos, le⟩, -⟩ := h.spaced.asked pc mem
    exact List.mem_map_of_mem (List.mem_range'_1.mpr ⟨pos, by omega⟩)
  simpa using (List.subperm_of_subset h.spaced.nodup sections).length_le

end Ledger

/-! ## Every run -/

theorem Ledger.initial (p q : Nat) :
    Ledger p q ((initialState cfg mutex).view.loc p) [] [] := by
  have loc : (initialState cfg mutex).view.loc p = initialProcess cfg mutex p := rfl
  have request : (initialProcess cfg mutex p).mux.hasRequest q =
    decide ((1 ≤ q ∧ q ≤ cfg.numChildren) ∧ q > p) := rfl
  have fork : (initialProcess cfg mutex p).mux.hasFork q =
    decide ((1 ≤ q ∧ q ≤ cfg.numChildren) ∧ q < p) := rfl
  refine ⟨⟨List.nodup_nil, nofun⟩, ?_, ?_⟩
  · rw [loc, request]
    by_cases lt : p < q
    · rw [if_pos lt]
      simpa [sentTypes] using Bool.toNat_le _
    · simp [sentTypes, lt]
  · have apart : ((initialProcess cfg mutex p).mux.hasFork q &&
        (initialProcess cfg mutex p).mux.hasRequest q) = false := by
      rw [fork, request, ← Bool.decide_and, decide_eq_false_iff_not]
      omega
    rw [loc, apart]
    exact Nat.le_refl _

theorem ledger (r : MutexRun cfg mutex) : ∀ p q, IsChild cfg.numChildren p →
    IsChild cfg.numChildren q → q ≠ p →
    Ledger p q (r.final.loc p) (r.traffic.sent p q) (r.traffic.taken p q) := by
  refine MutexRun.induction_traffic (J := fun v t => ∀ p q, IsChild cfg.numChildren p →
    IsChild cfg.numChildren q → q ≠ p → Ledger p q (v.loc p) (t.sent p q) (t.taken p q))
    unfailing (fun p q _ _ _ => .initial p q) ?_ ?_ r
  · intro r p input next inv child ready step a b ha hb ne
    rw [View.consume_become_loc]
    by_cases actor : a = p
    · subst actor
      obtain ⟨control, counted, refined⟩ := refined r
      have step := accounted (p := ⟨a, child⟩) (q := ⟨b, hb⟩) refined.inv control
        (counted a child).1 ready step (fun eq => ne (congrArg Subtype.val eq))
      simpa [Traffic.step] using (inv a b ha hb ne).step step
    · simpa [Traffic.step, actor] using inv a b ha hb ne
  · intro r input st inv _ _ _ a b ha hb ne
    rw [View.consume_become_loc, if_neg ha.ne_parent]
    simpa [Traffic.step, ha.ne_parent] using inv a b ha hb ne

section Counts

variable {p q : Nat}

theorem written_le_sent (type : MessageType) (r : MutexRun cfg mutex) (p q : Nat) :
    ofType type (written r.transitions p q) ≤ sentTypes type (r.traffic.sent p q) := by
  rw [sentTypes, MutexRun.traffic, map_snd_sent, ofType_append]
  exact Nat.le_add_right _ _

theorem taken_le_written (type : MessageType) (r : MutexRun cfg mutex) (p q : Nat) :
    ofType type (r.traffic.taken q p) ≤ ofType type (written r.transitions p q) := by
  rw [r.run.fifo rfl, ofType_append]
  exact Nat.le_add_right _ _

/-- The larger of two children asks only after it has been asked. -/
theorem requests_le_of_lt (r : MutexRun cfg mutex) (hp : IsChild cfg.numChildren p)
    (hq : IsChild cfg.numChildren q) (lt : q < p) :
    sentTypes .csRequest (r.traffic.sent p q) ≤ ofType .csRequest (written r.transitions q p) := by
  have tokens := (ledger r p q hp hq (Nat.ne_of_lt lt)).tokens
  rw [if_neg (Nat.lt_asymm lt)] at tokens
  have := taken_le_written .csRequest r q p
  omega

/-- A fork is given up for a request that has arrived. -/
theorem replies_le (r : MutexRun cfg mutex) (hp : IsChild cfg.numChildren p)
    (hq : IsChild cfg.numChildren q) (ne : q ≠ p) :
    sentTypes .csReply (r.traffic.sent p q) ≤ ofType .csRequest (written r.transitions q p) := by
  have forks := (ledger r p q hp hq ne).forks
  have := taken_le_written .csRequest r q p
  omega

/-- The critical sections of the smaller of two children bound the requests of both. -/
theorem requests_le_min (r : MutexRun cfg mutex) (hp : IsChild cfg.numChildren p)
    (hq : IsChild cfg.numChildren q) (ne : q ≠ p) :
    sentTypes .csRequest (r.traffic.sent p q) ≤ 5 * min p q := by
  rcases Nat.lt_or_gt_of_ne ne with lt | gt
  · have asked := requests_le_of_lt r hp hq lt
    have := written_le_sent .csRequest r q p
    have := (ledger r q p hq hp ne.symm).requests_le
    omega
  · have := (ledger r p q hp hq ne).requests_le
    omega

/-- A child asks another one once at most in a critical section, and outside of `request_cs` not at
all. -/
theorem asked_once (r : MutexRun cfg mutex) (hp : IsChild cfg.numChildren p)
    (hq : IsChild cfg.numChildren q) (ne : q ≠ p) :
    (askedFrom (writtenAt r.transitions p q)).Nodup ∧
      ∀ pc ∈ askedFrom (writtenAt r.transitions p q),
        ∃ i, (1 ≤ i ∧ i ≤ 5 * p) ∧ pc = .requestCs i := by
  have spaced := (ledger r p q hp hq ne).spaced
  have all : askedFrom (r.traffic.sent p q) =
      askedFrom (writtenAt r.transitions p q) ++ askedFrom (r.final.pending p q) :=
    askedFrom_append _ _
  rw [all] at spaced
  refine ⟨(List.nodup_append.mp spaced.nodup).1, fun pc mem => ?_⟩
  obtain ⟨i, eq, range, -⟩ := spaced.asked pc (List.mem_append_left _ mem)
  exact ⟨i, range, eq⟩

end Counts

end Distra.Pa6
