import Distra.Pa4.Control
import Distra.Pa6.Mutex

/-!
# The functions of `pa6/mutex.c`, case by case

What a function sends to a child is given by the types of the messages.
-/

namespace Distra.Pa6

open Network Function

variable {cfg : Config}

/-- The types of the messages to `c`. -/
def typesTo (out : Sends) (c : Nat) : List MessageType := (outTo out c).map Message.type

@[simp] theorem typesTo_nil (c : Nat) : typesTo [] c = [] := rfl

@[simp] theorem typesTo_append (out out' : Sends) (c : Nat) :
    typesTo (out ++ out') c = typesTo out c ++ typesTo out' c := by
  simp [typesTo]

theorem typesTo_single (dst c : Nat) (m : Message) :
    typesTo [(dst, m)] c = if c = dst then [m.type] else [] := by
  rw [typesTo, outTo_cons]
  by_cases eq : c = dst
  · simp [eq]
  · simp [eq, Ne.symm eq]

/-- Forks and requests for forks. -/
def ForkSends (out : Sends) : Prop := ∀ x ∈ out, x.2.type = .csRequest ∨ x.2.type = .csReply

theorem ForkSends.cs {out : Sends} (h : ForkSends out) : CsSends out := by
  intro x mem
  rcases h x mem with request | reply
  · exact .inl request
  · exact .inr (.inl reply)

/-- The clock once `m` has been taken. -/
def received (l : Locals) (m : Message) : Locals :=
  { l with lamportTime := synchronizeTime m.localTime l.lamportTime }

/-! ## The loops over the children -/

/-- The forks of the children of `L` have been asked for. -/
structure Requested (p : Nat) (L : List Nat) (l l' : Locals) (out : Sends) : Prop where
  hasFork : l'.mux.hasFork = l.mux.hasFork
  forkDirty : l'.mux.forkDirty = l.mux.forkDirty
  hasRequest : ∀ c, l'.mux.hasRequest c =
    if c ∈ L ∧ c ≠ p then l.mux.hasRequest c && l.mux.hasFork c else l.mux.hasRequest c
  sends : ∀ c, typesTo out c =
    if (c ∈ L ∧ c ≠ p) ∧ (l.mux.hasRequest c && !l.mux.hasFork c) = true then [.csRequest]
    else []

theorem requestForks_spec (p : Nat) (L : List Nat) (nodup : L.Nodup) (l : Locals) :
    ∃ l' out, requestForks p L l = some (l', out) ∧ Requested p L l l' out := by
  induction L generalizing l with
  | nil => exact ⟨l, [], rfl, rfl, rfl, by simp, by simp⟩
  | cons c rest ih =>
    obtain ⟨fresh, nodup⟩ := List.nodup_cons.mp nodup
    have ih := ih nodup
    have pass (skip : c = p ∨ (l.mux.hasRequest c && !l.mux.hasFork c) = false)
        (run : requestForks p (c :: rest) l = requestForks p rest l) :
        ∃ l' out, requestForks p (c :: rest) l = some (l', out) ∧
          Requested p (c :: rest) l l' out := by
      obtain ⟨l', out, run', spec⟩ := ih l
      refine ⟨l', out, run.trans run', spec.hasFork, spec.forkDirty, fun a => ?_, fun a => ?_⟩
      · rw [spec.hasRequest a]
        by_cases eq : a = c
        · subst eq
          rcases skip with own | skip
          · simp [own]
          · by_cases own : a = p
            · simp [own]
            · cases asks : l.mux.hasRequest a <;> simp_all
        · simp [eq]
      · rw [spec.sends a]
        by_cases eq : a = c
        · subst eq
          rcases skip with own | skip
          · simp [own]
          · simp [skip]
        · simp [eq]
    by_cases own : c = p
    · exact pass (.inl own) (by simp [requestForks, own])
    · by_cases asks : (!l.mux.hasFork c && l.mux.hasRequest c) = true
      · obtain ⟨missing, token⟩ : l.mux.hasFork c = false ∧ l.mux.hasRequest c = true := by
          simpa using asks
        obtain ⟨l', out, run, spec⟩ := ih
          ⟨{ l.mux with hasRequest := update l.mux.hasRequest c false },
            advanceLamportTime l.lamportTime⟩
        refine ⟨l', (c, ⟨.csRequest, advanceLamportTime l.lamportTime⟩) :: out, ?_, spec.hasFork,
          spec.forkDirty, fun a => ?_, fun a => ?_⟩
        · simp [requestForks, own, missing, token, requestFork, run]
        · rw [spec.hasRequest a]
          by_cases eq : a = c
          · subst eq
            simp [fresh, own, missing]
          · simp [eq]
        · rw [← List.singleton_append, typesTo_append, typesTo_single, spec.sends a]
          by_cases eq : a = c
          · subst eq
            simp [fresh, own, missing, token]
          · simp [eq]
      · have skip : (l.mux.hasRequest c && !l.mux.hasFork c) = false := by
          rw [Bool.and_comm]
          simpa using asks
        exact pass (.inr skip) (by simp only [requestForks, own, asks, if_false]; rfl)

/-- The forks of the children of `L` are dirty, and given up where they have been asked for. -/
structure Released (p : Nat) (L : List Nat) (l l' : Locals) (out : Sends) : Prop where
  hasRequest : l'.mux.hasRequest = l.mux.hasRequest
  forkDirty : ∀ c, l'.mux.forkDirty c =
    if c ∈ L ∧ c ≠ p then true else l.mux.forkDirty c
  hasFork : ∀ c, l'.mux.hasFork c =
    if c ∈ L ∧ c ≠ p then l.mux.hasFork c && !l.mux.hasRequest c else l.mux.hasFork c
  sends : ∀ c, typesTo out c =
    if (c ∈ L ∧ c ≠ p) ∧ l.mux.hasRequest c = true then [.csReply] else []

/-- No assertion fails when the forks that have been asked for are at hand. -/
theorem releaseForks_spec (p : Nat) (L : List Nat) (nodup : L.Nodup) (l : Locals)
    (holds : ∀ c ∈ L, c ≠ p → l.mux.hasRequest c = true → l.mux.hasFork c = true) :
    ∃ l' out, releaseForks p L l = some (l', out) ∧ Released p L l l' out := by
  induction L generalizing l with
  | nil => exact ⟨l, [], rfl, rfl, by simp, by simp, by simp⟩
  | cons c rest ih =>
    obtain ⟨fresh, nodup⟩ := List.nodup_cons.mp nodup
    have ih := ih nodup
    have later : ∀ a ∈ rest, a ≠ c := fun a mem eq => fresh (eq ▸ mem)
    by_cases own : c = p
    · subst own
      obtain ⟨l', out, run, spec⟩ := ih l fun a mem => holds a (List.mem_cons_of_mem _ mem)
      refine ⟨l', out, by rw [releaseForks, if_pos rfl, run], spec.hasRequest, fun a => ?_,
        fun a => ?_, fun a => ?_⟩
      · rw [spec.forkDirty a]
        by_cases eq : a = c <;> simp [eq]
      · rw [spec.hasFork a]
        by_cases eq : a = c <;> simp [eq]
      · rw [spec.sends a]
        by_cases eq : a = c <;> simp [eq]
    · by_cases asked : l.mux.hasRequest c = true
      · have fork := holds c (by simp) own asked
        obtain ⟨l', out, run, spec⟩ := ih
          ⟨{ l.mux with forkDirty := update l.mux.forkDirty c true,
                        hasFork := update l.mux.hasFork c false },
            advanceLamportTime l.lamportTime⟩ fun a mem ne asks => by
              simpa [later a mem] using holds a (List.mem_cons_of_mem _ mem) ne asks
        refine ⟨l', (c, ⟨.csReply, advanceLamportTime l.lamportTime⟩) :: out, ?_, spec.hasRequest,
          fun a => ?_, fun a => ?_, fun a => ?_⟩
        · simp [releaseForks, own, asked, giveUpFork, fork, run]
        · rw [spec.forkDirty a]
          by_cases eq : a = c
          · subst eq
            simp [own]
          · simp [eq]
        · rw [spec.hasFork a]
          by_cases eq : a = c
          · subst eq
            simp [fresh, own, asked]
          · simp [eq]
        · rw [← List.singleton_append, typesTo_append, typesTo_single, spec.sends a]
          by_cases eq : a = c
          · subst eq
            simp [fresh, own, asked]
          · simp [eq]
      · obtain ⟨l', out, run, spec⟩ := ih
          { l with mux := { l.mux with forkDirty := update l.mux.forkDirty c true } }
          fun a mem => holds a (List.mem_cons_of_mem _ mem)
        refine ⟨l', out, by simp only [releaseForks, own, asked, if_false]; exact run,
          spec.hasRequest, fun a => ?_, fun a => ?_, fun a => ?_⟩
        · rw [spec.forkDirty a]
          by_cases eq : a = c
          · subst eq
            simp [own]
          · simp [eq]
        · rw [spec.hasFork a]
          by_cases eq : a = c
          · subst eq
            simp [fresh, own, asked]
          · simp [eq]
        · rw [spec.sends a]
          by_cases eq : a = c
          · subst eq
            simp [asked]
          · simp [eq]

/-! ## One round -/

section Specs

variable {p fr : Nat} {m : Message} {l l' : Locals} {out out' : Sends} {verdict : Verdict}

theorem requestCs_spec (p : Nat) (l : Locals) : ∃ l' out, requestCs cfg p l = some (l', out) ∧
    Requested p (List.range' 1 cfg.numChildren) l l' out :=
  requestForks_spec p _ List.nodup_range' l

theorem requestCs_some (h : requestCs cfg p l = some (l', out)) :
    Requested p (List.range' 1 cfg.numChildren) l l' out := by
  obtain ⟨l₁, out₁, run, spec⟩ := @requestCs_spec cfg p l
  cases run.symm.trans h
  exact spec

theorem releaseCs_spec (holds : ∀ c, IsChild cfg.numChildren c → c ≠ p →
      l.mux.hasRequest c = true → l.mux.hasFork c = true) :
    ∃ l' out, releaseCs cfg p l = some (l', out) ∧
      Released p (List.range' 1 cfg.numChildren) l l' out := by
  refine releaseForks_spec p _ List.nodup_range' l fun c mem => holds c ?_
  have := List.mem_range'_1.mp mem
  exact ⟨this.1, by omega⟩

/-- The fork of every other child is at hand and need not be given up. -/
theorem canEnterCs_iff {mux : Mux} : canEnterCs cfg p mux = true ↔
    ∀ c, IsChild cfg.numChildren c → c ≠ p →
      mux.hasFork c = true ∧ ¬(mux.forkDirty c = true ∧ mux.hasRequest c = true) := by
  have range (c : Nat) : c ∈ List.range' 1 cfg.numChildren ↔ IsChild cfg.numChildren c := by
    rw [List.mem_range'_1, IsChild]
    omega
  simp only [canEnterCs, List.all_eq_true, range]
  refine forall₂_congr fun c child => ?_
  by_cases own : c = p
  · simp [own]
  · cases mux.hasFork c <;> cases mux.forkDirty c <;> cases mux.hasRequest c <;> simp [own]

/-- A round ends in the entry, or with the requests at the top of the next one. -/
theorem endRound_some (h : endRound cfg p l out = some (verdict, l', out')) :
    (canEnterCs cfg p l.mux = true ∧ verdict = .entered ∧ l' = l ∧ out' = out) ∨
      ∃ out₁, Requested p (List.range' 1 cfg.numChildren) l l' out₁ ∧ verdict = .waits ∧
        out' = out ++ out₁ := by
  unfold endRound at h
  split at h
  next enters =>
    cases h
    exact .inl ⟨enters, rfl, rfl, rfl⟩
  next =>
    obtain ⟨⟨l₁, out₁⟩, requested, rest⟩ := Option.bind_eq_some_iff.mp h
    cases rest
    exact .inr ⟨out₁, requestCs_some requested, rfl, rfl⟩

/-- The sends of the round so far come first. -/
theorem endRound_append (h : endRound cfg p l out = some (verdict, l', out')) :
    ∃ out₁, endRound cfg p l [] = some (verdict, l', out₁) ∧ out' = out ++ out₁ := by
  unfold endRound at h ⊢
  split at h
  next enters =>
    cases h
    exact ⟨[], if_pos enters, (List.append_nil _).symm⟩
  next stays =>
    obtain ⟨⟨l₁, out₁⟩, requested, rest⟩ := Option.bind_eq_some_iff.mp h
    cases rest
    exact ⟨out₁, by rw [if_neg stays, requested]; rfl, rfl⟩

theorem endRound_ne_none (l : Locals) (out : Sends) : endRound cfg p l out ≠ none := by
  obtain ⟨l', out', run, -⟩ := @requestCs_spec cfg p l
  unfold endRound
  split <;> simp [run]

/-- What a CS message does in `request_cs`, before the end of the round. -/
inductive Serves (l : Locals) (fr : Nat) (m : Message) : Locals → Sends → Prop
  | fork : m.type = .csReply →
      Serves l fr m
        ⟨{ l.mux with hasFork := update l.mux.hasFork fr true
                      forkDirty := update l.mux.forkDirty fr false },
          synchronizeTime m.localTime l.lamportTime⟩ []
  | giveUp : m.type = .csRequest → l.mux.hasFork fr = true → l.mux.forkDirty fr = true →
      Serves l fr m
        ⟨{ l.mux with hasRequest := update l.mux.hasRequest fr true
                      hasFork := update l.mux.hasFork fr false },
          advanceLamportTime (synchronizeTime m.localTime l.lamportTime)⟩
        [(fr, ⟨.csReply, advanceLamportTime (synchronizeTime m.localTime l.lamportTime)⟩)]
  | keep : m.type = .csRequest → (l.mux.hasFork fr && l.mux.forkDirty fr) = false →
      Serves l fr m ⟨{ l.mux with hasRequest := update l.mux.hasRequest fr true },
        synchronizeTime m.localTime l.lamportTime⟩ []

/-- `request_cs` deals with every CS message but `CS_RELEASE`. -/
theorem requestCsTake_cases (l : Locals) (fr : Nat) (m : Message) :
    (∃ l₁ out₁, Serves l fr m l₁ out₁ ∧ requestCsTake cfg p l fr m = endRound cfg p l₁ out₁) ∨
      (m.type ≠ .csReply ∧ m.type ≠ .csRequest) ∧
        requestCsTake cfg p l fr m = some (.nonCsMessageReceived, received l m, []) := by
  obtain ⟨type, time⟩ := m
  cases type
  case csRequest =>
    by_cases gives : (l.mux.hasFork fr && l.mux.forkDirty fr) = true
    · obtain ⟨fork, dirty⟩ : l.mux.hasFork fr = true ∧ l.mux.forkDirty fr = true := by
        simpa using gives
      exact .inl ⟨_, _, .giveUp rfl fork dirty, by simp [requestCsTake, giveUpFork, fork, dirty]⟩
    · have keeps : (l.mux.hasFork fr && l.mux.forkDirty fr) = false := by simpa using gives
      exact .inl ⟨_, _, .keep rfl keeps, by simp [requestCsTake, keeps]⟩
  case csReply => exact .inl ⟨_, _, .fork rfl, rfl⟩
  all_goals exact .inr ⟨by simp, rfl⟩

theorem requestCsTake_some (h : requestCsTake cfg p l fr m = some (verdict, l', out)) :
    (∃ l₁ out₁, Serves l fr m l₁ out₁ ∧ endRound cfg p l₁ out₁ = some (verdict, l', out)) ∨
      (m.type ≠ .csReply ∧ m.type ≠ .csRequest) ∧ verdict = .nonCsMessageReceived ∧
        l' = received l m ∧ out = [] := by
  rcases @requestCsTake_cases cfg p l fr m with ⟨l₁, out₁, serves, eq⟩ | ⟨other, eq⟩
  · exact .inl ⟨l₁, out₁, serves, eq.symm.trans h⟩
  · cases eq.symm.trans h
    exact .inr ⟨other, rfl, rfl, rfl⟩

theorem requestCsTake_ne_none (l : Locals) (fr : Nat) (m : Message) :
    requestCsTake cfg p l fr m ≠ none := by
  rcases @requestCsTake_cases cfg p l fr m with ⟨l₁, out₁, -, eq⟩ | ⟨-, eq⟩
  · exact eq.trans_ne (endRound_ne_none l₁ out₁)
  · simp [eq]

theorem handleCsRequests_eq (l : Locals) (fr : Nat) (m : Message) :
    handleCsRequests cfg p l fr m =
      if m.type = .csRequest then
        if l.mux.hasFork fr then
          some (.waits, ⟨{ l.mux with hasFork := update l.mux.hasFork fr false },
              advanceLamportTime (synchronizeTime m.localTime l.lamportTime)⟩,
            [(fr, ⟨.csReply, advanceLamportTime (synchronizeTime m.localTime l.lamportTime)⟩)])
        else none
      else some (.nonCsMessageReceived, received l m, []) := by
  obtain ⟨type, time⟩ := m
  cases type
  case csRequest => cases fork : l.mux.hasFork fr <;> simp [handleCsRequests, giveUpFork, fork]
  all_goals rfl

theorem Requested.sends_forks {L : List Nat} (h : Requested p L l l' out) : ForkSends out := by
  intro x mem
  have mem : x.2.type ∈ typesTo out x.1 := List.mem_map_of_mem (mem_outTo.mpr mem)
  rw [h.sends] at mem
  split at mem <;> simp_all

theorem Serves.sends (h : Serves l fr m l' out) : ForkSends out := by
  cases h <;> simp [ForkSends]

theorem endRound_sends (h : endRound cfg p l out = some (verdict, l', out'))
    (forks : ForkSends out) : ForkSends out' := by
  rcases endRound_some h with ⟨-, -, -, rfl⟩ | ⟨out₁, requested, -, rfl⟩
  · exact forks
  · intro x mem
    exact (List.mem_append.mp mem).elim (forks x) (requested.sends_forks x)

theorem take_sends (h : requestCsTake cfg p l fr m = some (verdict, l', out)) : ForkSends out := by
  rcases requestCsTake_some h with ⟨l₁, out₁, serves, round⟩ | ⟨-, -, -, rfl⟩
  · exact endRound_sends round serves.sends
  · simp [ForkSends]

theorem handle_sends (h : handleCsRequests cfg p l fr m = some (verdict, l', out)) :
    ForkSends out := by
  rw [handleCsRequests_eq] at h
  split at h
  next =>
    split at h <;> cases h
    simp [ForkSends]
  next =>
    cases h
    simp [ForkSends]

end Specs

theorem releaseForks_sends (p : Nat) (L : List Nat) {l l' : Locals} {out : Sends}
    (h : releaseForks p L l = some (l', out)) : ForkSends out := by
  induction L generalizing l out with
  | nil =>
    cases h
    simp [ForkSends]
  | cons c rest ih =>
    unfold releaseForks at h
    split at h
    next => exact ih h
    next =>
      dsimp only at h
      split at h
      next =>
        obtain ⟨⟨l₁, out₁⟩, given, rest⟩ := Option.bind_eq_some_iff.mp h
        obtain ⟨⟨l₂, out₂⟩, run, rest⟩ := Option.bind_eq_some_iff.mp rest
        cases rest
        unfold giveUpFork at given
        split at given <;> cases given
        intro x mem
        rcases List.mem_cons.mp mem with rfl | mem
        · exact .inr rfl
        · exact ih run x mem
      next => exact ih h

theorem mutex_lawful : mutex.Lawful where
  requestCs_sends h := (requestCs_some h).sends_forks.cs
  take_sends h := (take_sends h).cs
  empty_sends h := (endRound_sends h (by simp [ForkSends])).cs
  release_sends h := (releaseForks_sends _ _ h).cs
  handle_sends {cfg p _ _ _ _ _ _} h := (@handle_sends cfg p _ _ _ _ _ _ h).cs
  take_done isDone h := by
    rcases requestCsTake_some h with ⟨_, _, serves, -⟩ | ⟨-, rfl, -, -⟩
    · cases serves <;> simp_all
    · rfl
  handle_done {cfg p l q m verdict l' out} isDone h := by
    have h := (@handleCsRequests_eq cfg p l q m).symm.trans h
    rw [if_neg (by simp [isDone])] at h
    cases h
    rfl

end Distra.Pa6
