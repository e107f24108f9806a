import Distra.Pa4.Child

/-!
# The steps of a child

`child_move` says once what a step of a child can do: which piece of code runs, with which
message, and how it changes the state. Where a process ends in a panic or a failed assertion,
`Fails` names the place.
-/

namespace Distra

open Network

variable {μ : Type}

abbrev ProcessView (μ : Type) := View Nat (Process μ) Message

/-- The program point after a round of `request_cs` in iteration `i`. -/
def Verdict.pc (i : Nat) : Verdict → Pc
  | .entered => .criticalSection i
  | _ => .requestCs i

def Pc.Failed (pc : Pc) : Prop := pc = .panicked ∨ pc = .aborted

/-- A step of child `p` that does not fail, with `--mutexl`. -/
inductive LocalStep (cfg : Config) (M : MutexCode μ) (p : Nat) (st : Process μ) :
    Option (Nat × Message) → Next Nat (Process μ) Message → Prop
  | syncStarted : st.pc = .childSyncStarted → LocalStep cfg M p st none (childSyncStarted cfg p st)
  | barrier {fr q m} : st.pc = .awaitAllStarted fr →
      ipcReceiveAllNext cfg.numChildren p fr = some q → m.type = .started →
      LocalStep cfg M p st (some (q, m))
        ({ st with pc := .awaitAllStarted q,
                   lamportTime := synchronizeTime m.localTime st.lamportTime }, [])
  | barrierWait {fr} : st.pc = .awaitAllStarted fr → LocalStep cfg M p st none (st, [])
  | barrierEnd {fr} : st.pc = .awaitAllStarted fr →
      ipcReceiveAllNext cfg.numChildren p fr = none →
      LocalStep cfg M p st none ({ st with pc := .iteration 1 }, [])
  | request {i l out} : st.pc = .iteration i → i ≤ 5 * p →
      M.requestCs cfg p st.locals = some (l, out) →
      LocalStep cfg M p st none (st.at_ (.requestCs i) l, out)
  | finish {i} : st.pc = .iteration i → 5 * p < i →
      LocalStep cfg M p st none (childSendDone cfg true p st)
  | served {i q m verdict l out} : st.pc = .requestCs i →
      M.requestCsTake cfg p st.locals q m = some (verdict, l, out) →
      verdict ≠ .nonCsMessageReceived →
      LocalStep cfg M p st (some (q, m)) (st.at_ (verdict.pc i) l, out)
  | doneServed {i q m l out l' out'} : st.pc = .requestCs i →
      M.requestCsTake cfg p st.locals q m = some (.nonCsMessageReceived, l, out) →
      m.type = .done → M.requestCs cfg p l = some (l', out') →
      LocalStep cfg M p st (some (q, m))
        ({ st.at_ (.requestCs i) l' with awaitingChildren := st.awaitingChildren - 1 }, out')
  | idle {i verdict l out} : st.pc = .requestCs i →
      M.requestCsEmpty cfg p st.locals = some (verdict, l, out) →
      LocalStep cfg M p st none (st.at_ (verdict.pc i) l, out)
  | release {i l out} : st.pc = .criticalSection i →
      M.releaseCs cfg p st.locals = some (l, out) →
      LocalStep cfg M p st none (st.at_ (.iteration (i + 1)) l, out)
  | handled {q m verdict l out} : st.pc = .handleCsRequests →
      M.handleCsRequests cfg p st.locals q m = some (verdict, l, out) →
      verdict ≠ .nonCsMessageReceived →
      LocalStep cfg M p st (some (q, m)) (st.at_ .handleCsRequests l, out)
  | doneHandled {q m l out} : st.pc = .handleCsRequests →
      M.handleCsRequests cfg p st.locals q m = some (.nonCsMessageReceived, l, out) →
      m.type = .done →
      LocalStep cfg M p st (some (q, m))
        ({ st.at_ (finalLoop (st.awaitingChildren - 1)) l with
            awaitingChildren := st.awaitingChildren - 1 }, [])
  | handleWait : st.pc = .handleCsRequests → LocalStep cfg M p st none (st, [])

/-- The ways in which a step of child `p` ends the process. -/
inductive Fails (cfg : Config) (M : MutexCode μ) (p : Nat) (st : Process μ) :
    Option (Nat × Message) → Prop
  | barrier {fr q m} : st.pc = .awaitAllStarted fr →
      ipcReceiveAllNext cfg.numChildren p fr = some q → m.type ≠ .started →
      Fails cfg M p st (some (q, m))
  | requestCs {i} : st.pc = .iteration i → M.requestCs cfg p st.locals = none →
      Fails cfg M p st none
  | take {i q m} : st.pc = .requestCs i → M.requestCsTake cfg p st.locals q m = none →
      Fails cfg M p st (some (q, m))
  | takeUnexpected {i q m l out} : st.pc = .requestCs i →
      M.requestCsTake cfg p st.locals q m = some (.nonCsMessageReceived, l, out) →
      m.type ≠ .done → Fails cfg M p st (some (q, m))
  | retry {i q m l out} : st.pc = .requestCs i →
      M.requestCsTake cfg p st.locals q m = some (.nonCsMessageReceived, l, out) →
      m.type = .done → M.requestCs cfg p l = none → Fails cfg M p st (some (q, m))
  | empty {i} : st.pc = .requestCs i → M.requestCsEmpty cfg p st.locals = none →
      Fails cfg M p st none
  | release {i} : st.pc = .criticalSection i → M.releaseCs cfg p st.locals = none →
      Fails cfg M p st none
  | handle {q m} : st.pc = .handleCsRequests → M.handleCsRequests cfg p st.locals q m = none →
      Fails cfg M p st (some (q, m))
  | handleUnexpected {q m l out} : st.pc = .handleCsRequests →
      M.handleCsRequests cfg p st.locals q m = some (.nonCsMessageReceived, l, out) →
      m.type ≠ .done → Fails cfg M p st (some (q, m))

/-- The message taken, if any, is the head of a channel from another process. -/
def Ready (cfg : Config) (v : ProcessView μ) (p : Nat) : Option (Nat × Message) → Prop
  | none => True
  | some (q, m) => q ≤ cfg.numChildren ∧ q ≠ p ∧ ∃ rest, v.chan q p = m :: rest

section Inversion

variable {cfg : Config} {M : MutexCode μ} {p : Nat} {st : Process μ}

theorem requestCsLoop_cases {i q : Nat} {m : Message} (pc : st.pc = .requestCs i) :
    LocalStep cfg M p st (some (q, m)) (requestCsLoop cfg M p i st q m) ∨
      Fails cfg M p st (some (q, m)) := by
  unfold requestCsLoop
  split
  next taken => exact .inl (.served pc taken (by simp))
  next taken => exact .inl (.served pc taken (by simp))
  next l out taken =>
    split
    next isDone =>
      unfold callRequestCs
      split
      next retried => exact .inl (.doneServed pc taken isDone retried)
      next failed => exact .inr (.retry pc taken isDone failed)
    next unexpected => exact .inr (.takeUnexpected pc taken unexpected)
  next failed => exact .inr (.take pc failed)

theorem requestCsIdle_cases {i : Nat} (pc : st.pc = .requestCs i) :
    LocalStep cfg M p st none (requestCsIdle cfg M p i st) ∨ Fails cfg M p st none := by
  unfold requestCsIdle
  split
  next found => exact .inl (.idle pc found)
  next verdict l out other found =>
    have same : verdict.pc i = .requestCs i := by cases verdict <;> simp_all [Verdict.pc]
    exact .inl (same ▸ .idle pc found)
  next failed => exact .inr (.empty pc failed)

theorem handleCsLoop_cases {q : Nat} {m : Message} (pc : st.pc = .handleCsRequests) :
    LocalStep cfg M p st (some (q, m)) (handleCsLoop cfg M p st q m) ∨
      Fails cfg M p st (some (q, m)) := by
  unfold handleCsLoop
  split
  next taken =>
    split
    next isDone => exact .inl (.doneHandled pc taken isDone)
    next unexpected => exact .inr (.handleUnexpected pc taken unexpected)
  next other taken => exact .inl (.handled pc taken other)
  next failed => exact .inr (.handle pc failed)

theorem childEntry_act {next : Next Nat (Process μ) Message}
    (code : childEntry cfg M true p st = .act next) :
    LocalStep cfg M p st none next ∨ Fails cfg M p st none := by
  simp only [childEntry] at code
  split at code
  next pc =>
    cases code
    exact .inl (.syncStarted pc)
  next fr pc =>
    split at code
    next => cases code
    next last =>
      cases code
      exact .inl (.barrierEnd pc last)
  next i pc =>
    cases code
    by_cases more : i ≤ 5 * p
    · simp only [more, if_true, callRequestCs]
      split
      next requested => exact .inl (.request pc more requested)
      next failed => exact .inr (.requestCs pc failed)
    · simp only [more, if_false]
      exact .inl (.finish pc (by omega))
  next => cases code
  next i pc =>
    cases code
    split
    next released => exact .inl (.release pc released)
    next failed => exact .inr (.release pc failed)
  all_goals cases code

theorem childEntry_poll {sources : List Nat}
    {onMessage : Nat → Message → Next Nat (Process μ) Message}
    {onEmpty : Next Nat (Process μ) Message}
    (code : childEntry cfg M true p st = .poll sources onMessage onEmpty) :
    sources = otherProcesses cfg.numChildren p ∧
      (∀ q m, LocalStep cfg M p st (some (q, m)) (onMessage q m) ∨
        Fails cfg M p st (some (q, m))) ∧
      (LocalStep cfg M p st none onEmpty ∨ Fails cfg M p st none) := by
  simp only [childEntry] at code
  split at code
  next => cases code
  next => split at code <;> cases code
  next => cases code
  next i pc =>
    cases code
    exact ⟨rfl, fun q m => requestCsLoop_cases pc, requestCsIdle_cases pc⟩
  next => cases code
  next pc =>
    cases code
    exact ⟨rfl, fun q m => handleCsLoop_cases pc, .inl (.handleWait pc)⟩
  all_goals cases code

theorem childEntry_receive {q : Nat} {onMessage : Message → Next Nat (Process μ) Message}
    {onEmpty : Next Nat (Process μ) Message}
    (code : childEntry cfg M true p st = .receive q onMessage onEmpty) :
    (q ≤ cfg.numChildren ∧ q ≠ p) ∧
      (∀ m, LocalStep cfg M p st (some (q, m)) (onMessage m) ∨ Fails cfg M p st (some (q, m))) ∧
      (LocalStep cfg M p st none onEmpty ∨ Fails cfg M p st none) := by
  simp only [childEntry] at code
  split at code
  next => cases code
  next fr pc =>
    split at code
    next next_ =>
      cases code
      obtain ⟨-, le, ne, -⟩ := ipcReceiveAllNext_eq_some next_
      refine ⟨⟨le, ne⟩, fun m => ?_, .inl (.barrierWait pc)⟩
      unfold ipcExtReceive
      split
      next expected => exact .inl (.barrier pc next_ expected)
      next unexpected => exact .inr (.barrier pc next_ unexpected)
    next => cases code
  all_goals cases code

/-- The parent sends nothing. -/
theorem parentEntry_silent (p : Nat) (st : Process μ) : (parentEntry cfg p st).Silent := by
  have received (type : MessageType) (pc : Pc) (m : Message) :
      (ipcExtReceive st type pc m).2 = [] := by
    unfold ipcExtReceive Process.panic
    split <;> rfl
  simp only [parentEntry]
  split
  next =>
    split
    next => exact ⟨received _ _, rfl⟩
    next => rfl
  next =>
    split
    next => exact ⟨received _ _, rfl⟩
    next => rfl
  next => trivial

end Inversion

/-- What a step of the parent leaves alone. -/
structure ParentFrame (v v' : ProcessView μ) : Prop where
  loc : ∀ p, p ≠ parentId → v'.loc p = v.loc p
  chan : ∀ a b, b ≠ parentId → v'.chan a b = v.chan a b

theorem ParentFrame.become {v : ProcessView μ} {next : Next Nat (Process μ) Message}
    (silent : next.2 = []) : ParentFrame v (v.become parentId next) where
  loc p ne := by simp [View.become, ne]
  chan a b _ := by simp [View.become, silent]

theorem ParentFrame.pop (v : ProcessView μ) (q : Nat) : ParentFrame v (v.pop q parentId) where
  loc _ _ := rfl
  chan _ _ ne := Channels.pop_ne _ (fun h => ne h.2)

theorem ParentFrame.trans {u v w : ProcessView μ} (h : ParentFrame u v) (k : ParentFrame v w) :
    ParentFrame u w where
  loc p ne := (k.loc p ne).trans (h.loc p ne)
  chan a b ne := (k.chan a b ne).trans (h.chan a b ne)

theorem parent_move {cfg : Config} {M : MutexCode μ} {v v' : ProcessView μ}
    {e : Event Nat Message} (h : Move (spawnChildren cfg M true) v e v')
    (parent : e.actor = parentId) : ParentFrame v v' := by
  have silent {a} (code : spawnChildren cfg M true parentId (v.loc parentId) = a) : a.Silent :=
    code ▸ @parentEntry_silent _ cfg parentId (v.loc parentId)
  cases h with
  | act code =>
    obtain rfl : _ = parentId := parent
    exact .become (silent code)
  | @poll _ q m _ _ _ _ code =>
    obtain rfl : _ = parentId := parent
    exact (ParentFrame.pop v q).trans (.become ((silent code).1 q m))
  | pollEmpty code =>
    obtain rfl : _ = parentId := parent
    exact .become (silent code).2
  | @receive _ q m _ _ _ code =>
    obtain rfl : _ = parentId := parent
    exact (ParentFrame.pop v q).trans (.become ((silent code).1 m))
  | receiveEmpty code =>
    obtain rfl : _ = parentId := parent
    exact .become (silent code).2

/-- A process other than the parent that has something to do is a child. -/
theorem child_code {cfg : Config} {M : MutexCode μ} {p : Nat} {st : Process μ}
    {a : Action Nat (Process μ) Message} (child : p ≠ parentId)
    (code : spawnChildren cfg M true p st = a) (running : a ≠ .stop) :
    IsChild cfg.numChildren p ∧ childEntry cfg M true p st = a := by
  simp only [spawnChildren, child, if_false] at code
  split at code
  next le => exact ⟨⟨Nat.pos_of_ne_zero child, le⟩, code⟩
  next => exact absurd code.symm running

theorem child_move {cfg : Config} {M : MutexCode μ} {v v' : ProcessView μ}
    {e : Event Nat Message} (h : Move (spawnChildren cfg M true) v e v')
    (child : e.actor ≠ parentId) :
    IsChild cfg.numChildren e.actor ∧ Ready cfg v e.actor e.input ∧
      ((∃ next, LocalStep cfg M e.actor (v.loc e.actor) e.input next ∧
          v' = (v.consume e.actor e.input).become e.actor next) ∨
        Fails cfg M e.actor (v.loc e.actor) e.input) := by
  cases h with
  | act code =>
    obtain ⟨isChild, code⟩ := child_code child code (by simp)
    exact ⟨isChild, trivial, (childEntry_act code).imp (fun step => ⟨_, step, rfl⟩) id⟩
  | @poll _ q m rest _ _ _ code mem head =>
    obtain ⟨isChild, code⟩ := child_code child code (by simp)
    obtain ⟨rfl, taken, -⟩ := childEntry_poll code
    obtain ⟨le, ne⟩ := mem_otherProcesses.mp mem
    exact ⟨isChild, ⟨le, ne, rest, head⟩, (taken q m).imp (fun step => ⟨_, step, rfl⟩) id⟩
  | pollEmpty code =>
    obtain ⟨isChild, code⟩ := child_code child code (by simp)
    obtain ⟨-, -, empty⟩ := childEntry_poll code
    exact ⟨isChild, trivial, empty.imp (fun step => ⟨_, step, rfl⟩) id⟩
  | @receive _ q m rest _ _ code head =>
    obtain ⟨isChild, code⟩ := child_code child code (by simp)
    obtain ⟨⟨le, ne⟩, taken, -⟩ := childEntry_receive code
    exact ⟨isChild, ⟨le, ne, rest, head⟩, (taken m).imp (fun step => ⟨_, step, rfl⟩) id⟩
  | receiveEmpty code =>
    obtain ⟨isChild, code⟩ := child_code child code (by simp)
    obtain ⟨-, -, empty⟩ := childEntry_receive code
    exact ⟨isChild, trivial, empty.imp (fun step => ⟨_, step, rfl⟩) id⟩

end Distra
