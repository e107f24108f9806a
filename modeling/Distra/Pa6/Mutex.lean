import Distra.Pa4.Child

/-!
# `pa6/mutex.c`

The dining philosophers. Every two children share a fork and a token for asking for it. The fork
is at one of them or in a `CS_REPLY`, the token at one of them or in a `CS_REQUEST`.
-/

namespace Distra.Pa6

open Network

/-- `MutexState`. -/
structure Mux where
  hasFork : Nat → Bool
  forkDirty : Nat → Bool
  hasRequest : Nat → Bool

abbrev Locals := Local Mux

def mutexInit (cfg : Config) (self : Nat) : Mux where
  hasFork c := decide ((1 ≤ c ∧ c ≤ cfg.numChildren) ∧ c < self)
  forkDirty c := decide ((1 ≤ c ∧ c ≤ cfg.numChildren) ∧ c < self)
  hasRequest c := decide ((1 ≤ c ∧ c ≤ cfg.numChildren) ∧ c > self)

def requestFork (l : Locals) (fr : Nat) : Option (Locals × Sends) :=
  if l.mux.hasRequest fr then
    let time := advanceLamportTime l.lamportTime
    some (⟨{ l.mux with hasRequest := Function.update l.mux.hasRequest fr false }, time⟩,
      [(fr, ⟨.csRequest, time⟩)])
  else none

def giveUpFork (l : Locals) (dst : Nat) : Option (Locals × Sends) :=
  if l.mux.hasFork dst then
    let time := advanceLamportTime l.lamportTime
    some (⟨{ l.mux with hasFork := Function.update l.mux.hasFork dst false }, time⟩,
      [(dst, ⟨.csReply, time⟩)])
  else none

/-- The loop at the top of a round of `request_cs`, over the children that are left. -/
def requestForks (self : Nat) : List Nat → Locals → Option (Locals × Sends)
  | [], l => some (l, [])
  | c :: rest, l =>
    if c = self then requestForks self rest l
    else if !l.mux.hasFork c && l.mux.hasRequest c then do
      let (l, out) ← requestFork l c
      let (l, out') ← requestForks self rest l
      return (l, out ++ out')
    else requestForks self rest l

def requestCs (cfg : Config) (self : Nat) (l : Locals) : Option (Locals × Sends) :=
  requestForks self (List.range' 1 cfg.numChildren) l

/-- `can_enter_cs` as the loop at the end of a round leaves it. -/
def canEnterCs (cfg : Config) (self : Nat) (mux : Mux) : Bool :=
  (List.range' 1 cfg.numChildren).all fun c =>
    c == self || !(!mux.hasFork c || (mux.forkDirty c && mux.hasRequest c))

/-- The end of a round of `request_cs`, and the top of the next one. -/
def endRound (cfg : Config) (self : Nat) (l : Locals) (out : Sends) :
    Option (Verdict × Locals × Sends) :=
  if canEnterCs cfg self l.mux then some (.entered, l, out)
  else do
    let (l, out') ← requestCs cfg self l
    return (.waits, l, out ++ out')

def requestCsTake (cfg : Config) (self : Nat) (l : Locals) (fr : Nat) (m : Message) :
    Option (Verdict × Locals × Sends) :=
  let l := { l with lamportTime := synchronizeTime m.localTime l.lamportTime }
  match m.type with
  | .csReply =>
    let mux := { l.mux with
      hasFork := Function.update l.mux.hasFork fr true
      forkDirty := Function.update l.mux.forkDirty fr false }
    endRound cfg self { l with mux := mux } []
  | .csRequest =>
    let mux := { l.mux with hasRequest := Function.update l.mux.hasRequest fr true }
    let l := { l with mux := mux }
    if mux.hasFork fr && mux.forkDirty fr then do
      let (l, out) ← giveUpFork l fr
      endRound cfg self l out
    else endRound cfg self l []
  | _ => some (.nonCsMessageReceived, l, [])

def requestCsEmpty (cfg : Config) (self : Nat) (l : Locals) : Option (Verdict × Locals × Sends) :=
  endRound cfg self l []

/-- The loop of `release_cs` over the children that are left. -/
def releaseForks (self : Nat) : List Nat → Locals → Option (Locals × Sends)
  | [], l => some (l, [])
  | c :: rest, l =>
    if c = self then releaseForks self rest l
    else
      let mux := { l.mux with forkDirty := Function.update l.mux.forkDirty c true }
      let l := { l with mux := mux }
      if mux.hasRequest c then do
        let (l, out) ← giveUpFork l c
        let (l, out') ← releaseForks self rest l
        return (l, out ++ out')
      else releaseForks self rest l

def releaseCs (cfg : Config) (self : Nat) (l : Locals) : Option (Locals × Sends) :=
  releaseForks self (List.range' 1 cfg.numChildren) l

def handleCsRequests (_ : Config) (_ : Nat) (l : Locals) (fr : Nat) (m : Message) :
    Option (Verdict × Locals × Sends) :=
  let l := { l with lamportTime := synchronizeTime m.localTime l.lamportTime }
  match m.type with
  | .csRequest => do
    let (l, out) ← giveUpFork l fr
    return (.waits, l, out)
  | _ => some (.nonCsMessageReceived, l, [])

def mutex : MutexCode Mux :=
  { mutexInit, requestCs, requestCsTake, requestCsEmpty, releaseCs, handleCsRequests }

end Distra.Pa6
