import Distra.Pa4.Child
import Distra.Pa4.RequestQueue

/-!
# `pa4/mutex.c`

Lamport's mutual exclusion. A child enters when every other child has replied and its own request
comes first in its queue.
-/

namespace Distra.Pa4

open Network RequestQueue

/-- `struct Mutex`, without the fields that never change. -/
structure Mux where
  queue : RequestQueue
  lastRequestReplyCount : Nat

abbrev Locals := Local Mux

def mutexInit (_ : Config) (_ : Nat) : Mux := ⟨zeroed, 0⟩

def requestCs (cfg : Config) (self : Nat) (l : Locals) : Option (Locals × Sends) := do
  let time := advanceLamportTime l.lamportTime
  if queueContains l.mux.queue self then
    return ({ l with lamportTime := time }, [])
  else
    let queue ← enqueueRequest l.mux.queue self time
    return (⟨{ l.mux with queue := queue }, time⟩,
      ipcMulticastToChildren cfg.numChildren self ⟨.csRequest, time⟩)

/-- The test at the end of a round of `request_cs`, and what follows the loop. -/
def entryTest (cfg : Config) (self : Nat) (l : Locals) (out : Sends) :
    Verdict × Locals × Sends :=
  enterIf
    (l.mux.lastRequestReplyCount = cfg.numChildren - 1 ∧
      topEnqueuedRequest cfg.maxChildren l.mux.queue = self)
    (fun mux => { mux with lastRequestReplyCount := 0 }) l out

/-- The answer to a `CS_REQUEST`, the same in `request_cs` and `handle_cs_requests`. -/
def answerRequest (l : Locals) (fr requestTime : Nat) : Option (Locals × Sends) := do
  let queue ← enqueueRequest l.mux.queue fr requestTime
  let time := advanceLamportTime l.lamportTime
  return (⟨{ l.mux with queue := queue }, time⟩, [(fr, ⟨.csReply, time⟩)])

def requestCsTake (cfg : Config) (self : Nat) (l : Locals) (fr : Nat) (m : Message) :
    Option (Verdict × Locals × Sends) := do
  let l := { l with lamportTime := synchronizeTime m.localTime l.lamportTime }
  match m.type with
  | .csReply =>
    let count := l.mux.lastRequestReplyCount + 1
    return entryTest cfg self { l with mux := { l.mux with lastRequestReplyCount := count } } []
  | .csRequest =>
    let (l, out) ← answerRequest l fr m.localTime
    return entryTest cfg self l out
  | .csRelease =>
    let queue ← releaseRequest l.mux.queue fr
    return entryTest cfg self { l with mux := { l.mux with queue := queue } } []
  | _ => return (.nonCsMessageReceived, l, [])

def requestCsEmpty (_ : Config) (_ : Nat) (l : Locals) : Option (Verdict × Locals × Sends) :=
  pollAgain l

def releaseCs (cfg : Config) (self : Nat) (l : Locals) : Option (Locals × Sends) := do
  let queue ← releaseRequest l.mux.queue self
  let time := advanceLamportTime l.lamportTime
  return (⟨{ l.mux with queue := queue }, time⟩,
    ipcMulticastToChildren cfg.numChildren self ⟨.csRelease, time⟩)

def handleCsRequests (_ : Config) (_ : Nat) (l : Locals) (fr : Nat) (m : Message) :
    Option (Verdict × Locals × Sends) := do
  let l := { l with lamportTime := synchronizeTime m.localTime l.lamportTime }
  match m.type with
  | .csRequest =>
    let (l, out) ← answerRequest l fr m.localTime
    return (.waits, l, out)
  | .csRelease =>
    let queue ← releaseRequest l.mux.queue fr
    return (.waits, { l with mux := { l.mux with queue := queue } }, [])
  | _ => return (.nonCsMessageReceived, l, [])

def mutex : MutexCode Mux :=
  { mutexInit, requestCs, requestCsTake, requestCsEmpty, releaseCs, handleCsRequests }

end Distra.Pa4
