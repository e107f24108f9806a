import Distra.Pa4.Child
import Distra.Pa4.RequestQueue

/-!
# `pa5/mutex.c`

Ricart and Agrawala's mutual exclusion. A child that waits with a smaller request puts off its
reply, and sends it when it leaves the critical section. Its own slot of the queue holds its
request, the other slots those it has not answered.
-/

namespace Distra.Pa5

open Network RequestQueue

/-- `struct Mutex`, without the fields that never change. -/
structure Mux where
  queue : RequestQueue
  lastRequestReplyCount : Nat

abbrev Locals := Local Mux

def mutexInit (_ : Config) (_ : Nat) : Mux := ⟨zeroed, 0⟩

/-- `enqueue_own_request`. The time that it returns is the one in the queue from then on. -/
def enqueueOwnRequest (cfg : Config) (self : Nat) (l : Locals) : Option (Locals × Sends) := do
  if queueContains l.mux.queue self then
    return (l, [])
  else
    let time := advanceLamportTime l.lamportTime
    let queue ← enqueueRequest l.mux.queue self time
    return (⟨{ l.mux with queue := queue }, time⟩,
      ipcMulticastToChildren cfg.numChildren self ⟨.csRequest, time⟩)

def requestCs (cfg : Config) (self : Nat) (l : Locals) : Option (Locals × Sends) :=
  enqueueOwnRequest cfg self l

/-- The test at the end of a round of `request_cs`, and what follows the loop. -/
def entryTest (cfg : Config) (l : Locals) (out : Sends) : Verdict × Locals × Sends :=
  enterIf (l.mux.lastRequestReplyCount = cfg.numChildren - 1)
    (fun mux => { mux with lastRequestReplyCount := 0 }) l out

/-- `CS_REPLY` with the next clock value. -/
def reply (l : Locals) (fr : Nat) : Locals × Sends :=
  let time := advanceLamportTime l.lamportTime
  ({ l with lamportTime := time }, [(fr, ⟨.csReply, time⟩)])

def requestCsTake (cfg : Config) (self : Nat) (l : Locals) (fr : Nat) (m : Message) :
    Option (Verdict × Locals × Sends) := do
  let ownRequestTime := queueLookup l.mux.queue self
  let l := { l with lamportTime := synchronizeTime m.localTime l.lamportTime }
  match m.type with
  | .csReply =>
    let count := l.mux.lastRequestReplyCount + 1
    return entryTest cfg { l with mux := { l.mux with lastRequestReplyCount := count } } []
  | .csRequest =>
    let requestTime := m.localTime
    if ownRequestTime < requestTime ∨ ownRequestTime = requestTime ∧ self < fr then
      let queue ← enqueueRequest l.mux.queue fr requestTime
      return entryTest cfg { l with mux := { l.mux with queue := queue } } []
    else
      let (l, out) := reply l fr
      return entryTest cfg l out
  | _ => return (.nonCsMessageReceived, l, [])

def requestCsEmpty (_ : Config) (_ : Nat) (l : Locals) : Option (Verdict × Locals × Sends) :=
  pollAgain l

/-- The loop of `release_cs` over the children that are left. -/
def answerDeferred : List Nat → Locals → Option (Locals × Sends)
  | [], l => some (l, [])
  | fr :: rest, l =>
    if queueContains l.mux.queue fr then do
      let queue ← releaseRequest l.mux.queue fr
      let (l, out) := reply { l with mux := { l.mux with queue := queue } } fr
      let (l, out') ← answerDeferred rest l
      return (l, out ++ out')
    else answerDeferred rest l

def releaseCs (cfg : Config) (self : Nat) (l : Locals) : Option (Locals × Sends) := do
  let queue ← releaseRequest l.mux.queue self
  answerDeferred (List.range' 1 cfg.numChildren) { l with mux := { l.mux with queue := queue } }

def handleCsRequests (_ : Config) (_ : Nat) (l : Locals) (fr : Nat) (m : Message) :
    Option (Verdict × Locals × Sends) :=
  let l := { l with lamportTime := synchronizeTime m.localTime l.lamportTime }
  match m.type with
  | .csRequest =>
    let (l, out) := reply l fr
    some (.waits, l, out)
  | _ => some (.nonCsMessageReceived, l, [])

def mutex : MutexCode Mux :=
  { mutexInit, requestCs, requestCsTake, requestCsEmpty, releaseCs, handleCsRequests }

end Distra.Pa5
