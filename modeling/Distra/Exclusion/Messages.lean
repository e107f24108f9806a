import Mathlib.Data.List.Basic

/-!
# Messages of the exclusion algorithms

Requests, replies and releases with the time of their sender.
-/

namespace Distra.Exclusion

inductive Msg where
  | request (t : ℕ)
  | reply (t : ℕ)
  | release (t : ℕ)
  deriving DecidableEq

def Msg.time : Msg → ℕ
  | .request t | .reply t | .release t => t

@[simp] theorem Msg.time_request (t : ℕ) : (request t).time = t := rfl
@[simp] theorem Msg.time_reply (t : ℕ) : (reply t).time = t := rfl
@[simp] theorem Msg.time_release (t : ℕ) : (release t).time = t := rfl

def Msg.isRequest : Msg → Bool
  | .request _ => true
  | _ => false

def Msg.isReply : Msg → Bool
  | .reply _ => true
  | _ => false

def requests (l : List Msg) : ℕ := l.countP Msg.isRequest

def replies (l : List Msg) : ℕ := l.countP Msg.isReply

section Counts

variable (l l' : List Msg) (t : ℕ)

@[simp] theorem requests_nil : requests [] = 0 := rfl
@[simp] theorem replies_nil : replies [] = 0 := rfl
@[simp] theorem requests_append : requests (l ++ l') = requests l + requests l' :=
  List.countP_append
@[simp] theorem replies_append : replies (l ++ l') = replies l + replies l' := List.countP_append
@[simp] theorem requests_request : requests (.request t :: l) = requests l + 1 :=
  List.countP_cons_of_pos rfl
@[simp] theorem requests_reply : requests (.reply t :: l) = requests l :=
  List.countP_cons_of_neg Bool.false_ne_true
@[simp] theorem requests_release : requests (.release t :: l) = requests l :=
  List.countP_cons_of_neg Bool.false_ne_true
@[simp] theorem replies_request : replies (.request t :: l) = replies l :=
  List.countP_cons_of_neg Bool.false_ne_true
@[simp] theorem replies_reply : replies (.reply t :: l) = replies l + 1 :=
  List.countP_cons_of_pos rfl
@[simp] theorem replies_release : replies (.release t :: l) = replies l :=
  List.countP_cons_of_neg Bool.false_ne_true

variable {l t}

theorem request_notMem (h : requests l = 0) : .request t ∉ l := by
  intro mem
  have := List.countP_eq_zero.mp h _ mem
  simp [Msg.isRequest] at this

theorem reply_notMem (h : replies l = 0) : .reply t ∉ l := by
  intro mem
  have := List.countP_eq_zero.mp h _ mem
  simp [Msg.isReply] at this

end Counts

/-- The same message to every other process. -/
def toPeers {P : Type*} [DecidableEq P] (p : P) (m : Msg) : P → List Msg :=
  fun q => if q = p then [] else [m]

/-- A message to `q` alone. -/
def only {P : Type*} [DecidableEq P] (q : P) (m : Msg) : P → List Msg :=
  fun r => if r = q then [m] else []

end Distra.Exclusion
