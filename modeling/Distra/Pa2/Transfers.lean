import Distra.Accounts.Transit
import Distra.Pa2.Processes
import Distra.Pa23.Restored
import Mathlib.Data.BitVec

/-!
# Transfers of `pa2`

To the parent a transfer takes place at once. The balances are those after the transfers that have
returned, apart from what the one under way has changed so far (`Flight.applied`).
-/

namespace Distra.Pa2

open Network Pa23 Accounts

variable {cfg : BankConfig} {physical : Physical}

theorem bank_drops (physical : Physical) : (bank physical).Drops := fun _ _ _ => ⟨_, rfl⟩

/-! ## Balances -/

/-- The balance of child `c` after a transfer. -/
def settle (order : TransferOrder) (c : Nat) (balance : Balance) : Balance :=
  Transfer.settle ⟨order.src, order.dst, order.amount⟩ c balance

/-- The balance of child `c` after some transfers, one after another. -/
def settleAll (orders : List TransferOrder) (c : Nat) (balance : Balance) : Balance :=
  orders.foldl (fun balance order => settle order c balance) balance

theorem settleAll_snoc (orders : List TransferOrder) (order : TransferOrder) (c : Nat)
    (balance : Balance) :
    settleAll (orders ++ [order]) c balance = settle order c (settleAll orders c balance) := by
  simp [settleAll]

/-- What the transfer under way has changed at child `c`. -/
def Flight.applied (c : Nat) (balance : Balance) : Flight → Balance
  | .none | .toSrc _ => balance
  | .toDst order => if c = order.src then balance - order.amount else balance
  | .ack order => settle order c balance

/-- The transfers that have not returned. -/
def Pc.left (orders : List TransferOrder) : Pc → List TransferOrder
  | .awaitAllStarted _ => orders
  | .bankRobbery rest => rest
  | .awaitAck order rest => order :: rest
  | _ => []

/-- The balances are those after the transfers that have returned and what is done of the one under
way. -/
def Moved (cfg : BankConfig) (v : BankView Locals) (flight : Flight) : Prop :=
  ∃ returned, cfg.orders = returned ++ Pc.left cfg.orders (v.loc parentId).pc ∧
    ∀ c, IsChild cfg.numChildren c →
      (v.loc c).data.balance = Flight.applied c (settleAll returned c (cfg.startBalances c)) flight

section Keep

variable {v : BankView Locals} {flight flight' : Flight} {p : Nat}
  {input : Option (Nat × BankMessage)} {next : ProcessNext Locals}

theorem moved_initial : Moved cfg (initialState cfg (bank physical)).view .none :=
  ⟨[], rfl, fun _ _ => rfl⟩

/-- A step that returns from no transfer and changes no balance. -/
theorem Moved.same (h : Moved cfg v flight)
    (left : p = parentId → Pc.left cfg.orders next.1.pc = Pc.left cfg.orders (v.loc p).pc)
    (balance : p ≠ parentId → next.1.data.balance = (v.loc p).data.balance)
    (applied : ∀ c balance, Flight.applied c balance flight' = Flight.applied c balance flight) :
    Moved cfg ((v.consume p input).become p next) flight' := by
  obtain ⟨returned, split_, balances⟩ := h
  refine ⟨returned, ?_, fun c child => ?_⟩
  · rw [View.consume_become_loc]
    split
    next parent => rw [left parent.symm, ← parent, ← split_]
    next => exact split_
  · rw [View.consume_become_loc, applied, ← balances c child]
    split
    next own =>
      subst own
      exact balance child.ne_parent
    next => rfl

/-- A step of child `p` that changes its balance. -/
theorem Moved.change (h : Moved cfg v flight) (child : p ≠ parentId)
    (own : ∀ balance, Flight.applied p balance flight = (v.loc p).data.balance →
      next.1.data.balance = Flight.applied p balance flight')
    (others : ∀ c balance, c ≠ p →
      Flight.applied c balance flight' = Flight.applied c balance flight) :
    Moved cfg ((v.consume p input).become p next) flight' := by
  obtain ⟨returned, split_, balances⟩ := h
  refine ⟨returned, ?_, fun c c_child => ?_⟩
  · rw [View.consume_become_loc, if_neg child.symm]
    exact split_
  · rw [View.consume_become_loc]
    split
    next same =>
      subst same
      exact own _ (balances c c_child).symm
    next other => rw [others c _ other, balances c c_child]

/-- A transfer returns. -/
theorem Moved.returns {order : TransferOrder} {orders : List TransferOrder}
    (h : Moved cfg v (.ack order)) (pc : (v.loc parentId).pc = .awaitAck order orders)
    (pc' : next.1.pc = .bankRobbery orders) :
    Moved cfg ((v.consume parentId input).become parentId next) .none := by
  obtain ⟨returned, split_, balances⟩ := h
  rw [pc, Pc.left] at split_
  refine ⟨returned ++ [order], ?_, fun c child => ?_⟩
  · rw [View.consume_become_loc, if_pos rfl, pc', Pc.left, List.append_assoc]
    exact split_
  · rw [View.consume_become_loc, if_neg child.ne_parent, settleAll_snoc]
    exact balances c child

theorem childLoop_src_balance {l : Locals} {order : TransferOrder} {t : Nat}
    (src : order.src = p) :
    (childLoop physical p l ⟨.transfer order, t⟩).2.1.balance = l.balance - order.amount := by
  simp only [childLoop, if_pos src]

theorem childLoop_dst_balance {l : Locals} {order : TransferOrder} {t : Nat}
    (src : order.src ≠ p) (dst : order.dst = p) :
    (childLoop physical p l ⟨.transfer order, t⟩).2.1.balance = l.balance + order.amount := by
  simp only [childLoop, if_neg src, if_pos dst]

theorem Moved.shaped (h : Moved cfg v flight)
    (valid : ∀ order, flight = .toSrc order ∨ flight = .toDst order ∨ flight = .ack order →
      order.Valid cfg.numChildren)
    (step : Shaped cfg (bank physical) p (v.loc p) flight input next flight') :
    Moved cfg ((v.consume p input).become p next) flight' := by
  cases step with
  | childSyncStarted child | childStarted child | looked child | childSyncDone child
  | childDone child =>
    exact h.same (fun parent => absurd parent child) (fun _ => rfl) (fun _ _ => rfl)
  | started pc | done pc =>
    refine h.same (fun _ => ?_) (fun _ => rfl) (fun _ _ => rfl)
    rw [pc]
    rfl
  | parentStarted parent pc | depart parent pc | sendStop parent pc | parentDone parent pc
  | history parent pc | printHistory parent pc =>
    refine h.same (fun _ => ?_) (fun child => absurd parent child) (fun _ _ => rfl)
    rw [pc]
    rfl
  | stop child => exact h.same (fun parent => absurd parent child) (fun _ => rfl) (fun _ _ => rfl)
  | @forward order t src pc =>
    obtain ⟨⟨src_child, -⟩, -⟩ := valid order (.inl rfl)
    refine h.change (src ▸ src_child.ne_parent) (fun balance own => ?_) (fun c balance ne => ?_)
    · rw [Flight.applied, if_pos src]
      have own : balance = (v.loc p).data.balance := own
      rw [own]
      exact childLoop_src_balance src.symm
    · exact if_neg (fun eq => ne (eq.trans src.symm))
  | @deliver order t dst distinct pc =>
    obtain ⟨⟨-, dst_child⟩, -⟩ := valid order (.inr (.inl rfl))
    have away : p ≠ order.src := distinct.symm
    refine h.change (dst ▸ dst_child.ne_parent) (fun balance own => ?_) (fun c balance ne => ?_)
    · rw [Flight.applied, if_neg away] at own
      have settled : Flight.applied p balance (.ack order) = balance + order.amount :=
        (if_neg away).trans (if_pos dst)
      rw [settled, own]
      exact childLoop_dst_balance distinct dst.symm
    · have other : c ≠ order.dst := fun eq => ne (eq.trans dst.symm)
      rw [Flight.applied, Flight.applied, settle, Transfer.settle, if_neg other]
  | @ack order orders t parent pc =>
    subst parent
    exact h.returns pc rfl
  | blocked => exact h.same (fun _ => rfl) (fun _ => rfl) (fun _ _ => rfl)

theorem Moved.followed (h : Moved cfg v flight)
    (valid : ∀ order, flight = .toSrc order ∨ flight = .toDst order ∨ flight = .ack order →
      order.Valid cfg.numChildren)
    (step : Followed cfg (bank physical) p (v.loc p) flight input next flight') :
    Moved cfg ((v.consume p input).become p next) flight' := by
  cases step with
  | shaped step => exact h.shaped valid step
  | dropped child =>
    exact h.same (fun parent => absurd parent child) (fun _ => rfl) (fun _ _ => rfl)

end Keep

/-! ## Money under way -/

/-- What a `TRANSFER` carries. -/
def amountOf (m : BankMessage) : Balance :=
  match m.body with
  | .transfer order => order.amount
  | _ => 0

def amountsIn (l : List BankMessage) : Balance := (l.map amountOf).sum

/-- The amounts of the `TRANSFER`s from one child to another. -/
def underWay (n : Nat) (chan : Channels Nat BankMessage) : Balance :=
  ∑ a ∈ Finset.Icc 1 n, ∑ b ∈ (Finset.Icc 1 n).erase a, amountsIn (chan a b)

theorem amountsIn_eq_zero {l : List BankMessage} (other : ∀ m ∈ l, m.body.type ≠ .transfer) :
    amountsIn l = 0 := by
  apply List.sum_eq_zero
  intro x mem
  obtain ⟨⟨body, t⟩, listed, rfl⟩ := List.mem_map.mp mem
  cases body with
  | transfer => exact absurd rfl (other _ listed)
  | _ => rfl

section Amounts

variable {v w : BankView Locals} {flight : Flight}

/-- What the channel from child `a` to child `b` carries. -/
def Flight.amount (a b : Nat) : Flight → Balance
  | .toDst order => if a = order.src ∧ b = order.dst then order.amount else 0
  | _ => 0

theorem amountsIn_shape (h : Shape cfg w flight) {a b : Nat} (child : IsChild cfg.numChildren a)
    (bchild : IsChild cfg.numChildren b) (ne : a ≠ b) :
    amountsIn (w.chan a b) = Flight.amount a b flight := by
  obtain ⟨l₁, l₂, parts, scripted, flying⟩ :=
    List.map_eq_append_iff.mp (h.fits a child.2 b bchild.2 ne).eq
  have still : amountsIn l₁ = 0 := by
    refine amountsIn_eq_zero fun m mem type => ?_
    have listed : m.body.type ∈ l₁.map (·.body.type) := List.mem_map_of_mem mem
    rw [scripted, type] at listed
    have := List.mem_of_mem_take (List.mem_of_mem_drop listed)
    rw [script, if_neg child.ne_parent, if_neg bchild.ne_parent] at this
    simp at this
  have silent (none_ : flight.types a b = []) : amountsIn (w.chan a b) = 0 := by
    rw [none_] at flying
    rw [parts, List.map_eq_nil_iff.mp flying, List.append_nil, still]
  cases flight with
  | none => exact silent rfl
  | toSrc order => exact silent (if_neg fun eq => child.ne_parent eq.1)
  | ack order => exact silent (if_neg fun eq => bchild.ne_parent eq.2)
  | toDst order =>
    rw [Flight.amount]
    by_cases here : a = order.src ∧ b = order.dst
    · rw [Flight.types, if_pos here] at flying
      obtain ⟨⟨body, t⟩, rfl, type⟩ := List.map_eq_singleton_iff.mp flying
      obtain ⟨other, rfl⟩ := Body.eq_transfer type
      have same : other = order := by
        refine h.orders a child.2 b bchild.2 ne ⟨.transfer other, t⟩ ?_ other order rfl rfl
        rw [parts]
        simp
      rw [if_pos here, parts, amountsIn, List.map_append, List.sum_append, ← amountsIn, still,
        same, zero_add]
      exact List.sum_singleton
    · rw [if_neg here]
      exact silent (if_neg here)

theorem amountsIn_restored (restored : Restored cfg v w) (a b : Nat) :
    amountsIn (v.chan a b) = amountsIn (w.chan a b) := by
  rcases restored.chan a b with same | ⟨-, -, -, empty, t, lost⟩
  · rw [same]
  · rw [empty, lost]
    rfl

theorem underWay_eq (restored : Restored cfg v w) (h : Shape cfg w flight) :
    underWay cfg.numChildren v.chan =
      ∑ a ∈ Finset.Icc 1 cfg.numChildren, ∑ b ∈ (Finset.Icc 1 cfg.numChildren).erase a,
        Flight.amount a b flight := by
  refine Finset.sum_congr rfl fun a ha => Finset.sum_congr rfl fun b hb => ?_
  obtain ⟨ne, hb⟩ := Finset.mem_erase.mp hb
  rw [amountsIn_restored restored]
  exact amountsIn_shape h (Finset.mem_Icc.mp ha) (Finset.mem_Icc.mp hb) ne.symm

/-- The whole amount of the transfer under way. -/
theorem sum_amount {n : Nat} {order : TransferOrder} (valid : order.Valid n) :
    ∑ a ∈ Finset.Icc 1 n, ∑ b ∈ (Finset.Icc 1 n).erase a, Flight.amount a b (.toDst order) =
      order.amount := by
  obtain ⟨⟨src, dst⟩, ne⟩ := valid
  have reached : order.dst ∈ (Finset.Icc 1 n).erase order.src :=
    Finset.mem_erase.mpr ⟨ne.symm, Finset.mem_Icc.mpr dst⟩
  rw [Finset.sum_eq_single order.src, Finset.sum_eq_single order.dst]
  · exact if_pos ⟨rfl, rfl⟩
  · exact fun b _ other => if_neg fun eq => other eq.2
  · exact fun missing => absurd reached missing
  · exact fun a _ other => Finset.sum_eq_zero fun b _ => if_neg fun eq => other eq.1
  · exact fun missing => absurd (Finset.mem_Icc.mpr src) missing

/-- The balances of all children together, but for the amount under way. -/
theorem sum_applied (start : Nat → Balance) {n : Nat}
    (valid : ∀ order, flight = .toSrc order ∨ flight = .toDst order ∨ flight = .ack order →
      order.Valid n) :
    ∑ c ∈ Finset.Icc 1 n, Flight.applied c (start c) flight +
        ∑ a ∈ Finset.Icc 1 n, ∑ b ∈ (Finset.Icc 1 n).erase a, Flight.amount a b flight =
      ∑ c ∈ Finset.Icc 1 n, start c := by
  have nothing : ∑ a ∈ Finset.Icc 1 n, ∑ b ∈ (Finset.Icc 1 n).erase a, (0 : Balance) = 0 := by
    simp
  cases flight with
  | none | toSrc => exact (congrArg _ nothing).trans (add_zero _)
  | toDst order =>
    have valid := valid order (.inr (.inl rfl))
    have debit (c : Nat) : Flight.applied c (start c) (.toDst order) =
        start c - if c = order.src then order.amount else 0 := by
      rw [Flight.applied]
      split
      · rfl
      · exact (sub_zero _).symm
    simp only [debit]
    rw [sum_amount valid, Finset.sum_sub_distrib, Finset.sum_ite_eq',
      if_pos (Finset.mem_Icc.mpr valid.1.1), sub_add_cancel]
  | ack order =>
    obtain ⟨⟨src, dst⟩, ne⟩ := valid order (.inr (.inr rfl))
    refine (congrArg _ nothing).trans ((add_zero _).trans ?_)
    exact sum_settle start (Finset.mem_Icc.mpr src) (Finset.mem_Icc.mpr dst) ne

theorem sum_settleAll {n : Nat} {orders : List TransferOrder}
    (valid : ∀ order ∈ orders, order.Valid n) (start : Nat → Balance) :
    ∑ c ∈ Finset.Icc 1 n, settleAll orders c (start c) = ∑ c ∈ Finset.Icc 1 n, start c := by
  induction orders generalizing start with
  | nil => rfl
  | cons order orders ih =>
    obtain ⟨⟨src, dst⟩, ne⟩ := valid order List.mem_cons_self
    refine (ih (fun o mem => valid o (List.mem_cons_of_mem _ mem))
      (fun c => settle order c (start c))).trans ?_
    exact sum_settle start (Finset.mem_Icc.mpr src) (Finset.mem_Icc.mpr dst) ne

end Amounts

/-! ## Every run -/

theorem moved (r : BankRun cfg (bank physical)) :
    ∃ w flight, Restored cfg r.final.view w ∧ Shape cfg w flight ∧ Moved cfg r.final.view flight :=
  BankRun.invariant (bank_lawful physical) (bank_drops physical) moved_initial
    (fun _ _ _ _ _ _ _ inv _ shape _ _ step =>
      inv.followed (fun _ flies => shape.valid_flight flies) step) r

/-- The transfers that have returned when the parent is at this point. -/
def Pc.returned (orders : List TransferOrder) (pc : Pc) : List TransferOrder :=
  orders.take (orders.length - (Pc.left orders pc).length)

/-- No money is lost or made, no process fails, the answer to a transfer is an `ACK`, and between
two transfers the balances are those after the ones that have returned. -/
theorem transfers_atomic (cfg : BankConfig) (physical : Physical)
    (r : BankRun cfg (bank physical)) :
    (∑ c ∈ Finset.Icc 1 cfg.numChildren, (r.final.loc c).data.balance +
        underWay cfg.numChildren r.final.transit =
      ∑ c ∈ Finset.Icc 1 cfg.numChildren, cfg.startBalances c) ∧
    (∀ p ≤ cfg.numChildren, (r.final.loc p).pc ≠ .panicked ∧ (r.final.loc p).pc ≠ .aborted) ∧
    (∀ order orders, (r.final.loc parentId).pc = .awaitAck order orders →
      ∀ m ∈ (r.final.transit order.dst parentId).head?, m.body.type = .ack) ∧
    ((∀ order orders, (r.final.loc parentId).pc ≠ .awaitAck order orders) →
      cfg.orders = Pc.returned cfg.orders (r.final.loc parentId).pc ++
        Pc.left cfg.orders (r.final.loc parentId).pc ∧
      ∀ c, IsChild cfg.numChildren c → (r.final.loc c).data.balance =
        settleAll (Pc.returned cfg.orders (r.final.loc parentId).pc) c (cfg.startBalances c)) := by
  obtain ⟨w, flight, restored, shape, returned, split_, balances⟩ := moved r
  have valid (order : TransferOrder) (mem : order ∈ returned) : order.Valid cfg.numChildren := by
    refine cfg.valid order ?_
    rw [split_]
    exact List.mem_append_left _ mem
  have returns : Pc.returned cfg.orders (r.final.loc parentId).pc = returned := by
    have len := congrArg List.length split_
    rw [List.length_append, State.view_loc] at len
    have front := congrArg (List.take returned.length) split_
    rw [List.take_left] at front
    rw [Pc.returned, len, Nat.add_sub_cancel]
    exact front
  refine ⟨?_, fun p le => ?_, fun order orders pc m head => ?_, fun still => ?_⟩
  · have traffic : underWay cfg.numChildren r.final.transit = _ := underWay_eq restored shape
    have held : ∑ c ∈ Finset.Icc 1 cfg.numChildren, (r.final.loc c).data.balance =
        ∑ c ∈ Finset.Icc 1 cfg.numChildren,
          Flight.applied c (settleAll returned c (cfg.startBalances c)) flight :=
      Finset.sum_congr rfl fun c mem => balances c (Finset.mem_Icc.mp mem)
    rw [traffic, held, sum_applied _ fun _ flies => shape.valid_flight flies]
    exact sum_settleAll valid cfg.startBalances
  · have role := shape.role p le
    rw [restored.loc, State.view_loc] at role
    constructor <;> intro pc <;> rw [pc] at role <;> exact role
  · obtain ⟨rest, chan⟩ := List.head?_eq_some_iff.mp head
    have pc : (w.loc parentId).pc = .awaitAck order orders := by
      rw [restored.loc]
      exact pc
    have ready : Ready w parentId (some (order.dst, m)) := restored.ready ⟨rest, chan⟩
    rw [(shape.ack_head pc ready).2.1]
    rfl
  · have none_ : flight = .none := by
      have under := shape.under
      rw [restored.loc, State.view_loc] at under
      cases pc : (r.final.loc parentId).pc with
      | awaitAck order orders => exact absurd pc (still order orders)
      | _ =>
        rw [pc] at under
        exact under
    subst none_
    rw [returns]
    exact ⟨split_, balances⟩

end Distra.Pa2
