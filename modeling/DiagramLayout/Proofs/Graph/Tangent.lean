import DiagramLayout.Proofs.Graph.Pass
import DiagramLayout.Proofs.Vec

/-!
# The reverse sweep against the forward derivative

The tangent of a node is its derivative along a direction of the inputs, pushed forward through the
nodes from the oldest to the newest.

* `Node.tangent`, `Graph.tangents`: the forward rule, node by node;
* `sweep_pairing`: while the sweep runs, the gradient so far paired with the direction and the
  adjoints paired with the tangents have a constant sum;
* `backward_pairing_eq_tangent`: so the gradient paired with a direction is the output's tangent.
-/

namespace DiagramLayout

variable {α : Type} [RingScalar α]

/-- The derivative of a node along a direction, from the values of the nodes, its own value and the
derivatives of the older nodes. -/
def Node.tangent (values : Array α) (out : α) (direction : List α) (tangents : Array α) :
    Node α → α
  | .input index => direction.getD index 0
  | .apply op operands =>
    ((operands.zip (op.partials (operandValues values operands) out)).map
      fun (i, slope) => slope * tangents.getD i 0).sum
  | _ => 0

namespace Graph

/-- The derivatives of the nodes along a direction, the oldest first. -/
def tangents (values : Array α) (direction : List α) : List (Node α) → Array α
  | [] => #[]
  | node :: older =>
    let before := tangents values direction older
    before.push (node.tangent values (values.getD older.length 0) direction before)

/-- The derivative of a node along a direction, at the values of a pass. -/
def tangent (g : Graph α) (values : Array α) (direction : List α) (out : Nat) : α :=
  (tangents values direction (g.upTo out)).getD out 0

@[simp] theorem size_tangents (values : Array α) (direction : List α) (nodes : List (Node α)) :
    (tangents values direction nodes).size = nodes.length := by
  induction nodes with
  | nil => rfl
  | cons node older ih => simp [tangents, ih]

end Graph

/-! ## Local derivatives -/

theorem Op.eval_sum (xs : List α) : eval sum xs = xs.sum := by
  have hfold (ys : List α) (x : α) : ys.foldl (· + ·) x = x + ys.sum := by
    induction ys generalizing x with
    | nil => simp
    | cons y ys ih => rw [List.foldl_cons, ih, List.sum_cons, add_assoc]
  rw [eval, hfold, RingScalar.zero_literal, zero_add]

theorem Op.pairing_partials_sum {xs vs : List α} (h : xs.length = vs.length) (out : α) :
    pairing (partials sum xs out) vs = vs.sum := by
  induction xs generalizing vs with
  | nil =>
    obtain rfl := List.eq_nil_of_length_eq_zero h.symm
    exact pairing_nil []
  | cons x xs ih =>
    cases vs with
    | nil => cases h
    | cons v vs => simpa [partials] using ih (Nat.succ.inj h)

/-- An operation leans as its operands do, each times its local derivative. -/
theorem Node.tangent_apply (values : Array α) (out : α) (direction : List α) (tangents : Array α)
    (op : Op) (operands : List Nat) :
    (apply op operands).tangent values out direction tangents =
      pairing (op.partials (operandValues values operands) out)
        (operands.map fun i => tangents.getD i 0) := by
  simp only [tangent, pairing]
  generalize op.partials _ out = slopes
  congr 1
  induction operands generalizing slopes with
  | nil => simp
  | cons i operands ih =>
    cases slopes with
    | nil => simp
    | cons slope slopes => simpa using ih slopes

/-! ## The sweep -/

variable {values : Array α}

/-- A node hands on its adjoint times its own tangent. -/
theorem Node.pairing_spread {node : Node α} (h : ∀ i, node ≠ .input i) (out adjoint : α)
    (direction : List α) {adjoints tangents : Array α} (hsize : tangents.size = adjoints.size) :
    pairing (node.spread values out adjoint adjoints).toList tangents.toList =
      pairing adjoints.toList tangents.toList +
        adjoint * node.tangent values out direction tangents := by
  cases node with
  | input i => exact absurd rfl (h i)
  | const x => simp [Node.spread, Node.tangent]
  | slot name default => simp [Node.spread, Node.tangent]
  | apply op operands =>
    simp only [Node.spread, Node.tangent]
    generalize operands.zip _ = edges
    induction edges generalizing adjoints with
    | nil => simp
    | cons edge edges ih =>
      obtain ⟨i, slope⟩ := edge
      rw [List.foldl_cons, List.map_cons, List.sum_cons]
      split
      · next hzero =>
        -- An edge that is passed over would have carried nothing.
        have hslope : slope = 0 := by simpa using hzero
        rw [ih hsize, hslope]; ring
      · rw [ih (by simpa using hsize), Array.toList_modify, pairing_modify (by simp [hsize])]
        simp; ring

/-- Adjoints of which the last is the newest node's. -/
theorem toList_eq_pop_append {adjoints : Array α} {n : Nat} (h : adjoints.size = n + 1) :
    adjoints.toList = adjoints.pop.toList ++ [adjoints.getD n 0] := by
  have hne : adjoints.toList ≠ [] := by
    intro hnil
    have := congrArg List.length hnil
    simp only [Array.length_toList, List.length_nil] at this
    omega
  have hlast : adjoints.getD n 0 = adjoints.toList.getLast hne := by
    rw [List.getLast_eq_getElem]
    simp [Array.getD, h]
  rw [Array.toList_pop, hlast, List.dropLast_concat_getLast]

namespace Graph

/-- The gradient so far and the adjoints that are left pair with a direction and its tangents to
what the whole gradient pairs to. -/
theorem sweep_pairing (values : Array α) (nodes : List (Node α)) (adjoints gradient : Array α)
    (hsize : adjoints.size = nodes.length) (hinputs : ∀ i, .input i ∈ nodes → i < gradient.size) :
    ∃ swept, sweep values nodes adjoints gradient = .ok swept ∧ swept.size = gradient.size ∧
      ∀ v : List α, v.length = gradient.size →
        pairing swept.toList v = pairing gradient.toList v +
          pairing adjoints.toList (tangents values v nodes).toList := by
  induction nodes generalizing adjoints gradient with
  | nil =>
    obtain rfl := Array.eq_empty_of_size_eq_zero hsize
    exact ⟨gradient, rfl, rfl, by simp⟩
  | cons node older ih =>
    have hrest : adjoints.pop.size = older.length := by simp [hsize]
    have hlast : adjoints.size - 1 = older.length := by simp [hsize]
    have holder : ∀ i, .input i ∈ older → i < gradient.size :=
      fun i hi => hinputs i (List.mem_cons_of_mem _ hi)
    -- The newest node's adjoint pairs with its own tangent, the rest with the older ones.
    have hpair (v : List α) :
        pairing adjoints.toList (tangents values v (node :: older)).toList =
          pairing adjoints.pop.toList (tangents values v older).toList +
            adjoints.getD older.length 0 *
              node.tangent values (values.getD older.length 0) v (tangents values v older) := by
      rw [toList_eq_pop_append hsize, tangents, Array.toList_push,
        pairing_append_singleton (by simpa using hrest)]
    simp only [sweep, hlast, RingScalar.zero_literal]
    split
    · next hzero =>
      have hadjoint : adjoints.getD older.length 0 = 0 := by simpa using hzero
      obtain ⟨swept, hswept, hlen, hv⟩ := ih adjoints.pop gradient hrest holder
      refine ⟨swept, hswept, hlen, fun v hn => ?_⟩
      rw [hv v hn, hpair, hadjoint]; ring
    · cases node with
      | input i =>
        have hi : i < gradient.size := hinputs i List.mem_cons_self
        simp only [hi, ↓reduceIte]
        obtain ⟨swept, hswept, hlen, hv⟩ := ih adjoints.pop
          (gradient.modify i (· + adjoints.getD older.length 0)) hrest (by simpa using holder)
        refine ⟨swept, hswept, by simpa using hlen, fun v hn => ?_⟩
        rw [hv v (by simpa using hn), hpair, Array.toList_modify, pairing_modify (by simp [hn])]
        simp only [Node.tangent]; ring
      | const _ | slot _ _ | apply _ _ =>
        obtain ⟨swept, hswept, hlen, hv⟩ := ih (Node.spread values (values.getD older.length 0)
          (adjoints.getD older.length 0) _ adjoints.pop) gradient (by simpa using hrest) holder
        refine ⟨swept, hswept, hlen, fun v hn => ?_⟩
        rw [hv v hn, hpair, Node.pairing_spread (by simp) _ _ v (by simp [hrest])]

/-- The seed pairs with the tangents to the output's. -/
theorem pairing_seed {out : Nat} {ts : Array α} (h : ts.size = out + 1) :
    pairing (seed out).toList ts.toList = ts.getD out 0 := by
  rw [toList_eq_pop_append h, seed, Array.toList_push, Array.toList_replicate,
    pairing_append_singleton (by simp [h])]
  simp [pairing_replicate_zero]

/-- The gradient of a node, from the values of the nodes up to it, pairs with any direction to the
node's tangent. -/
theorem backward_pairing {g : Graph α} {out n : Nat} (hout : out < g.size)
    (hinputs : ∀ i, .input i ∈ g.upTo out → i < n) (values : Array α) :
    ∃ gradient, g.backward values out n = .ok gradient ∧ gradient.length = n ∧
      ∀ v : List α, v.length = n → pairing gradient v = g.tangent values v out := by
  have hlength : (g.upTo out).length = out + 1 := by rw [length_upTo]; omega
  obtain ⟨swept, hswept, hsize, hv⟩ := sweep_pairing values (g.upTo out) (seed out)
    (Array.replicate n 0) (by simp [seed, hlength]) (by simpa using hinputs)
  refine ⟨swept.toList, by simp [backward, hswept, bind, Except.bind, pure, Except.pure],
    by simpa using hsize, fun v hn => ?_⟩
  rw [hv v (by simpa using hn), pairing_seed (by simp [hlength]), Array.toList_replicate,
    pairing_replicate_zero, zero_add]
  rfl

end Graph

/-- **Reverse mode equals forward mode.** After a pass up to a node, the sweep succeeds for every
number of inputs beyond those that the pass read, and what it gives pairs with any direction to the
tangent at the values of the pass. -/
theorem Tape.backward_pairing_eq_tangent (t : Tape α) (p : Point α) (out n : Nat) (x : α)
    (hpass : (t.forward p out).1 = .ok x)
    (hinputs : ∀ i, .input i ∈ t.graph.upTo out → i < n) :
    ∃ gradient, (t.forward p out).2.backward out n = .ok gradient ∧ gradient.length = n ∧
      ∀ v : List α, v.length = n →
        pairing gradient v = t.graph.tangent (t.forward p out).2.values v out := by
  have hforward : t.graph.forward p out = .ok x := hpass
  obtain ⟨values, hout, hvalues, _⟩ := Graph.forward_eq_ok_iff.mp hforward
  have hsize := Graph.size_valuesUpTo hforward
  obtain ⟨gradient, hgradient, hrest⟩ :=
    Graph.backward_pairing hout hinputs (t.forward p out).2.values
  refine ⟨gradient, ?_, hrest⟩
  have hcached : ¬ (t.forward p out).2.values.size ≤ out := by
    simp only [Tape.forward, Array.size_append, Array.size_replicate]
    omega
  have hcount : ¬ ((n : Int) < 0) := by omega
  simp only [Tape.backward, hcached, hcount, ↓reduceIte, Int.toNat_natCast]
  exact hgradient

/-- The square of the first input and both inputs, added up: a node used twice by one node and
again by another. -/
def squarePlusBoth : Tape ℚ where
  graph := { nodes := [.apply .sum [2, 0, 1], .apply .mul [0, 0], .input 1, .input 0] }

theorem squarePlusBoth_backward_pairing :
    (squarePlusBoth.forward { inputs := [3, 5] } 3).1 = .ok 17 ∧
      ∃ gradient, (squarePlusBoth.forward { inputs := [3, 5] } 3).2.backward 3 2 = .ok gradient ∧
        pairing gradient [1, 10] = 17 := by
  have hpass : (squarePlusBoth.forward { inputs := [3, 5] } 3).1 = .ok 17 := by decide +kernel
  obtain ⟨gradient, hgradient, _, hv⟩ :=
    Tape.backward_pairing_eq_tangent squarePlusBoth { inputs := [3, 5] } 3 2 17 hpass (by
      intro i hi
      simp [squarePlusBoth, Graph.upTo, Graph.size] at hi
      omega)
  refine ⟨hpass, gradient, hgradient, (hv [1, 10] rfl).trans ?_⟩
  decide +kernel

end DiagramLayout
