import DiagramLayout.Proofs.Graph.Meaning
import DiagramLayout.Proofs.Graph.Tangent

/-!
# Values and slopes together

A jet is a value and its slope along a direction. Read as jets, nodes mean what a pass and its
tangents say of them, so what is shown of all meanings holds of gradients.
-/

namespace DiagramLayout

variable {α : Type} [RingScalar α]

namespace Meaning

/-- Values at a point and slopes along a direction. -/
def jets (p : Point α) (direction : List α) : Meaning α (α × α) where
  const x := (x, 0)
  input index := (p.inputs.getD index 0.0, direction.getD index 0)
  slot name default := (p.slot name default, 0)
  apply op js :=
    let xs := js.map Prod.fst
    (op.eval xs, pairing (op.partials xs (op.eval xs)) (js.map Prod.snd))
  apply_const op xs := by
    have hvalues : (xs.map fun x => (x, (0 : α))).map Prod.fst = xs := by
      rw [List.map_map]
      exact List.map_id xs
    have hslopes : (xs.map fun x => (x, (0 : α))).map Prod.snd = List.replicate xs.length 0 := by
      rw [List.map_map]
      exact List.map_const' ..
    simp only [hvalues, hslopes]
    rw [pairing_comm, pairing_replicate_zero]

variable {p : Point α} {direction : List α}

/-- The jet of a node is its value and its tangent, by induction over the nodes of a pass. -/
theorem read_jets {g : Graph α} (hordered : g.Ordered) {out : Nat} {values : Array α}
    (hvalues : Graph.evaluate p (g.upTo out) = (values, true)) {nodes : List (Node α)}
    (hs : nodes <:+ g.upTo out) (i : Nat) :
    (jets p direction).read nodes i =
      ((Meaning.values p).read nodes i, (Graph.tangents values direction nodes).getD i 0) := by
  induction nodes generalizing i with
  | nil => simp [read, Graph.tangents, jets, Meaning.values]
  | cons node older ih =>
    have ih := ih ((List.suffix_cons node older).trans hs)
    have hread (j : Nat) (hj : j ≤ older.length) :
        values.getD j 0.0 = (Meaning.values p).read (node :: older) j := by
      rw [Graph.evaluate_eq_read hvalues, read_suffix _ hs (by simp; omega)]
    have htangent : (Graph.tangents values direction (node :: older)).getD older.length 0 =
        node.tangent values (values.getD older.length 0) direction
          (Graph.tangents values direction older) := by
      rw [Graph.tangents]
      conv_lhs => rw [← Graph.size_tangents values direction older, Graph.getD_push_size]
      rw [Graph.size_tangents]
    by_cases hi : i = older.length
    · subst hi
      rw [read_newest, htangent, read_newest]
      cases node with
      | apply op operands =>
        have hnode := Graph.node?_of_suffix (hs.trans (g.upTo_suffix out))
        have hbelow := hordered older.length _ hnode
        have hoperands : Node.operandValues values operands =
            operands.map ((Meaning.values p).read older) := by
          refine List.map_congr_left ?_
          intro j hj
          have hlt := hbelow j hj
          rw [hread j (by omega), read_older _ _ (by omega)]
        have hvalue : values.getD older.length 0 =
            op.eval (operands.map ((Meaning.values p).read older)) := by
          rw [← RingScalar.zero_literal, hread _ le_rfl, read_newest]
          rfl
        have hfst : (operands.map ((jets p direction).read older)).map Prod.fst =
            operands.map ((Meaning.values p).read older) := by
          rw [List.map_map]
          exact List.map_congr_left fun j _ => congrArg Prod.fst (ih j)
        have hsnd : (operands.map ((jets p direction).read older)).map Prod.snd =
            operands.map fun j => (Graph.tangents values direction older).getD j 0 := by
          rw [List.map_map]
          exact List.map_congr_left fun j _ => congrArg Prod.snd (ih j)
        refine Prod.ext (congrArg op.eval hfst) ?_
        rw [Node.tangent_apply, hoperands, hvalue, ← hsnd, ← hfst]
        rfl
      | _ => rfl
    · rw [read_older _ _ hi, read_older _ _ hi, ih i, Graph.tangents,
        Graph.getD_push_of_ne (by rwa [Graph.size_tangents])]

/-! ## Operations -/

theorem jets_sum (js : List (α × α)) :
    (jets p direction).apply .sum js = ((js.map Prod.fst).sum, (js.map Prod.snd).sum) := by
  refine Prod.ext (Op.eval_sum _) (Op.pairing_partials_sum ?_ _)
  rw [List.length_map, List.length_map]

theorem jets_add (a b : α × α) :
    (jets p direction).apply .add [a, b] = (a.1 + b.1, a.2 + b.2) := by
  simp [jets, Op.eval, Op.partials]

theorem jets_mul (a b : α × α) :
    (jets p direction).apply .mul [a, b] = (a.1 * b.1, b.1 * a.2 + a.1 * b.2) := by
  simp [jets, Op.eval, Op.partials]

theorem jets_square {α : Type} [FieldScalar α] {p : Point α} {direction : List α} (a : α × α) :
    (jets p direction).apply .square [a] = (a.1 ^ 2, 2 * a.1 * a.2) := by
  simp [jets, Op.eval, Op.partials, sq]

end Meaning

/-! ## Gradients -/

/-- A node whose inputs are there has a value and a gradient, which are its jets. -/
theorem Graph.gradient_eq_jets_of_inputs {g : Graph α} (hordered : g.Ordered) {p : Point α}
    {out : Nat} (hout : out < g.size)
    (hinputs : ∀ i, .input i ∈ g.upTo out → i < p.inputs.length) :
    ∃ x gradient, g.forward p out = .ok x ∧ g.gradient p out = .ok (x, gradient) ∧
      gradient.length = p.inputs.length ∧
      ∀ v : List α, v.length = p.inputs.length →
        (Meaning.jets p v).read g.nodes out = (x, pairing gradient v) := by
  have hvalues := evaluate_upTo hinputs
  have hforward := forward_eq_read_of_inputs hout hinputs
  obtain ⟨_, _, hvalues', hx⟩ := forward_eq_ok_iff.mp hforward
  obtain rfl : (evaluate p (g.upTo out)).1 = _ := congrArg Prod.fst hvalues'
  obtain ⟨gradient, hgradient, hlength, hpairing⟩ :=
    backward_pairing hout hinputs (g.valuesUpTo p out)
  refine ⟨_, gradient, hforward, ?_, hlength, fun v hv => ?_⟩
  · have hx : (g.valuesUpTo p out)[out]? = _ := hx
    simp only [Graph.gradient, hx, hgradient, Except.map]
  · have hlt : out < (g.upTo out).length := by
      rw [length_upTo]
      omega
    rw [hpairing v hv, Meaning.read_suffix _ (g.upTo_suffix out) hlt,
      Meaning.read_jets hordered hvalues (List.suffix_refl _),
      ← Meaning.read_suffix _ (g.upTo_suffix out) hlt]
    rfl

/-- A sound graph has a value and a gradient, which are the jets of its output. -/
theorem Graph.gradient_eq_jets {g : Graph α} {p : Point α} (sound : g.Sound (· < p.inputs.length))
    {out : Nat} (hout : out < g.size) :
    ∃ x gradient, g.forward p out = .ok x ∧ g.gradient p out = .ok (x, gradient) ∧
      gradient.length = p.inputs.length ∧
      ∀ v : List α, v.length = p.inputs.length →
        (Meaning.jets p v).read g.nodes out = (x, pairing gradient v) :=
  gradient_eq_jets_of_inputs sound.wellFormed.ordered hout (sound.inputs_upTo out)

end DiagramLayout
