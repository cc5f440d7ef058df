import DiagramLayout.Formula.Vector
import DiagramLayout.Proofs.Graph.Jet

/-!
# Integer powers of nodes

A power is recorded as a chain of products that all have the node itself as their second factor, so
its derivative comes together along every link of the chain.
-/

namespace DiagramLayout

/-- The graphs that the powers of a node lead to: `g.Raises i n j g'` if `g'` is `g` with nodes on
top, of which `j` is the `n`-th power of `i`. The square is a node of its own. -/
inductive Graph.Raises {α : Type} (g : Graph α) (i : Nat) : Nat → Nat → Graph α → Prop where
  | one : Raises g i 1 i g
  | square : Raises g i 2 g.size (g.push (.apply .square [i])).2
  | times {n j : Nat} {g' : Graph α} : Raises g i n j g' →
      Raises g i (n + 1) g'.size (g'.push (.apply .mul [j, i])).2

namespace Graph.Raises

variable {α : Type} {g g' : Graph α} {i j n : Nat}

theorem pos (h : g.Raises i n j g') : 0 < n := by cases h <;> omega

theorem grows (h : g.Raises i n j g') : g.Grows g' := by
  induction h with
  | one => exact .refl g
  | square => exact grows_push g _
  | @times n j g' _ ih => exact ih.trans (grows_push g' _)

/-- No node for the first power, and one more for each further factor. -/
theorem size_eq (h : g.Raises i n j g') : g'.size = g.size + (n - 1) := by
  induction h with
  | one => rfl
  | square => rfl
  | times h ih =>
    have := h.pos
    rw [size_push]
    omega

theorem lt (hi : i < g.size) (h : g.Raises i n j g') : i ≤ j ∧ j < g'.size := by
  cases h with
  | one => exact ⟨Nat.le_refl i, hi⟩
  | square => exact ⟨hi.le, Nat.lt_succ_self _⟩
  | times h => exact ⟨(hi.trans_le h.grows.size_le).le, Nat.lt_succ_self _⟩

theorem ordered (hordered : g.Ordered) (hi : i < g.size) (h : g.Raises i n j g') :
    g'.Ordered := by
  induction h with
  | one => exact hordered
  | square =>
    refine hordered.push ?_
    simpa [Node.operands] using hi
  | times h ih =>
    obtain ⟨hle, hlt⟩ := h.lt hi
    refine ih.push ?_
    simpa [Node.operands] using ⟨hlt, hle.trans_lt hlt⟩

end Graph.Raises

/-! ## Recording -/

namespace Formula

variable {α : Type} [Scalar α]

theorem repeatedProduct_raises (g : Graph α) (i count : Nat) :
    ∃ j g', (repeatedProduct (.handle (g.handle i)) count).record.on g =
      (.ok (.handle (g.handle j)), g') ∧ g.Raises i (count + 1) j g' := by
  induction count with
  | zero => exact ⟨i, g, rfl, .one⟩
  | succ count ih =>
    obtain ⟨j, g', hshorter, raises⟩ := ih
    refine ⟨g'.size, _, ?_, raises.times⟩
    have hproduct := g'.on_operate_handles .mul [j, i] (by simp)
    simp only [List.map_cons, List.map_nil, raises.grows.handle] at hproduct
    rw [repeatedProduct, record_bind, Recording.on_bind, hshorter]
    simp only [record_apply, hproduct]

/-- A power is recorded by the nodes of a chain. -/
theorem power_raises (g : Graph α) (i : Nat) {n : Nat} (hn : 1 ≤ n) :
    ∃ j g', (power (.handle (g.handle i)) (.integer n)).record.on g =
      (.ok (.handle (g.handle j)), g') ∧ g.Raises i n j g' := by
  by_cases htwo : n = 2
  · subst htwo
    have hpower : power (.handle (g.handle i)) (.integer (2 : Nat)) =
        apply (α := α) .square [.handle (g.handle i)] := rfl
    have hsquare := g.on_operate_handles .square [i] (by simp)
    exact ⟨g.size, _, by rw [hpower, record_apply]; exact hsquare, .square⟩
  · have hpower : power (.handle (g.handle i)) (.integer n) =
        repeatedProduct (α := α) (.handle (g.handle i)) (n - 1) := by
      have hint : (n : Int) ≠ 2 := by omega
      have hpos : (1 : Int) ≤ n := by omega
      simp [power, Value.graph?, hint, hpos]
    have hraises := repeatedProduct_raises g i (n - 1)
    rwa [← hpower, Nat.sub_add_cancel hn] at hraises

end Formula

/-! ## Values and gradients -/

namespace Graph

variable {α : Type} [FieldScalar α]

/-- The value and the slope of a power. Every link of the chain adds the slope of the node once
more, times the other factors. -/
theorem Raises.read_jets {g g' : Graph α} {i j n : Nat} (h : g.Raises i n j g') (hi : i < g.size)
    {p : Point α} {direction : List α} {x slope : α}
    (hbase : (Meaning.jets p direction).read g.nodes i = (x, slope)) :
    (Meaning.jets p direction).read g'.nodes j = (x ^ n, n * x ^ (n - 1) * slope) := by
  induction h with
  | one => simpa using hbase
  | square =>
    rw [Meaning.read_push, Meaning.node, List.map_singleton, hbase, Meaning.jets_square]
    simp
  | @times n j g' h ih =>
    have hfactor : (Meaning.jets p direction).read g'.nodes i = (x, slope) :=
      (Meaning.read_grows _ h.grows hi).trans hbase
    obtain ⟨m, rfl⟩ := Nat.exists_eq_succ_of_ne_zero h.pos.ne'
    -- the shorter power leans as `m + 1` factors do, and the last factor leans once more
    rw [Meaning.read_push, Meaning.node, List.map_cons, List.map_singleton, ih, hfactor,
      Meaning.jets_mul]
    refine Prod.ext (pow_succ x _).symm ?_
    push_cast [Nat.succ_eq_add_one, Nat.add_sub_cancel]
    ring

/-- **Integer powers.** On every graph the power of a node by an integer `n` from one on is a node
again. It takes `n - 1` new nodes, so none for the first power and one for the square, and leaves the
others as they are. At every point that has its inputs, its value is the power of the node's value,
and its gradient is the gradient of the node times the derivative of the power. -/
theorem power_forward_and_gradient (g : Graph α) (hordered : g.Ordered) (i : Nat) (hi : i < g.size)
    (n : Nat) (hn : 1 ≤ n) :
    ∃ j g', (Formula.power (.handle (g.handle i)) (.integer n)).record.on g =
        (.ok (.handle (g.handle j)), g') ∧
      g.Grows g' ∧ j < g'.size ∧ g'.size = g.size + (n - 1) ∧
      ∀ p : Point α, (∀ k, .input k ∈ g'.upTo j → k < p.inputs.length) →
        ∃ x gradient, g.forward p i = .ok x ∧ g.gradient p i = .ok (x, gradient) ∧
          gradient.length = p.inputs.length ∧ g'.forward p j = .ok (x ^ n) ∧
          g'.gradient p j = .ok (x ^ n, Vec.scale (n * x ^ (n - 1)) gradient) := by
  obtain ⟨j, g', hrecord, raises⟩ := Formula.power_raises g i hn
  obtain ⟨hle, hlt⟩ := raises.lt hi
  refine ⟨j, g', hrecord, raises.grows, hlt, raises.size_eq, fun p hinputs => ?_⟩
  have hbefore : ∀ k, .input k ∈ g.upTo i → k < p.inputs.length :=
    fun k hk => hinputs k ((raises.grows.upTo_suffix hle hlt).subset hk)
  obtain ⟨x, gradient, hforward, hgradient, hlength, hjets⟩ :=
    gradient_eq_jets_of_inputs hordered hi hbefore
  obtain ⟨y, gradient', hforward', hgradient', hlength', hjets'⟩ :=
    gradient_eq_jets_of_inputs (raises.ordered hordered hi) hlt hinputs
  have hjet (v : List α) (hv : v.length = p.inputs.length) :
      (y, pairing gradient' v) = (x ^ n, n * x ^ (n - 1) * pairing gradient v) :=
    (hjets' v hv).symm.trans (raises.read_jets hi (hjets v hv))
  obtain rfl : y = x ^ n := congrArg Prod.fst (hjet gradient hlength)
  have hslopes : gradient' = Vec.scale (n * x ^ (n - 1)) gradient := by
    refine eq_of_pairing (by simp [Vec.scale, hlength, hlength']) fun v hv => ?_
    rw [Vec.pairing_scale]
    exact congrArg Prod.snd (hjet v (hv.trans hlength'))
  rw [hslopes] at hgradient'
  exact ⟨x, gradient, hforward, hgradient, hlength, hforward', hgradient'⟩

end Graph

/-- The difference of two inputs, and a newer constant. -/
def inputDifference : Graph ℚ where
  nodes := [.const 7, .apply .sub [0, 1], .input 1, .input 0]

theorem inputDifference_fourth_power :
    ∃ j g', (Formula.power (.handle (inputDifference.handle 2)) (.integer 4)).record.on
        inputDifference = (.ok (.handle (inputDifference.handle j)), g') ∧ g'.size = 7 ∧
      g'.forward { inputs := [5, 3] } j = .ok 16 ∧
      g'.gradient { inputs := [5, 3] } j = .ok (16, [32, -32]) := by
  have hordered : inputDifference.Ordered := by
    intro i node hnode
    have hi := Graph.lt_of_node? hnode
    have hbelow : ∀ i < 4, ∀ node ∈ inputDifference.node? i, ∀ j ∈ node.operands, j < i := by decide
    exact hbelow i hi node hnode
  obtain ⟨j, g', hrecord, _, _, _, hvalues⟩ :=
    Graph.power_forward_and_gradient inputDifference hordered 2 (by decide) 4 (by decide)
  have hchain : (Formula.power (.handle (inputDifference.handle 2)) (.integer 4)).record.on
      inputDifference = (.ok (.handle (inputDifference.handle 6)),
        { nodes := .apply .mul [5, 2] :: .apply .mul [4, 2] :: .apply .mul [2, 2] ::
            inputDifference.nodes }) := by with_unfolding_all rfl
  obtain ⟨hlast, rfl⟩ := Prod.mk.inj (hchain.symm.trans hrecord)
  cases hlast
  obtain ⟨x, gradient, hforward, hgradient, _, hforward', hgradient'⟩ :=
    hvalues { inputs := [5, 3] } (by simp [Graph.upTo, Graph.size, inputDifference])
  have hbase : inputDifference.gradient { inputs := [5, 3] } 2 = .ok (2, [1, -1]) := by
    decide +kernel
  obtain ⟨rfl, rfl⟩ := Prod.mk.inj (Except.ok.inj (hgradient.symm.trans hbase))
  refine ⟨6, _, hchain, rfl, ?_, ?_⟩
  · rw [hforward']
    norm_num
  · rw [hgradient']
    norm_num [Vec.scale]

end DiagramLayout
