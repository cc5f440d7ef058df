import DiagramLayout.Proofs.Graph.Growth
import DiagramLayout.Value.Double

/-!
# Branches that a sweep does not enter

A sweep passes over a node whose adjoint is zero and over an operand whose local derivative is zero.
So what it reads of a branch behind a zero derivative does not matter, be it infinite or NaN: the
adjoints there are never touched.
-/

namespace DiagramLayout

open Scalar

variable {α : Type} [Scalar α]

namespace Graph

/-- The operands of a node, each with the local derivative by it at the values of a pass. -/
def edges (g : Graph α) (values : Array α) (i : Nat) : List (Nat × α) :=
  match g.node? i with
  | some (.apply op operands) =>
    operands.zip (op.partials (Node.operandValues values operands) (values.getD i 0.0))
  | _ => []

/-- A chain of operands from the output down to a node, with the local derivatives along it, the one
next to the output last. -/
inductive Chain (g : Graph α) (values : Array α) (out : Nat) : Nat → List α → Prop where
  | output : Chain g values out out []
  | operand {i j : Nat} {slope : α} {slopes : List α} : Chain g values out i slopes →
      (j, slope) ∈ g.edges values i → Chain g values out j (slope :: slopes)

/-- A chain along which no local derivative is zero leads to a node. -/
def Live (g : Graph α) (values : Array α) (out i : Nat) : Prop :=
  ∃ slopes, g.Chain values out i slopes ∧ ∀ slope ∈ slopes, same slope 0.0 = false

variable {g : Graph α} {values : Array α} {out : Nat}

theorem live_output : g.Live values out out := ⟨[], .output, by simp⟩

theorem Live.operand {i j : Nat} {slope : α} (live : g.Live values out i)
    (hedge : (j, slope) ∈ g.edges values i) (hslope : same slope 0.0 = false) :
    g.Live values out j := by
  obtain ⟨slopes, chain, hslopes⟩ := live
  refine ⟨slope :: slopes, .operand chain hedge, ?_⟩
  simp only [List.mem_cons, forall_eq_or_imp]
  exact ⟨hslope, hslopes⟩

/-- An edge leads to an operand. -/
theorem mem_operands_of_edge {i j : Nat} {slope : α} (h : (j, slope) ∈ g.edges values i) :
    ∃ node ∈ g.node? i, j ∈ node.operands := by
  unfold edges at h
  split at h
  · next op operands hnode => exact ⟨_, hnode, (List.of_mem_zip h).1⟩
  · cases h

theorem not_live_of_dead {i : Nat} (dead : ∀ slopes, g.Chain values out i slopes →
    ∃ slope ∈ slopes, same slope 0.0 = true) : ¬ g.Live values out i := by
  rintro ⟨slopes, chain, hslopes⟩
  obtain ⟨slope, hmem, hzero⟩ := dead slopes chain
  simp [hslopes slope hmem] at hzero

/-! ## The sweep -/

/-- The adjoints of the nodes that no live chain leads to are zero. -/
def Untouched (g : Graph α) (values : Array α) (out : Nat) (adjoints : Array α) : Prop :=
  ∀ i, ¬ g.Live values out i → adjoints.getD i 0.0 = 0.0

theorem untouched_seed : g.Untouched values out (seed out) := by
  intro i dead
  have hi : i ≠ out := fun heq => dead (heq ▸ live_output)
  rw [seed, getD_push_of_ne (by simpa using hi)]
  simp only [Array.getD_eq_getD_getElem?, Array.getElem?_replicate]
  split <;> rfl

theorem Untouched.pop {adjoints : Array α} (untouched : g.Untouched values out adjoints) :
    g.Untouched values out adjoints.pop := by
  intro i dead
  have hi := untouched i dead
  rw [Array.getD_eq_getD_getElem?] at hi ⊢
  rw [Array.getElem?_pop]
  split
  · exact hi
  · rfl

/-- Adding to the adjoint of a live node touches no other one. -/
theorem Untouched.modify {adjoints : Array α} (untouched : g.Untouched values out adjoints)
    {j : Nat} (live : g.Live values out j) (f : α → α) :
    g.Untouched values out (adjoints.modify j f) := by
  intro i dead
  have hne : j ≠ i := fun heq => dead (heq ▸ live)
  rw [Array.getD_eq_getD_getElem?, Array.getElem?_modify, if_neg hne,
    ← Array.getD_eq_getD_getElem?]
  exact untouched i dead

/-- A live node hands its adjoint on to live nodes only. -/
theorem spread_untouched {i : Nat} {node : Node α} {adjoint : α} {adjoints : Array α}
    (hnode : g.node? i = some node) (live : g.Live values out i)
    (untouched : g.Untouched values out adjoints) :
    g.Untouched values out (node.spread values (values.getD i 0.0) adjoint adjoints) := by
  cases node with
  | apply op operands =>
    have hedges : g.edges values i =
        operands.zip (op.partials (Node.operandValues values operands) (values.getD i 0.0)) := by
      simp only [edges, hnode]
    have hlive : ∀ edge ∈ g.edges values i, same edge.2 0.0 = false →
        g.Live values out edge.1 := fun edge hmem hslope => live.operand hmem hslope
    simp only [Node.spread, ← hedges]
    generalize g.edges values i = edges at hlive
    induction edges generalizing adjoints with
    | nil => exact untouched
    | cons edge edges ih =>
      have hrest : ∀ edge ∈ edges, same edge.2 0.0 = false → g.Live values out edge.1 :=
        fun edge hmem => hlive edge (List.mem_cons_of_mem _ hmem)
      rw [List.foldl_cons]
      split
      · exact ih untouched hrest
      · next hslope =>
        have hfirst := hlive edge List.mem_cons_self (by simpa using hslope)
        exact ih (untouched.modify hfirst _) hrest
  | _ => exact untouched

/-- A sweep leaves the entry of an input alone that no live chain leads to. It ends where the inputs
that live chains lead to have entries. -/
theorem sweep_untouched (hzero : same (0.0 : α) 0.0 = true) {j : Nat}
    (hdead : ∀ i, g.node? i = some (.input j) → ¬ g.Live values out i)
    {nodes : List (Node α)} (hs : nodes <:+ g.nodes) {adjoints : Array α}
    (hsize : adjoints.size = nodes.length) (untouched : g.Untouched values out adjoints)
    (gradient : Array α) :
    (∀ swept, sweep values nodes adjoints gradient = .ok swept →
      swept.size = gradient.size ∧ swept[j]? = gradient[j]?) ∧
    ((∀ i k, g.node? i = some (.input k) → g.Live values out i → k < gradient.size) →
      ∃ swept, sweep values nodes adjoints gradient = .ok swept) := by
  induction nodes generalizing adjoints gradient with
  | nil =>
    refine ⟨fun swept h => ?_, fun _ => ⟨gradient, rfl⟩⟩
    obtain rfl := Except.ok.inj h
    exact ⟨rfl, rfl⟩
  | cons node older ih =>
    have hnode := node?_of_suffix hs
    have holder : older <:+ g.nodes := (List.suffix_cons node older).trans hs
    have hlast : adjoints.size - 1 = older.length := by simp [hsize]
    have hpop : adjoints.pop.size = older.length := by simp [hsize]
    simp only [sweep, hlast]
    split
    · exact ih holder hpop untouched.pop gradient
    · next hadjoint =>
      -- a node with a nonzero adjoint is live, so what it touches is live too
      have live : g.Live values out older.length := by
        refine Classical.byContradiction fun dead => hadjoint ?_
        rw [untouched _ dead]
        exact hzero
      cases node with
      | input k =>
        have hne : k ≠ j := fun heq => hdead _ (heq ▸ hnode) live
        by_cases hk : k < gradient.size
        · obtain ⟨hkept, hends⟩ := ih holder hpop untouched.pop
            (gradient.modify k (· + adjoints.getD older.length 0.0))
          simp only [Array.size_modify, Array.getElem?_modify, if_neg hne] at hkept hends
          simpa only [hk, ↓reduceIte] using ⟨hkept, hends⟩
        · simp only [hk, ↓reduceIte]
          exact ⟨fun _ h => (by cases h), fun hlive => absurd (hlive _ k hnode live) hk⟩
      | const x => exact ih holder hpop untouched.pop gradient
      | slot name default => exact ih holder hpop untouched.pop gradient
      | apply op operands =>
        refine ih holder ?_ (spread_untouched hnode live untouched.pop) gradient
        rw [Node.size_spread, hpop]

end Graph

/-- **Dead branches do not show.** Where every chain of operands from the output down to an input
goes along a local derivative that is zero, the gradient by that input is zero itself, whatever the
values of the nodes on those chains are. There is a gradient if the inputs that other chains lead to
are among those asked for. -/
theorem Tape.backward_eq_zero_of_dead (hzero : same (0.0 : α) 0.0 = true) (t : Tape α)
    {out n j : Nat} (hout : out < t.graph.size) (hj : j < n)
    (dead : ∀ i slopes, t.graph.node? i = some (.input j) →
      t.graph.Chain t.values out i slopes → ∃ slope ∈ slopes, same slope 0.0 = true) :
    (∀ gradient, t.backward out n = .ok gradient →
      gradient.length = n ∧ gradient[j]? = some 0.0) ∧
    (out < t.values.size →
      (∀ i k, t.graph.node? i = some (.input k) → t.graph.Live t.values out i → k < n) →
        ∃ gradient, t.backward out n = .ok gradient) := by
  have hlength : (t.graph.upTo out).length = out + 1 := by
    rw [Graph.length_upTo]
    omega
  have hdead : ∀ i, t.graph.node? i = some (.input j) → ¬ t.graph.Live t.values out i :=
    fun i hnode => Graph.not_live_of_dead fun slopes chain => dead i slopes hnode chain
  obtain ⟨hkept, hends⟩ := Graph.sweep_untouched hzero hdead
    (Graph.upTo_suffix t.graph out) (by simp [Graph.seed, hlength]) Graph.untouched_seed
    (Array.replicate n 0.0)
  have hcount : ¬ (n : Int) < 0 := by omega
  have hbackward (hvalues : out < t.values.size) :
      t.backward out n = t.graph.backward t.values out n := by
    rw [backward, if_neg (by omega), if_neg hcount, Int.toNat_natCast]
  constructor
  · intro gradient h
    have hvalues : out < t.values.size := by
      by_cases missing : t.values.size ≤ out
      · rw [backward, if_pos missing] at h
        cases h
      · omega
    rw [hbackward hvalues] at h
    obtain ⟨swept, hswept, h⟩ := bind_eq_ok_iff.mp h
    obtain rfl := Except.ok.inj h
    obtain ⟨hsize, hentry⟩ := hkept swept hswept
    refine ⟨by simpa using hsize, ?_⟩
    rw [Array.getElem?_toList, hentry, Array.getElem?_replicate, if_pos hj]
  · intro hvalues inputs
    obtain ⟨swept, hswept⟩ := hends (by simpa using inputs)
    exact ⟨swept.toList, (hbackward hvalues).trans (bind_eq_ok_iff.mpr ⟨swept, hswept, rfl⟩)⟩

/-- A choice between an undefined quotient of an infinite input by itself and a second input, which
takes the second one. -/
def undefinedBranch : Tape Float where
  graph := { nodes := [.apply .choose [2, 3, 1], .apply .div [0, 0], .const 0.0, .input 1,
    .input 0] }
  values := #[1.0 / 0.0, 5.0, 0.0, 0.0 / 0.0, 5.0]

theorem undefinedBranch_backward :
    (∃ x, undefinedBranch.values[3]? = some x ∧ same x x = false) ∧
      ∃ gradient, undefinedBranch.backward 4 2 = .ok gradient ∧ gradient.length = 2 ∧
        gradient[0]? = some 0.0 := by
  have parents : ∀ i < 5, ∀ node ∈ undefinedBranch.graph.node? i,
      (0 ∈ node.operands → i = 3) ∧ (3 ∈ node.operands → i = 4) := by decide
  have choice : undefinedBranch.graph.edges undefinedBranch.values 4 =
      [(2, 0.0), (3, 0.0), (1, 1.0)] := by decide +kernel
  -- every chain to the first input comes from the quotient, and to that from the choice
  have dead : ∀ slopes, undefinedBranch.graph.Chain undefinedBranch.values 4 0 slopes →
      ∃ slope ∈ slopes, same slope 0.0 = true := by
    intro slopes chain
    cases chain with
    | operand chain hedge =>
      obtain ⟨node, hnode, hmem⟩ := Graph.mem_operands_of_edge hedge
      obtain rfl := (parents _ (Graph.lt_of_node? hnode) node hnode).1 hmem
      cases chain with
      | @operand i _ slope slopes chain hchoice =>
        obtain ⟨node', hnode', hmem'⟩ := Graph.mem_operands_of_edge hchoice
        obtain rfl := (parents i (Graph.lt_of_node? hnode') node' hnode').2 hmem'
        rw [choice] at hchoice
        obtain rfl : slope = 0.0 := by simpa using hchoice
        exact ⟨0.0, by simp, by decide +kernel⟩
  have inputs : ∀ i < 5, ∀ node ∈ undefinedBranch.graph.node? i,
      (node.input? = some 0 → i = 0) ∧ ∀ k ∈ node.input?, k < 2 := by decide
  have hout : 4 < undefinedBranch.graph.size := by decide
  have hfirst : 0 < 2 := by decide
  obtain ⟨hzero, hends⟩ := Tape.backward_eq_zero_of_dead (by decide +kernel) undefinedBranch hout
    hfirst fun i slopes hnode chain => by
      obtain rfl := (inputs i (Graph.lt_of_node? hnode) _ hnode).1 rfl
      exact dead slopes chain
  obtain ⟨gradient, hgradient⟩ := hends (by decide) fun i k hnode _ =>
    (inputs i (Graph.lt_of_node? hnode) _ hnode).2 k rfl
  exact ⟨⟨_, rfl, by decide +kernel⟩, gradient, hgradient, hzero gradient hgradient⟩

end DiagramLayout
