import DiagramLayout.Proofs.Graph.Construction
import DiagramLayout.Proofs.Scalar.Exact

/-!
# Graphs that are evaluated again

A tape is built, passed over and swept again and again, and keeps the values of its last pass, also
of one that stopped half way. None of that shows in a later pass.
-/

namespace DiagramLayout

variable {α : Type}

/-- The nodes up to a number are those with smaller numbers. -/
theorem Graph.mem_upTo_iff {g : Graph α} {out : Nat} (hout : out < g.size) {node : Node α} :
    node ∈ g.upTo out ↔ ∃ i ≤ out, g.node? i = some node := by
  have hlength : (g.upTo out).length = out + 1 := by
    rw [length_upTo]
    omega
  constructor
  · intro hmem
    obtain ⟨newer, older, hsplit⟩ := List.append_of_mem hmem
    have hs : node :: older <:+ g.upTo out := ⟨newer, hsplit.symm⟩
    refine ⟨older.length, ?_, node?_of_suffix (hs.trans (upTo_suffix g out))⟩
    have := hs.length_le
    rw [List.length_cons] at this
    omega
  · rintro ⟨i, hi, hnode⟩
    obtain ⟨older, hs, rfl⟩ := node?_eq_some_iff.mp hnode
    have hs' : node :: older <:+ g.upTo out :=
      List.suffix_of_suffix_length_le hs (upTo_suffix g out) (by rw [List.length_cons]; omega)
    exact hs'.subset List.mem_cons_self

/-- A new tape on the nodes up to a number alone. -/
def Tape.cut (t : Tape α) (out : Nat) : Tape α := { graph := { nodes := t.graph.upTo out } }

theorem Tape.upTo_cut {t : Tape α} {out : Nat} (hout : out < t.graph.size) :
    (t.cut out).graph.upTo out = t.graph.upTo out := by
  have hsize : (t.cut out).graph.size = out + 1 := by
    have : (t.cut out).graph.size = (t.graph.upTo out).length := rfl
    rw [this, Graph.length_upTo]
    omega
  rw [Graph.upTo, hsize, Nat.sub_self, List.drop_zero]
  rfl

variable [Scalar α]

/-! ## Values by recursion -/

namespace Graph

/-- The value of a node by recursion: that of an operation comes from the values of its operands. -/
inductive HasValue (g : Graph α) (p : Point α) : Nat → α → Prop where
  | const {i : Nat} {x : α} : g.node? i = some (.const x) → HasValue g p i x
  | input {i index : Nat} {x : α} : g.node? i = some (.input index) →
      p.inputs[index]? = some x → HasValue g p i x
  | slot {i : Nat} {name : String} {default : α} : g.node? i = some (.slot name default) →
      HasValue g p i (p.slot name default)
  | apply {i : Nat} {op : Op} {operands : List Nat} {reading : Nat → α} :
      g.node? i = some (.apply op operands) → (∀ j ∈ operands, HasValue g p j (reading j)) →
      HasValue g p i (op.eval (operands.map reading))

variable {g : Graph α} {p : Point α}

theorem HasValue.unique {i : Nat} {x y : α} (h : g.HasValue p i x) (h' : g.HasValue p i y) :
    x = y := by
  induction h generalizing y with
  | const hnode =>
    cases h' <;> simp_all
  | input hnode hx =>
    cases h' <;> simp_all
  | slot hnode =>
    cases h' <;> simp_all
  | @apply i op operands reading hnode _ ih =>
    cases h' with
    | @apply _ op' operands' reading' hnode' hreading =>
      obtain ⟨rfl, rfl⟩ := Node.apply.inj (Option.some.inj (hnode.symm.trans hnode'))
      have same : operands.map reading = operands.map reading' :=
        List.map_congr_left fun j hj => ih j hj (hreading j hj)
      rw [same]
    | _ => simp_all

/-- A node has its value from those of the older nodes. -/
theorem hasValue_of_value? {i : Nat} {node : Node α} {before : Array α} {x : α}
    (hnode : g.node? i = some node) (hx : node.value? p before = some x)
    (hbefore : ∀ j ∈ node.operands, g.HasValue p j (before.getD j 0.0)) : g.HasValue p i x := by
  cases node with
  | const y =>
    obtain rfl := Option.some.inj hx
    exact .const hnode
  | input index => exact .input hnode hx
  | slot name default =>
    obtain rfl := Option.some.inj hx
    exact .slot hnode
  | apply op operands =>
    obtain rfl := Option.some.inj hx
    exact .apply hnode hbefore

/-- A complete pass finds the value of every node. -/
theorem hasValue_of_evaluate (hordered : g.Ordered) {nodes : List (Node α)}
    (hs : nodes <:+ g.nodes) {values : Array α} (h : evaluate p nodes = (values, true)) {i : Nat}
    (hi : i < nodes.length) : g.HasValue p i (values.getD i 0.0) := by
  induction nodes generalizing values i with
  | nil => simp at hi
  | cons node older ih =>
    obtain ⟨before, x, hbefore, hx, rfl⟩ := evaluate_cons_iff.mp h
    have hsize : before.size = older.length := size_of_evaluate hbefore
    have holder : older <:+ g.nodes := (List.suffix_cons node older).trans hs
    by_cases newest : i = older.length
    · subst newest
      have hnode := node?_of_suffix hs
      rw [← hsize, getD_push_size, hsize]
      refine hasValue_of_value? hnode hx fun j hj => ?_
      exact ih holder hbefore (hordered _ node hnode j hj)
    · rw [getD_push_of_ne (by omega)]
      have : i < older.length := by
        rw [List.length_cons] at hi
        omega
      exact ih holder hbefore this

/-- A pass up to a node stops half way exactly if an input is missing. -/
theorem evaluate_upTo_incomplete_iff {out : Nat} (hout : out < g.size) :
    (evaluate p (g.upTo out)).2 = false ↔
      ∃ i ≤ out, ∃ index, g.node? i = some (.input index) ∧ p.inputs.length ≤ index := by
  rw [← Bool.not_eq_true, evaluate_isComplete_iff]
  constructor
  · intro h
    obtain ⟨index, h⟩ := not_forall.mp h
    obtain ⟨hmem, missing⟩ := Classical.not_imp.mp h
    obtain ⟨i, hi, hnode⟩ := (mem_upTo_iff hout).mp hmem
    exact ⟨i, hi, index, hnode, Nat.le_of_not_lt missing⟩
  · rintro ⟨i, hi, index, hnode, missing⟩ all
    have := all index ((mem_upTo_iff hout).mpr ⟨i, hi, hnode⟩)
    omega

/-! ## Sweeps -/

theorem spread_congr {values values' : Array α} (same : ∀ i, values.getD i 0.0 = values'.getD i 0.0)
    (out adjoint : α) (node : Node α) (adjoints : Array α) :
    node.spread values out adjoint adjoints = node.spread values' out adjoint adjoints := by
  cases node with
  | apply op operands =>
    have hoperands : Node.operandValues values operands = Node.operandValues values' operands :=
      List.map_congr_left fun i _ => same i
    simp only [Node.spread, hoperands]
  | _ => rfl

/-- A sweep reads the values of nodes only, and zero for a node that has none. -/
theorem sweep_congr {values values' : Array α} (same : ∀ i, values.getD i 0.0 = values'.getD i 0.0)
    (nodes : List (Node α)) (adjoints gradient : Array α) :
    sweep values nodes adjoints gradient = sweep values' nodes adjoints gradient := by
  induction nodes generalizing adjoints gradient with
  | nil => rfl
  | cons node older ih =>
    cases node <;> simp only [sweep, spread_congr same, same, ih]

end Graph

theorem getD_append_zeros (values : Array α) (n i : Nat) :
    (values ++ Array.replicate n 0.0).getD i 0.0 = values.getD i 0.0 := by
  simp only [Array.getD_eq_getD_getElem?, Array.getElem?_append]
  split
  · rfl
  · next h =>
    rw [Array.getElem?_replicate, Array.getElem?_eq_none (by omega)]
    split <;> rfl

/-! ## Uses of a tape -/

namespace Tape

/-- What can be done to a tape. Each use may fail, a recording and a pass also half way. -/
inductive Use (α : Type) where
  | build (c : Construction α)
  | reset
  | forward (p : Point α) (position : Int)
  | backward (position count : Int)
  | gradient (p : Point α) (position : Int)

/-- The tape after a use; a sweep leaves no trace. -/
def Use.on (t : Tape α) : Use α → Tape α
  | build c => (t.run c.record).2
  | reset => t.reset
  | forward p position => (t.forwardAt p position).2
  | backward .. => t
  | gradient p position => (t.gradientAt p position).2

/-- A use that names only nodes that are there. -/
def Use.Known (t : Tape α) : Use α → Prop
  | build c => c.Known t.graph
  | _ => True

/-- The tapes that uses of an empty one lead to. -/
inductive Reached : Tape α → Prop where
  | empty (number : Nat) : Reached { graph := { number } }
  | use {t : Tape α} (u : Use α) : Reached t → u.Known t → Reached (u.on t)

@[simp] theorem graph_forwardAt (t : Tape α) (p : Point α) (position : Int) :
    (t.forwardAt p position).2.graph = t.graph := by
  unfold forwardAt
  split <;> rfl

@[simp] theorem graph_gradientAt (t : Tape α) (p : Point α) (position : Int) :
    (t.gradientAt p position).2.graph = t.graph := by
  have h := graph_forwardAt t p position
  unfold gradientAt
  split <;> simp_all

/-- Only a recording changes the graph. -/
theorem Reached.built {t : Tape α} (reached : t.Reached) : t.graph.Built := by
  induction reached with
  | empty number => exact .empty number
  | @use t u _ known ih =>
    cases u with
    | build c => exact .step c ih known
    | reset => exact ih
    | forward p position => simpa [Use.on] using ih
    | backward position count => exact ih
    | gradient p position => simpa [Use.on] using ih

variable {t : Tape α} {p : Point α} {out : Nat}

/-- A pass that comes to its end. -/
theorem forward_of_evaluate (hout : out < t.graph.size) {values : Array α}
    (h : Graph.evaluate p (t.graph.upTo out) = (values, true)) :
    values.size = out + 1 ∧ (t.forward p out).1 = .ok (values.getD out 0.0) ∧
      ∀ i ≤ out, (t.forward p out).2.valueOf i = .ok (values.getD i 0.0) := by
  have hsize : values.size = out + 1 := by
    have hcomplete := Graph.size_of_evaluate h
    rw [Graph.length_upTo] at hcomplete
    omega
  have hvalues : t.graph.valuesUpTo p out = values := congrArg Prod.fst h
  refine ⟨hsize, ?_, fun i hi => ?_⟩
  · have hlt : out < values.size := by omega
    simp [forward, hvalues, hlt]
  · have hlt : i < values.size := by omega
    simp [forward, valueOf, hvalues, Array.getElem?_append_left hlt, hlt]

/-- A pass that stops half way. -/
theorem forward_of_incomplete (hout : out < t.graph.size)
    (h : (Graph.evaluate p (t.graph.upTo out)).2 = false) :
    (t.forward p out).1 = .error (.outOfRange .list) := by
  obtain ⟨hle, hcomplete⟩ := Graph.evaluate_size p (t.graph.upTo out)
  rw [h, Graph.length_upTo] at hcomplete
  rw [Graph.length_upTo] at hle
  have hshort : (t.graph.valuesUpTo p out)[out]? = none := by
    rw [Array.getElem?_eq_none_iff, Graph.valuesUpTo]
    simp only [Bool.false_eq_true, false_iff] at hcomplete
    omega
  simp [forward, hshort]

theorem values_forward (t : Tape α) (p : Point α) (out : Nat) (i : Nat) :
    (t.forward p out).2.values.getD i 0.0 = (t.graph.valuesUpTo p out).getD i 0.0 :=
  getD_append_zeros _ _ i

/-- A pass and its sweep read the graph only, not what the tape kept. -/
theorem gradient_eq (hout : out < t.graph.size) :
    (t.gradient p out).1 = t.graph.gradient p out := by
  have hlt : out < (t.forward p out).2.values.size := by
    simp only [forward, Array.size_append, Array.size_replicate]
    omega
  have hsweep : (t.forward p out).2.backward out p.inputs.length =
      t.graph.backward (t.graph.valuesUpTo p out) out p.inputs.length := by
    have hcount : ¬ (p.inputs.length : Int) < 0 := by omega
    rw [backward, if_neg (by omega), if_neg hcount, Int.toNat_natCast]
    simp only [Graph.backward, Graph.sweep_congr (values_forward t p out)]
    rfl
  cases hx : (t.graph.valuesUpTo p out)[out]? with
  | none => simp [gradient, Graph.gradient, forward, hx]
  | some x =>
    have hpass : t.forward p out = (.ok x, (t.forward p out).2) := by simp [forward, hx]
    rw [gradient, hpass]
    simp only [hsweep, Graph.gradient, hx]

theorem gradient_cut (hout : out < t.graph.size) :
    ((t.cut out).gradient p out).1 = (t.gradient p out).1 := by
  have hcut : out < (t.cut out).graph.size := by
    have := congrArg List.length (upTo_cut hout)
    rw [Graph.length_upTo, Graph.length_upTo] at this
    omega
  rw [gradient_eq hcut, gradient_eq hout]
  simp only [Graph.gradient, Graph.valuesUpTo, Graph.backward, upTo_cut hout]

/-- On every tape a pass fails exactly if an input that it comes to is missing. Else it gives each
node up to the last one its value by recursion. A gradient is that of the nodes alone. -/
theorem Reached.forward_and_gradient (reached : t.Reached) (p : Point α)
    (hout : out < t.graph.size) :
    ((t.forward p out).1 = .error (.outOfRange .list) ↔
      ∃ i ≤ out, ∃ index, t.graph.node? i = some (.input index) ∧ p.inputs.length ≤ index) ∧
    ((t.forward p out).1 ≠ .error (.outOfRange .list) →
      ∃ value : Nat → α, (∀ i ≤ out, ∀ x, t.graph.HasValue p i x ↔ x = value i) ∧
        (t.forward p out).1 = .ok (value out) ∧
        ∀ i ≤ out, (t.forward p out).2.valueOf i = .ok (value i)) ∧
    (t.gradient p out).1 = ((t.cut out).gradient p out).1 := by
  rcases h : Graph.evaluate p (t.graph.upTo out) with ⟨values, complete⟩
  have missing := Graph.evaluate_upTo_incomplete_iff (p := p) hout
  rw [h] at missing
  cases complete with
  | false =>
    have hfails := forward_of_incomplete hout (congrArg Prod.snd h)
    have hmissing := missing.mp rfl
    exact ⟨by simp only [hfails, hmissing], fun hne => absurd hfails hne, (gradient_cut hout).symm⟩
  | true =>
    obtain ⟨_, hresult, hvalueOf⟩ := forward_of_evaluate hout h
    refine ⟨?_, fun _ => ?_, (gradient_cut hout).symm⟩
    · simp only [hresult, reduceCtorEq, false_iff]
      exact fun hmissing => absurd (missing.mpr hmissing) (by simp)
    · refine ⟨fun i => values.getD i 0.0, fun i hi x => ?_, hresult, hvalueOf⟩
      have hi : i < (t.graph.upTo out).length := by
        rw [Graph.length_upTo]
        omega
      have hvalue := Graph.hasValue_of_evaluate reached.built.ordered
        (Graph.upTo_suffix t.graph out) h hi
      exact ⟨fun hx => hx.unique hvalue, fun hx => hx ▸ hvalue⟩

/-- A product of two inputs. -/
def inputProduct : Tape ℚ where
  graph := { nodes := [.apply .mul [0, 1], .input 1, .input 0] }

/-- The product after a pass that found the first input only, and a newer constant. -/
def interrupted : Tape ℚ where
  graph := { nodes := .const 7 :: inputProduct.graph.nodes }
  values := #[3, 0, 0]

theorem interrupted_forward_and_gradient :
    interrupted.Reached ∧ 2 < interrupted.graph.size ∧
      (interrupted.forward { inputs := [3, 5] } 2).1 = .ok 15 ∧
      interrupted.graph.HasValue { inputs := [3, 5] } 2 15 ∧
      (interrupted.gradient { inputs := [3, 5] } 2).1 =
        ((interrupted.cut 2).gradient { inputs := [3, 5] } 2).1 := by
  have inputs : Reached (α := ℚ) { graph := { nodes := [.input 1, .input 0] } } :=
    .use (.build (.input 1)) (.use (.build (.input 0)) (.empty 0) trivial) trivial
  have product : inputProduct.Reached := by
    refine .use (.build (.operation .mul [.handle ⟨0, 0⟩, .handle ⟨0, 1⟩])) inputs ⟨rfl, ?_⟩
    exact .cons (.handle trivial ⟨rfl, fun _ => by decide⟩)
      (.cons (.handle trivial ⟨rfl, fun _ => by decide⟩) .nil)
  have stopped : Reached { inputProduct with values := #[3, 0, 0] } := by
    have hvalues : (inputProduct.forward { inputs := [3] } 2).2.values = #[3, 0, 0] := by
      decide +kernel
    rw [← hvalues]
    exact .use (.forward (α := ℚ) { inputs := [3] } 2) product trivial
  have reached : interrupted.Reached :=
    .use (.build (.constant (.number 7))) (.use (.backward 2 1) stopped trivial) trivial
  have hout : 2 < interrupted.graph.size := by decide
  have hpass : (interrupted.forward { inputs := [3, 5] } 2).1 = .ok 15 := by decide +kernel
  obtain ⟨_, ends, hgradient⟩ := reached.forward_and_gradient { inputs := [3, 5] } hout
  obtain ⟨value, unique, hresult, _⟩ := ends (by simp [hpass])
  have hvalue : 15 = value 2 := Except.ok.inj (hpass.symm.trans hresult)
  exact ⟨reached, hout, hpass, (unique 2 (Nat.le_refl 2) 15).mpr hvalue, hgradient⟩

end Tape

end DiagramLayout
