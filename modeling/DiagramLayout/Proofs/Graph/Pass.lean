import DiagramLayout.Graph.Tape

namespace DiagramLayout.Graph

variable {α : Type}

@[simp] theorem length_upTo (g : Graph α) (out : Nat) :
    (g.upTo out).length = min (out + 1) g.size := by
  simp only [upTo, List.length_drop, size]; omega

theorem upTo_suffix (g : Graph α) (out : Nat) : g.upTo out <:+ g.nodes := List.drop_suffix _ _

theorem node?_of_suffix {g : Graph α} {node : Node α} {older : List (Node α)}
    (hs : node :: older <:+ g.nodes) : g.node? older.length = some node := by
  obtain ⟨newer, hnodes⟩ := hs
  have hsize : g.size = newer.length + (older.length + 1) := by simp [size, ← hnodes]
  have hplace : g.size - 1 - older.length = newer.length := by omega
  have hlt : older.length < g.size := by omega
  simp only [node?, hlt, ↓reduceIte, hplace, ← hnodes]
  simp

/-- A node has a number exactly if so many nodes are older. -/
theorem node?_eq_some_iff {g : Graph α} {i : Nat} {node : Node α} :
    g.node? i = some node ↔ ∃ older, node :: older <:+ g.nodes ∧ older.length = i := by
  constructor
  · intro h
    unfold node? at h
    split at h
    · next hi =>
      obtain ⟨hlt, hnode⟩ := List.getElem?_eq_some_iff.mp h
      refine ⟨g.nodes.drop (g.size - 1 - i + 1), ?_, ?_⟩
      · rw [← hnode, List.getElem_cons_drop]
        exact List.drop_suffix _ _
      · rw [List.length_drop, ← size]
        omega
    · cases h
  · rintro ⟨older, hs, rfl⟩
    exact node?_of_suffix hs

/-- Operands are older than their node. -/
def Ordered (g : Graph α) : Prop :=
  ∀ i node, g.node? i = some node → ∀ j ∈ node.operands, j < i

theorem WellFormed.ordered {g : Graph α} (h : g.WellFormed) : g.Ordered := by
  intro i node hnode j hj
  obtain ⟨older, hs, rfl⟩ := node?_eq_some_iff.mp hnode
  have hfits := h node older hs
  cases node with
  | apply op operands => exact hfits.1 j hj
  | _ => simp [Node.operands] at hj

theorem getD_push_of_ne {xs : Array α} {i : Nat} (hi : i ≠ xs.size) (x d : α) :
    (xs.push x).getD i d = xs.getD i d := by
  rw [Array.getD_eq_getD_getElem?, Array.getElem?_push, if_neg hi, Array.getD_eq_getD_getElem?]

theorem getD_push_size (xs : Array α) (x d : α) : (xs.push x).getD xs.size d = x := by
  rw [Array.getD_eq_getD_getElem?, Array.getElem?_push, if_pos rfl, Option.getD_some]

variable [Scalar α] {p : Point α}

theorem evaluate_cons_iff {node : Node α} {older : List (Node α)} {values : Array α} :
    evaluate p (node :: older) = (values, true) ↔
      ∃ before x, evaluate p older = (before, true) ∧ node.value? p before = some x ∧
        values = before.push x := by
  rcases h : evaluate p older with ⟨before, complete⟩
  cases complete with
  | false => simp [evaluate, h]
  | true =>
    cases hx : node.value? p before with
    | none => simp [evaluate, h, hx]
    | some x => simp [evaluate, h, hx, eq_comm]

/-- A pass has a value for every node exactly if it is complete. -/
theorem evaluate_size (p : Point α) (nodes : List (Node α)) :
    (evaluate p nodes).1.size ≤ nodes.length ∧
      ((evaluate p nodes).2 = true ↔ (evaluate p nodes).1.size = nodes.length) := by
  induction nodes with
  | nil => simp [evaluate]
  | cons node older ih =>
    rcases h : evaluate p older with ⟨before, complete⟩
    simp only [h] at ih
    cases complete with
    | false =>
      simp only [evaluate, h, List.length_cons]
      have hne : before.size ≠ older.length := by simpa using ih.2
      exact ⟨by omega, by simp; omega⟩
    | true =>
      have hsize : before.size = older.length := by simpa using ih.2
      cases hx : node.value? p before with
      | none => simp [evaluate, h, hx, hsize]
      | some x => simp [evaluate, h, hx, hsize]

theorem size_of_evaluate {nodes : List (Node α)} {values : Array α}
    (h : evaluate p nodes = (values, true)) : values.size = nodes.length := by
  simpa [h] using (evaluate_size p nodes).2

theorem evaluate_suffix {nodes older : List (Node α)} {values : Array α} (hs : older <:+ nodes)
    (h : evaluate p nodes = (values, true)) :
    ∃ before, evaluate p older = (before, true) ∧
      ∀ i < older.length, before[i]? = values[i]? := by
  induction nodes generalizing values with
  | nil =>
    obtain rfl := List.suffix_nil.mp hs
    exact ⟨values, h, fun _ _ => rfl⟩
  | cons node rest ih =>
    rcases List.suffix_cons_iff.mp hs with rfl | hs
    · exact ⟨values, h, fun _ _ => rfl⟩
    · obtain ⟨before, x, hbefore, _, rfl⟩ := evaluate_cons_iff.mp h
      obtain ⟨first, hfirst, same⟩ := ih hs hbefore
      refine ⟨first, hfirst, fun i hi => ?_⟩
      have hlt : i < before.size := by
        have := hs.length_le
        have := size_of_evaluate hbefore
        omega
      rw [same i hi, Array.getElem?_push_lt hlt, Array.getElem?_eq_getElem hlt]

/-- The value of a node, and the values of all nodes up to it. -/
theorem forward_eq_ok_iff {g : Graph α} {out : Nat} {x : α} :
    g.forward p out = .ok x ↔
      ∃ values, out < g.size ∧ evaluate p (g.upTo out) = (values, true) ∧
        values[out]? = some x := by
  have hforward : g.forward p out = .ok x ↔ (g.valuesUpTo p out)[out]? = some x := by
    unfold forward
    split <;> simp_all
  rw [hforward]
  constructor
  · intro h
    obtain ⟨hle, hcomplete⟩ := evaluate_size p (g.upTo out)
    have hlt := (Array.getElem?_eq_some_iff.mp h).1
    simp only [valuesUpTo, length_upTo] at hlt hle hcomplete
    exact ⟨(evaluate p (g.upTo out)).1, by omega,
      Prod.ext rfl (hcomplete.mpr (by omega)), h⟩
  · rintro ⟨values, _, hvalues, hx⟩
    simpa [valuesUpTo, hvalues] using hx

theorem size_valuesUpTo {g : Graph α} {out : Nat} {x : α} (h : g.forward p out = .ok x) :
    (g.valuesUpTo p out).size = out + 1 := by
  obtain ⟨values, hout, hvalues, _⟩ := forward_eq_ok_iff.mp h
  have := size_of_evaluate hvalues
  simp only [length_upTo] at this
  simp only [valuesUpTo, hvalues]; omega

/-- The inputs that a pass reads are there exactly if it is complete. -/
theorem evaluate_isComplete_iff (p : Point α) (nodes : List (Node α)) :
    (evaluate p nodes).2 = true ↔ ∀ i, .input i ∈ nodes → i < p.inputs.length := by
  induction nodes with
  | nil => simp [evaluate]
  | cons node older ih =>
    rcases h : evaluate p older with ⟨before, complete⟩
    simp only [h] at ih
    cases complete with
    | false =>
      have hmissing : ¬ ∀ i, .input i ∈ older → i < p.inputs.length := by simpa using ih
      simp only [evaluate, h, Bool.false_eq_true, false_iff]
      exact fun all => hmissing fun i hi => all i (List.mem_cons_of_mem _ hi)
    | true =>
      have hthere : ∀ i, .input i ∈ older → i < p.inputs.length := by simpa using ih
      cases node with
      | input i =>
        cases hx : p.inputs[i]? with
        | none =>
          have := List.getElem?_eq_none_iff.mp hx
          simp only [evaluate, h, Node.value?, hx, Bool.false_eq_true, false_iff]
          exact fun all => absurd (all i List.mem_cons_self) (by omega)
        | some x =>
          have := (List.getElem?_eq_some_iff.mp hx).1
          simp only [evaluate, h, Node.value?, hx, true_iff, List.mem_cons, Node.input.injEq]
          rintro j (rfl | hj)
          · exact this
          · exact hthere j hj
      | const x => simpa [evaluate, h, Node.value?] using hthere
      | slot name default => simpa [evaluate, h, Node.value?] using hthere
      | apply op operands => simpa [evaluate, h, Node.value?] using hthere

end DiagramLayout.Graph

namespace DiagramLayout

@[simp] theorem Node.size_spread {α : Type} [Scalar α] (values : Array α) (out adjoint : α)
    (node : Node α) (adjoints : Array α) :
    (node.spread values out adjoint adjoints).size = adjoints.size := by
  cases node with
  | apply op operands =>
    simp only [Node.spread]
    generalize operands.zip _ = edges
    induction edges generalizing adjoints with
    | nil => rfl
    | cons edge edges ih =>
      rw [List.foldl_cons, ih]
      split <;> simp
  | _ => rfl

end DiagramLayout
