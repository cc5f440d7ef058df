import DiagramLayout.Proofs.Graph.Growth

/-!
# What a node expresses

The nodes under a node form an expression. In a graph whose operands are older than their nodes every
node has exactly one, and it stays the same while the graph grows.
-/

namespace DiagramLayout

variable {α : Type}

/-- An expression without sharing. -/
inductive Expression (α : Type) where
  | const (x : α)
  | input (index : Nat)
  | slot (name : String) (default : α)
  | apply (op : Op) (operands : List (Expression α))

namespace Graph

/-- The node with a number expresses what its operands do, put together by its operation. -/
inductive Expresses (g : Graph α) : Nat → Expression α → Prop where
  | const {i : Nat} {x : α} : g.node? i = some (.const x) → Expresses g i (.const x)
  | input {i index : Nat} : g.node? i = some (.input index) → Expresses g i (.input index)
  | slot {i : Nat} {name : String} {default : α} : g.node? i = some (.slot name default) →
      Expresses g i (.slot name default)
  | apply {i : Nat} {op : Op} {operands : List Nat} {es : List (Expression α)} :
      g.node? i = some (.apply op operands) → List.Forall₂ (Expresses g) operands es →
      Expresses g i (.apply op es)

variable {g g' : Graph α} {i : Nat} {e e' : Expression α}

theorem Expresses.lt (h : g.Expresses i e) : i < g.size := by
  cases h with
  | const hnode | input hnode | slot hnode | apply hnode => exact lt_of_node? hnode

theorem exists_node? (hi : i < g.size) : ∃ node, g.node? i = some node := by
  have hplace : g.size - 1 - i < g.nodes.length := by
    rw [size] at hi ⊢
    omega
  rw [node?, if_pos hi, List.getElem?_eq_getElem hplace]
  exact ⟨_, rfl⟩

/-- Every node expresses something, as its operands do. -/
theorem Ordered.exists_expression (hordered : g.Ordered) (hi : i < g.size) : ∃ e, g.Expresses i e := by
  induction i using Nat.strongRecOn with
  | ind i ih =>
    obtain ⟨node, hnode⟩ := exists_node? hi
    cases node with
    | const x => exact ⟨_, .const hnode⟩
    | input index => exact ⟨_, .input hnode⟩
    | slot name default => exact ⟨_, .slot hnode⟩
    | apply op operands =>
      have hoperands : ∀ j ∈ operands, ∃ e, g.Expresses j e ∧ g.Expresses j e := by
        intro j hj
        have hlt := hordered i _ hnode j hj
        obtain ⟨e, he⟩ := ih j hlt (Nat.lt_trans hlt hi)
        exact ⟨e, he, he⟩
      obtain ⟨es, hes, _⟩ := exists_of_forall₂_exists (List.forall₂_same.mpr hoperands)
      exact ⟨_, .apply hnode hes⟩

/-- A node expresses one thing only, as its operands do. -/
theorem Expresses.unique (hordered : g.Ordered) (h : g.Expresses i e) (h' : g.Expresses i e') :
    e = e' := by
  induction i using Nat.strongRecOn generalizing e e' with
  | ind i ih =>
    cases h with
    | const hnode | input hnode | slot hnode =>
      cases h' with
      | const hnode' | input hnode' | slot hnode' | apply hnode' =>
        cases hnode.symm.trans hnode' <;> rfl
    | @apply _ op operands es hnode hes =>
      cases h' with
      | const hnode' | input hnode' | slot hnode' => cases hnode.symm.trans hnode'
      | @apply _ _ _ es' hnode' hes' =>
        cases hnode.symm.trans hnode'
        have hbelow := hordered i _ hnode
        refine congrArg (Expression.apply op) ?_
        clear hnode hnode'
        induction hes generalizing es' with
        | nil =>
          cases hes'
          rfl
        | cons he _ ihs =>
          cases hes' with
          | cons he' hes' =>
            obtain ⟨hlt, hbelow⟩ := List.forall_mem_cons.mp hbelow
            exact congrArg₂ List.cons (ih _ hlt he he') (ihs hes' hbelow)

mutual

/-- New nodes do not change what older ones express. -/
theorem Expresses.mono (grows : g.Grows g') : ∀ {i : Nat} {e : Expression α}, g.Expresses i e →
    g'.Expresses i e
  | _, _, .const hnode => .const (grows.node? hnode)
  | _, _, .input hnode => .input (grows.node? hnode)
  | _, _, .slot hnode => .slot (grows.node? hnode)
  | _, _, .apply hnode hes => .apply (grows.node? hnode) (Expresses.monos grows hes)

theorem Expresses.monos (grows : g.Grows g') : ∀ {is : List Nat} {es : List (Expression α)},
    List.Forall₂ g.Expresses is es → List.Forall₂ g'.Expresses is es
  | [], _, .nil => .nil
  | _ :: _, _, .cons he hes => .cons (Expresses.mono grows he) (Expresses.monos grows hes)

end

/-- What a node expresses it expresses in every graph that this one grows to, and nothing else. -/
theorem Expresses.iff_of_grows (h : g.Expresses i e) (grows : g.Grows g') (hordered : g'.Ordered)
    (e' : Expression α) : g'.Expresses i e' ↔ e' = e := by
  constructor
  · intro h'
    exact h'.unique hordered (h.mono grows)
  · rintro rfl
    exact h.mono grows

end Graph

end DiagramLayout
