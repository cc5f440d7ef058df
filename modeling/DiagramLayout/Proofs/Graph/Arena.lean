import DiagramLayout.Proofs.Graph.Recorded

/-!
# The lists and tables of a graph

A graph can be read as an arena: parallel lists with the oldest node first, and a table of the inputs
and one of the slots. An arena has a push of its own, which keeps the lists of one length and the tables
exact. A new node of a graph is such a push (`Graph.arena_push`), so the arena of a graph is what pushes
have made of an empty one.
-/

namespace DiagramLayout

variable {α κ : Type}

/-- What a node is apart from its operands and its data. -/
inductive NodeKind where
  | const
  | input
  | slot
  | operation (op : Op)

/-- The data of a node. -/
inductive Payload (α : Type) where
  | nothing
  | number (x : α)
  | index (i : Nat)
  | named (name : String) (default : α)

namespace Node

def kind : Node α → NodeKind
  | const _ => .const
  | input _ => .input
  | slot .. => .slot
  | apply op _ => .operation op

def payload : Node α → Payload α
  | const x => .number x
  | input index => .index index
  | slot name default => .named name default
  | apply .. => .nothing

/-- The numbers of the nodes that have a key, the oldest first. -/
def table (key : Node α → Option κ) : List (Node α) → List (κ × Nat)
  | [] => []
  | node :: older => table key older ++ ((key node).map fun k => (k, older.length)).toList

end Node

/-- Nodes in lists of one length, and tables that name the nodes of inputs and slots. -/
structure Arena (α : Type) where
  kinds : List NodeKind
  operands : List (List Nat)
  payloads : List (Payload α)
  inputs : List (Nat × Nat)
  slots : List (String × Nat)

/-- The lists and the tables of a graph. -/
def Graph.arena (g : Graph α) : Arena α where
  kinds := g.nodes.reverse.map Node.kind
  operands := g.nodes.reverse.map Node.operands
  payloads := g.nodes.reverse.map Node.payload
  inputs := Node.table Node.input? g.nodes
  slots := Node.table Node.slot? g.nodes

namespace Arena

/-- The lists and tables of no nodes. -/
def empty : Arena α := ⟨[], [], [], [], []⟩

/-- A new node, found under its input or its slot from now on. -/
def push (a : Arena α) (node : Node α) : Arena α where
  kinds := a.kinds ++ [node.kind]
  operands := a.operands ++ [node.operands]
  payloads := a.payloads ++ [node.payload]
  inputs := a.inputs ++ (node.input?.map fun index => (index, a.kinds.length)).toList
  slots := a.slots ++ (node.slot?.map fun name => (name, a.kinds.length)).toList

/-- The node with a number stands for an input. -/
def IsInput (a : Arena α) (i index : Nat) : Prop :=
  a.kinds[i]? = some .input ∧ a.payloads[i]? = some (.index index)

/-- The node with a number stands for a slot. -/
def IsSlot (a : Arena α) (i : Nat) (name : String) : Prop :=
  a.kinds[i]? = some .slot ∧ ∃ default, a.payloads[i]? = some (.named name default)

/-- The lists have one length, operands are older than their node and as many as it takes, and the
tables have exactly one node for each input and each slot. -/
structure Consistent (a : Arena α) : Prop where
  operands_length : a.operands.length = a.kinds.length
  payloads_length : a.payloads.length = a.kinds.length
  older : ∀ (i : Nat) operands, a.operands[i]? = some operands → ∀ j ∈ operands, j < i
  takes : ∀ (i : Nat) op operands, a.kinds[i]? = some (.operation op) → a.operands[i]? = some operands →
    op.Takes operands.length
  input_unique : ∀ i j index, a.IsInput i index → a.IsInput j index → i = j
  slot_unique : ∀ i j name, a.IsSlot i name → a.IsSlot j name → i = j
  inputs_exact : ∀ index i, a.inputs.lookup index = some i ↔ a.IsInput i index
  slots_exact : ∀ name i, a.slots.lookup name = some i ↔ a.IsSlot i name

/-- A count is one more than the greatest input that a node stands for, or zero. -/
def Counts (a : Arena α) (count : Nat) : Prop :=
  (∀ i index, a.IsInput i index → index < count) ∧ (count = 0 ∨ ∃ i, a.IsInput i (count - 1))

/-- An arena with new nodes, and new entries of its tables, behind the old ones. -/
structure Extends (a a' : Arena α) : Prop where
  kinds : a.kinds <+: a'.kinds
  operands : a.operands <+: a'.operands
  payloads : a.payloads <+: a'.payloads
  inputs : a.inputs <+: a'.inputs
  slots : a.slots <+: a'.slots

end Arena

/-! ## Pushes -/

namespace Arena

variable {a b : Arena α} {node : Node α}

/-- A node may be pushed if its operands are there, as many as it takes, and if no node stands for its
input or its slot yet. -/
structure Admits (a : Arena α) (node : Node α) : Prop where
  older : ∀ j ∈ node.operands, j < a.kinds.length
  takes : ∀ op, node.kind = .operation op → op.Takes node.operands.length
  input_new : ∀ index, node.input? = some index → a.inputs.lookup index = none
  slot_new : ∀ name, node.slot? = some name → a.slots.lookup name = none

/-- Arenas that pushes lead to. -/
inductive Leads : Arena α → Arena α → Prop where
  | refl (a : Arena α) : Leads a a
  | push {a b : Arena α} {node : Node α} : Leads a b → b.Admits node → Leads a (b.push node)

theorem getElem?_concat {β : Type} (l : List β) (x : β) (i : Nat) :
    (l ++ [x])[i]? = if i = l.length then some x else l[i]? := by
  split
  · next hi => rw [hi, List.getElem?_concat_length]
  · grind

/-- A pushed node stands for its input beside those that stood for theirs. -/
theorem isInput_push (h : a.Consistent) (i index : Nat) : (a.push node).IsInput i index ↔
    a.IsInput i index ∨ i = a.kinds.length ∧ node.input? = some index := by
  rw [IsInput, IsInput, push, getElem?_concat, getElem?_concat, h.payloads_length]
  by_cases hi : i = a.kinds.length
  · subst hi
    cases node <;> simp [Node.kind, Node.payload, Node.input?]
  · simp [hi]

theorem isSlot_push (h : a.Consistent) (i : Nat) (name : String) : (a.push node).IsSlot i name ↔
    a.IsSlot i name ∨ i = a.kinds.length ∧ node.slot? = some name := by
  rw [IsSlot, IsSlot, push, getElem?_concat, getElem?_concat, h.payloads_length]
  by_cases hi : i = a.kinds.length
  · subst hi
    cases node <;> simp [Node.kind, Node.payload, Node.slot?]
  · simp [hi]

theorem consistent_empty : (empty : Arena α).Consistent := by
  constructor <;> simp [empty, IsInput, IsSlot]

/-- An entry for a new key leaves a table exact. -/
theorem lookup_push [DecidableEq κ] {table : List (κ × Nat)} {P : Nat → κ → Prop}
    (exact : ∀ k i, table.lookup k = some i ↔ P i k) {key : Option κ}
    (fresh : ∀ k, key = some k → table.lookup k = none) (n : Nat) (k : κ) (i : Nat) :
    (table ++ (key.map fun k => (k, n)).toList).lookup k = some i ↔
      P i k ∨ i = n ∧ key = some k := by
  rw [List.lookup_append, ← exact]
  cases key with
  | none => simp
  | some k' =>
    by_cases hk : k = k'
    · subst hk
      simp [fresh k rfl, eq_comm]
    · simp [List.lookup_cons, beq_false_of_ne hk, Ne.symm hk]

/-- A push keeps the lists of one length and the tables exact. -/
theorem Consistent.push (h : a.Consistent) (admits : a.Admits node) : (a.push node).Consistent := by
  have hinputs : ∀ index i,
      (a.push node).inputs.lookup index = some i ↔ (a.push node).IsInput i index := fun index i =>
    (lookup_push h.inputs_exact admits.input_new _ _ _).trans (isInput_push h i index).symm
  have hslots : ∀ name i,
      (a.push node).slots.lookup name = some i ↔ (a.push node).IsSlot i name := fun name i =>
    (lookup_push h.slots_exact admits.slot_new _ _ _).trans (isSlot_push h i name).symm
  refine ⟨by simp [Arena.push, h.operands_length], by simp [Arena.push, h.payloads_length], ?_, ?_, ?_,
    ?_, hinputs, hslots⟩
  · intro i operands hi j hj
    rw [Arena.push, getElem?_concat, h.operands_length] at hi
    split at hi
    · next hlast =>
      cases hi
      exact hlast ▸ admits.older j hj
    · exact h.older i operands hi j hj
  · intro i op operands hkind hi
    rw [Arena.push, getElem?_concat, h.operands_length] at hi
    rw [Arena.push, getElem?_concat] at hkind
    split at hi
    · next hlast =>
      rw [if_pos hlast] at hkind
      cases hi
      exact admits.takes op (Option.some.inj hkind)
    · next hlast =>
      rw [if_neg hlast] at hkind
      exact h.takes i op operands hkind hi
  · intro i j index hi hj
    exact Option.some.inj (((hinputs index i).mpr hi).symm.trans ((hinputs index j).mpr hj))
  · intro i j name hi hj
    exact Option.some.inj (((hslots name i).mpr hi).symm.trans ((hslots name j).mpr hj))

theorem extends_push (a : Arena α) (node : Node α) : a.Extends (a.push node) where
  kinds := List.prefix_append _ _
  operands := List.prefix_append _ _
  payloads := List.prefix_append _ _
  inputs := List.prefix_append _ _
  slots := List.prefix_append _ _

namespace Leads

theorem consistent (h : a.Leads b) (ha : a.Consistent) : b.Consistent := by
  induction h with
  | refl => exact ha
  | push _ admits ih => exact ih.push admits

theorem extends_of (h : a.Leads b) : a.Extends b := by
  induction h with
  | refl =>
    exact ⟨List.prefix_refl _, List.prefix_refl _, List.prefix_refl _, List.prefix_refl _,
      List.prefix_refl _⟩
  | @push b node _ _ ih =>
    have hpush := b.extends_push node
    exact ⟨ih.kinds.trans hpush.kinds, ih.operands.trans hpush.operands,
      ih.payloads.trans hpush.payloads, ih.inputs.trans hpush.inputs, ih.slots.trans hpush.slots⟩

end Leads

end Arena

/-! ## Graphs as arenas -/

namespace Graph

variable {g g' : Graph α}

/-- A new node of a graph is a push: the arena of the graph goes where the push leads. -/
theorem arena_push (g : Graph α) (node : Node α) : (g.push node).2.arena = g.arena.push node := by
  simp [arena, Arena.push, push, Node.table]

theorem getElem?_reverse_nodes (g : Graph α) (i : Nat) : g.nodes.reverse[i]? = g.node? i := by
  rw [node?]
  split
  · next hi => exact List.getElem?_reverse hi
  · next hi => exact List.getElem?_eq_none (by rw [List.length_reverse]; exact Nat.le_of_not_lt hi)

theorem mem_nodes_iff {node : Node α} : node ∈ g.nodes ↔ ∃ i, g.node? i = some node := by
  simp only [← getElem?_reverse_nodes, ← List.mem_iff_getElem?, List.mem_reverse]

theorem arena_kind (g : Graph α) (i : Nat) : g.arena.kinds[i]? = (g.node? i).map Node.kind := by
  rw [arena, List.getElem?_map, getElem?_reverse_nodes]

theorem arena_payload (g : Graph α) (i : Nat) :
    g.arena.payloads[i]? = (g.node? i).map Node.payload := by
  rw [arena, List.getElem?_map, getElem?_reverse_nodes]

theorem isInput_iff {i index : Nat} : g.arena.IsInput i index ↔
    ∃ node, g.node? i = some node ∧ node.input? = some index := by
  rw [Arena.IsInput, arena_kind, arena_payload]
  cases g.node? i with
  | none => simp
  | some node => cases node <;> simp [Node.kind, Node.payload, Node.input?]

theorem isSlot_iff {i : Nat} {name : String} : g.arena.IsSlot i name ↔
    ∃ node, g.node? i = some node ∧ node.slot? = some name := by
  rw [Arena.IsSlot, arena_kind, arena_payload]
  cases g.node? i with
  | none => simp
  | some node => cases node <;> simp [Node.kind, Node.payload, Node.slot?]

/-- What a search for the newest node with a key finds is what an exact table has. -/
theorem find?_eq_lookup [DecidableEq κ] {key : Node α → Option κ} {table : List (κ × Nat)}
    (exact : ∀ k i, table.lookup k = some i ↔ ∃ node, g.node? i = some node ∧ key node = some k) (k : κ) :
    Node.find? (fun node => key node == some k) g.nodes = table.lookup k := by
  cases hfind : Node.find? (fun node => key node == some k) g.nodes with
  | some i =>
    obtain ⟨node, older, hs, hkey, hi⟩ := Node.find?_eq_some hfind
    exact ((exact k i).mpr ⟨node, node?_eq_some_iff.mpr ⟨older, hs, hi⟩, eq_of_beq hkey⟩).symm
  | none =>
    symm
    rw [Option.eq_none_iff_forall_ne_some]
    intro i hi
    obtain ⟨node, hnode, hkey⟩ := (exact k i).mp hi
    have hnone := Node.find?_eq_none hfind node (mem_nodes_iff.mpr ⟨i, hnode⟩)
    rw [hkey, beq_self_eq_true] at hnone
    cases hnone

/-- The search for the node of an input is the one in the table. -/
theorem find?_input (h : g.arena.Consistent) (index : Nat) :
    Node.find? (·.input? == some index) g.nodes = g.arena.inputs.lookup index :=
  find?_eq_lookup (fun index i => (h.inputs_exact index i).trans isInput_iff) index

theorem find?_slot (h : g.arena.Consistent) (name : String) :
    Node.find? (·.slot? == some name) g.nodes = g.arena.slots.lookup name :=
  find?_eq_lookup (fun name i => (h.slots_exact name i).trans isSlot_iff) name

/-- A node that fits on top of a graph may be pushed on its arena. -/
theorem arena_admits (h : g.arena.Consistent) {node : Node α} (fits : node.Fits g.nodes) :
    g.arena.Admits node := by
  have hlength : g.arena.kinds.length = g.nodes.length := by simp [arena]
  refine ⟨fun j hj => ?_, fun op hop => ?_, fun index hkey => ?_, fun name hkey => ?_⟩
  · cases node with
    | apply op operands => exact hlength ▸ fits.1 j hj
    | _ => cases hj
  · cases node with
    | apply op' operands =>
      obtain rfl : op' = op := NodeKind.operation.inj hop
      exact fits.2
    | _ => cases hop
  · cases node with
    | input i =>
      obtain rfl := Option.some.inj hkey
      rw [Option.eq_none_iff_forall_ne_some]
      intro i hi
      obtain ⟨node, hnode, hkey⟩ := isInput_iff.mp ((h.inputs_exact _ i).mp hi)
      exact fits node (mem_nodes_iff.mpr ⟨i, hnode⟩) hkey
    | _ => cases hkey
  · cases node with
    | slot name' default =>
      obtain rfl := Option.some.inj hkey
      rw [Option.eq_none_iff_forall_ne_some]
      intro i hi
      obtain ⟨node, hnode, hkey⟩ := isSlot_iff.mp ((h.slots_exact _ i).mp hi)
      exact fits node (mem_nodes_iff.mpr ⟨i, hnode⟩) hkey
    | _ => cases hkey

/-- The arena of a graph goes along with the graph, by one push for each new node. -/
theorem Grows.arena_leads (h : g.Grows g') (wellFormed : g'.WellFormed) (ha : g.arena.Consistent) :
    g.arena.Leads g'.arena := by
  obtain ⟨number, nodes⟩ := g'
  obtain ⟨rfl, newer, rfl⟩ := h
  induction newer with
  | nil => exact .refl _
  | cons node newer ih =>
    have hrest := ih fun node' older hs => wellFormed node' older (hs.trans (List.suffix_cons node _))
    have fits : node.Fits (newer ++ g.nodes) := wellFormed node _ (List.suffix_refl _)
    have hpush := arena_push ⟨g.number, newer ++ g.nodes⟩ node
    exact hpush.symm ▸ hrest.push (arena_admits (hrest.consistent ha) fits)

theorem WellFormed.arena_pushed (h : g.WellFormed) : Arena.empty.Leads g.arena := by
  have grows : ({ number := g.number } : Graph α).Grows g := ⟨rfl, List.nil_suffix⟩
  exact grows.arena_leads h Arena.consistent_empty

theorem WellFormed.arena_consistent (h : g.WellFormed) : g.arena.Consistent :=
  h.arena_pushed.consistent Arena.consistent_empty

/-- Nothing is changed or removed while a graph grows. -/
theorem Grows.arena_extends (h : g.Grows g') (wellFormed : g'.WellFormed) :
    g.arena.Extends g'.arena := by
  have hg : g.WellFormed := fun node older hs => wellFormed node older (hs.trans h.nodes)
  exact (h.arena_leads wellFormed hg.arena_consistent).extends_of

/-- The names in the table of slots are those that the graph lists. -/
theorem keys_table (key : Node α → Option κ) (nodes : List (Node α)) :
    (Node.table key nodes).map Prod.fst = (nodes.filterMap key).reverse := by
  induction nodes with
  | nil => rfl
  | cons node older ih =>
    rw [Node.table, List.map_append, ih, List.filterMap_cons]
    cases key node <;> simp

theorem foldl_count (is : List Nat) (count : Nat) :
    (∀ i ∈ is, i < is.foldl (fun n i => max n (i + 1)) count) ∧
      count ≤ is.foldl (fun n i => max n (i + 1)) count ∧
      (is.foldl (fun n i => max n (i + 1)) count = count ∨
        is.foldl (fun n i => max n (i + 1)) count - 1 ∈ is) := by
  induction is generalizing count with
  | nil => simp
  | cons i is ih =>
    obtain ⟨hall, hle, hsome⟩ := ih (max count (i + 1))
    rw [List.foldl_cons, List.forall_mem_cons, List.mem_cons]
    refine ⟨⟨by omega, hall⟩, by omega, ?_⟩
    rcases hsome with hsame | hmem
    · omega
    · exact .inr (.inr hmem)

theorem arena_counts (g : Graph α) : g.arena.Counts g.inputCount := by
  obtain ⟨hall, _, hsome⟩ := foldl_count (g.nodes.filterMap Node.input?) 0
  have hmem : ∀ index, index ∈ g.nodes.filterMap Node.input? ↔ ∃ i, g.arena.IsInput i index := by
    intro index
    simp only [List.mem_filterMap, isInput_iff, mem_nodes_iff]
    constructor
    · rintro ⟨node, ⟨i, hnode⟩, hkey⟩
      exact ⟨i, node, hnode, hkey⟩
    · rintro ⟨i, node, hnode, hkey⟩
      exact ⟨node, ⟨i, hnode⟩, hkey⟩
  constructor
  · intro i index hi
    exact hall index ((hmem index).mpr ⟨i, hi⟩)
  · exact hsome.imp_right fun h => (hmem _).mp h

/-- The lists and tables of a graph are what pushes have made of empty ones. They are consistent, and what
the graph looks up, lists and counts is what they say. -/
structure Arranged (g : Graph α) : Prop where
  pushed : Arena.empty.Leads g.arena
  consistent : g.arena.Consistent
  counts : g.arena.Counts g.inputCount
  finds_input : ∀ index, Node.find? (·.input? == some index) g.nodes = g.arena.inputs.lookup index
  finds_slot : ∀ name, Node.find? (·.slot? == some name) g.nodes = g.arena.slots.lookup name
  slotNames : g.slotNames = g.arena.slots.map Prod.fst

theorem WellFormed.arranged (h : g.WellFormed) : g.Arranged where
  pushed := h.arena_pushed
  consistent := h.arena_consistent
  counts := arena_counts g
  finds_input := find?_input h.arena_consistent
  finds_slot := find?_slot h.arena_consistent
  slotNames := (keys_table Node.slot? g.nodes).symm

end Graph

end DiagramLayout
