import DiagramLayout.Proofs.Graph.Growth
import DiagramLayout.Formula.Basic
import DiagramLayout.Term.Binding

/-!
# What recordings add to a graph

One lemma for each recording: that it keeps a graph sound, and which nodes its result names.

* `Graph.Stands`: the node that a value has when it is an operand; `Graph.Lifted`: a lifted value;
* `Graph.Computed`: the result of an operation, a node over the operands' nodes or a number;
* `Graph.Bound`: an argument of a term on a graph;
* `Graph.lift_keeps`, `Graph.operate_keeps`, `Graph.bindArguments_keeps`: the recordings;
* `Formula.record_keeps`: a formula that treats handles alike.
-/

namespace DiagramLayout

variable {α β γ : Type}

theorem Node.find?_eq_none {p : Node α → Bool} {nodes : List (Node α)} (h : find? p nodes = none) :
    ∀ node ∈ nodes, p node = false := by
  induction nodes with
  | nil => intro node hnode; cases hnode
  | cons head older ih =>
    unfold find? at h
    split at h
    · cases h
    · next hp =>
      intro node hnode
      rcases List.mem_cons.mp hnode with rfl | hnode
      · simpa using hp
      · exact ih h node hnode

namespace Graph

variable {inputs : Nat → Prop} {g : Graph α}

theorem known_handle {i : Nat} (h : i < g.size) : Value.Known g (.handle (g.handle i)) :=
  .handle trivial ⟨rfl, fun _ => h⟩

theorem Grows.handle {g g' : Graph α} (h : g.Grows g') (i : Nat) : g'.handle i = g.handle i := by
  rw [Graph.handle, Graph.handle, h.number]

/-! ## Inputs and slots -/

/-- An input has one node: the one that is there, or a new one. -/
theorem input_cases (g : Graph α) (index : Nat) :
    (∃ older, .input index :: older <:+ g.nodes ∧
      g.input index = (g.handle older.length, g)) ∨
    ((∀ node ∈ g.nodes, node.input? ≠ some index) ∧ g.input index = g.push (.input index)) := by
  unfold input
  split
  · next i hfind =>
    obtain ⟨node, older, hs, hnode, rfl⟩ := Node.find?_eq_some hfind
    cases node with
    | input j =>
      obtain rfl : j = index := by simpa [Node.input?] using hnode
      exact .inl ⟨older, hs, rfl⟩
    | _ => simp [Node.input?] at hnode
  · next hfind =>
    exact .inr ⟨fun node hnode => by simpa using Node.find?_eq_none hfind node hnode, rfl⟩

/-- A slot has one node: the one that is there, or a new one. -/
theorem slot_cases (g : Graph α) (name : String) (default : α) :
    (∃ older default', .slot name default' :: older <:+ g.nodes ∧
      g.slot name default = (g.handle older.length, g)) ∨
    ((∀ node ∈ g.nodes, node.slot? ≠ some name) ∧
      g.slot name default = g.push (.slot name default)) := by
  unfold slot
  split
  · next i hfind =>
    obtain ⟨node, older, hs, hnode, rfl⟩ := Node.find?_eq_some hfind
    cases node with
    | slot name' default' =>
      obtain rfl : name' = name := by simpa [Node.slot?] using hnode
      exact .inl ⟨older, default', hs, rfl⟩
    | _ => simp [Node.slot?] at hnode
  · next hfind =>
    exact .inr ⟨fun node hnode => by simpa using Node.find?_eq_none hfind node hnode, rfl⟩

theorem on_record (node : Node α) (g : Graph α) :
    (record node).on g = (.ok (g.handle g.size), (g.push node).2) := rfl

theorem on_own (h : Handle) (g : Graph α) :
    (own h : Recording α Handle).on g =
      if h.graph = g.number then (.ok h, g) else (.error (.violated .ownHandle), g) := by
  by_cases hown : h.graph = g.number <;>
    simp [own, Recording.on, ExceptT.mk, ExceptT.run, StateT.run, hown]

theorem on_recordInput (index : Int) (g : Graph α) :
    (recordInput index).on g =
      if index < 0 then (.error (.violated .inputIndex), g)
      else (.ok (.handle (g.input index.toNat).1), (g.input index.toNat).2) := by
  by_cases hneg : index < 0 <;>
    simp [recordInput, Recording.on, ExceptT.mk, ExceptT.run, StateT.run, hneg]

/-- A handle of the graph names a certain node. -/
def Names (g : Graph α) (h : Handle) (node : Node α) : Prop :=
  ∃ i, h = g.handle i ∧ g.node? i = some node

theorem Names.known {h : Handle} {node : Node α} (names : g.Names h node) :
    Value.Known g (.handle h) := by
  obtain ⟨i, rfl, hnode⟩ := names
  exact known_handle (lt_of_node? hnode)

theorem Names.mono {g' : Graph α} (grows : g.Grows g') {h : Handle} {node : Node α}
    (names : g.Names h node) : g'.Names h node := by
  obtain ⟨i, rfl, hnode⟩ := names
  exact ⟨i, (grows.handle i).symm, grows.node? hnode⟩

theorem record_keeps (sound : g.Sound inputs) (node : Node α) (fits : node.Fits g.nodes)
    (allowed : ∀ i, node = .input i → inputs i) :
    (record node).Keeps inputs g fun g' h => g'.Names h node :=
  .of_on (on_record node g) (sound.push fits allowed) (grows_push g node)
    fun _ hh => ⟨g.size, (Except.ok.inj hh).symm, node?_push g node⟩

theorem record_const_keeps (sound : g.Sound inputs) (x : α) :
    (record (.const x)).Keeps inputs g fun g' h => g'.Names h (.const x) :=
  record_keeps sound _ trivial fun _ h => nomatch h

theorem input_sound (sound : g.Sound inputs) {index : Nat} (allowed : inputs index) :
    (g.input index).2.Sound inputs ∧ g.Grows (g.input index).2 ∧
      (g.input index).2.Names (g.input index).1 (.input index) := by
  rcases g.input_cases index with ⟨older, hs, hinput⟩ | ⟨fresh, hinput⟩
  · rw [hinput]
    exact ⟨sound, .refl g, older.length, rfl, node?_of_suffix hs⟩
  · rw [hinput]
    refine ⟨sound.push fresh ?_, grows_push g _, g.size, rfl, node?_push g _⟩
    intro i hi
    exact Node.input.inj hi ▸ allowed

theorem slot_sound (sound : g.Sound inputs) (name : String) (default : α) :
    (g.slot name default).2.Sound inputs ∧ g.Grows (g.slot name default).2 ∧
      ∃ default', (g.slot name default).2.Names (g.slot name default).1 (.slot name default') := by
  rcases g.slot_cases name default with ⟨older, default', hs, hslot⟩ | ⟨fresh, hslot⟩
  · rw [hslot]
    exact ⟨sound, .refl g, default', older.length, rfl, node?_of_suffix hs⟩
  · rw [hslot]
    exact ⟨sound.push fresh fun i hi => (nomatch hi), grows_push g _, default, g.size, rfl,
      node?_push g _⟩

theorem recordInput_keeps (sound : g.Sound inputs) {index : Int}
    (allowed : 0 ≤ index → inputs index.toNat) :
    (recordInput index).Keeps inputs g fun g' w =>
      0 ≤ index ∧ ∃ h, w = .handle h ∧ g'.Names h (.input index.toNat) := by
  by_cases hneg : index < 0
  · exact .of_on (by rw [on_recordInput, if_pos hneg]) sound (.refl g) fun _ hb => by cases hb
  · obtain ⟨sound', grows, names⟩ := input_sound sound (allowed (by omega))
    refine .of_on (by rw [on_recordInput, if_neg hneg]) sound' grows ?_
    intro b hb
    exact ⟨by omega, _, (Except.ok.inj hb).symm, names⟩

variable [Scalar α]

theorem on_recordSlot (name : String) (default : Value α) (g : Graph α) :
    (recordSlot name default).on g =
      match Node.find? (·.slot? == some name) g.nodes with
      | some i => (.ok (.handle (g.handle i)), g)
      | none =>
        match default.toNumber with
        | .ok x => (.ok (.handle (g.slot name x).1), (g.slot name x).2)
        | .error e => (.error e, g) := rfl

theorem recordSlot_keeps (sound : g.Sound inputs) (name : String) (default : Value α) :
    (recordSlot name default).Keeps inputs g fun g' w =>
      ∃ h default', w = .handle h ∧ g'.Names h (.slot name default') := by
  have hon := on_recordSlot name default g
  cases hfind : Node.find? (·.slot? == some name) g.nodes with
  | some i =>
    refine .of_on (by rw [hon, hfind]) sound (.refl g) ?_
    intro b hb
    obtain ⟨node, older, hs, hnode, rfl⟩ := Node.find?_eq_some hfind
    cases node with
    | slot name' default' =>
      obtain rfl : name' = name := by simpa [Node.slot?] using hnode
      exact ⟨_, default', (Except.ok.inj hb).symm, older.length, rfl, node?_of_suffix hs⟩
    | _ => simp [Node.slot?] at hnode
  | none =>
    cases hx : default.toNumber with
    | error e => exact .of_on (by rw [hon, hfind, hx]) sound (.refl g) fun _ hb => by cases hb
    | ok x =>
      obtain ⟨sound', grows, default', names⟩ := slot_sound sound name x
      refine .of_on (by rw [hon, hfind, hx]) sound' grows ?_
      intro b hb
      exact ⟨_, default', (Except.ok.inj hb).symm, names⟩

end Graph

/-! ## Lifting -/

/-- Whether a value becomes a constant when it is lifted. -/
def Value.isConstant : Value α → Bool
  | number _ | integer _ | truth _ => true
  | _ => false

namespace Graph

variable {inputs : Nat → Prop} {g : Graph α} [Scalar α]

/-- A value stands in a graph as the node with a number: a handle as its own, a number as a
constant. -/
inductive Stands (g : Graph α) : Value α → Nat → Prop where
  | handle {h : Handle} : h.graph = g.number → h.node < g.size → Stands g (.handle h) h.node
  | const {v : Value α} {x : α} {i : Nat} : v.isConstant = true → v.toNumber = .ok x →
      g.node? i = some (.const x) → Stands g v i

/-- A lifted value: the handle of the node that it stands as, or a list. -/
inductive Lifted (g : Graph α) : Value α → Value α → Prop where
  | node {v : Value α} {i : Nat} : g.Stands v i → Lifted g v (.handle (g.handle i))
  | list {vs ws : List (Value α)} : Value.AllKnown g ws → Lifted g (.list vs) (.list ws)

theorem Stands.lt {v : Value α} {i : Nat} (h : g.Stands v i) : i < g.size := by
  cases h with
  | handle _ hlt => exact hlt
  | const _ _ hnode => exact lt_of_node? hnode

theorem Stands.mono {g' : Graph α} (grows : g.Grows g') {v : Value α} {i : Nat}
    (h : g.Stands v i) : g'.Stands v i := by
  cases h with
  | handle own hlt =>
    exact .handle (own.trans grows.number.symm) (Nat.lt_of_lt_of_le hlt grows.size_le)
  | const constant hx hnode => exact .const constant hx (grows.node? hnode)

theorem Lifted.mono {g' : Graph α} (grows : g.Grows g') {v w : Value α} (h : g.Lifted v w) :
    g'.Lifted v w := by
  cases h with
  | @node _ i h => exact grows.handle i ▸ .node (h.mono grows)
  | list known => exact .list (Value.AgreeAll.mono grows.knows known)

theorem Lifted.known {v w : Value α} (h : g.Lifted v w) : Value.Known g w := by
  cases h with
  | node h => exact known_handle h.lt
  | list known => exact .list known

theorem Lifted.const {v : Value α} {x : α} {h : Handle} (constant : v.isConstant = true)
    (hx : v.toNumber = .ok x) (names : g.Names h (.const x)) : g.Lifted v (.handle h) := by
  obtain ⟨i, rfl, hnode⟩ := names
  exact .node (.const constant hx hnode)

theorem own_keeps (sound : g.Sound inputs) {h : Handle} (known : Value.Known g (.handle h)) :
    (own h : Recording α Handle).Keeps inputs g fun g' w => g'.Lifted (.handle h) (.handle w) := by
  by_cases hown : h.graph = g.number
  · refine .of_on (by rw [on_own, if_pos hown]) sound (.refl g) ?_
    intro w hw
    rw [← Except.ok.inj hw]
    cases known with
    | handle _ hknown =>
      have hhandle : h = g.handle h.node := by rw [Graph.handle, ← hown]
      have hstands : g.Stands (.handle h) h.node := .handle hown (hknown.2 hown)
      have hlifted := Lifted.node hstands
      rwa [← hhandle] at hlifted
  · exact .of_on (by rw [on_own, if_neg hown]) sound (.refl g) fun _ hw => by cases hw

theorem recordConst_keeps (sound : g.Sound inputs) (v : Value α) :
    (recordConst v).Keeps inputs g fun g' w =>
      ∃ h x, w = .handle h ∧ v.toNumber = .ok x ∧ g'.Names h (.const x) := by
  refine .bind_ofExcept sound ?_
  intro x hx
  exact (record_const_keeps sound x).bind fun g' h sound' _ names =>
    .pure sound' ⟨h, x, rfl, hx, names⟩

mutual

theorem lift_keeps {g : Graph α} (sound : g.Sound inputs) :
    ∀ {v : Value α}, Value.Known g v → (lift v).Keeps inputs g fun g' w => g'.Lifted v w
  | .handle h, known => by
    unfold lift
    exact (own_keeps sound known).bind fun _ _ sound' _ lifted => .pure sound' lifted
  | .list vs, .list known => by
    unfold lift
    refine (liftAll_keeps sound known).bind ?_
    intro g' ws sound' _ lifted
    refine .pure sound' (.list ?_)
    exact List.forall₂_same.mpr (forall_right_of_forall₂ lifted fun _ _ h => h.known)
  | .number x, _ => by
    unfold lift
    exact (record_const_keeps sound x).bind fun _ _ sound' _ names =>
      .pure sound' (.const rfl rfl names)
  | .integer n, _ => (recordConst_keeps sound _).mono
    fun _ _ ⟨_, _, hw, hx, names⟩ => hw ▸ .const rfl hx names
  | .truth b, _ => (recordConst_keeps sound _).mono
    fun _ _ ⟨_, _, hw, hx, names⟩ => hw ▸ .const rfl hx names
  | .text s, _ => .throw sound _
  | .absent, _ => .throw sound _
  | .varying i, _ => .throw sound _

theorem liftAll_keeps {g : Graph α} (sound : g.Sound inputs) :
    ∀ {vs : List (Value α)}, Value.AllKnown g vs →
      (liftAll vs).Keeps inputs g fun g' ws => List.Forall₂ g'.Lifted vs ws
  | [], _ => .pure sound .nil
  | v :: vs, .cons known knowns => by
    unfold liftAll
    refine (lift_keeps sound known).bind ?_
    intro g' w sound' grows lifted
    refine (liftAll_keeps sound' (Value.AgreeAll.mono grows.knows knowns)).bind ?_
    intro g'' ws sound'' grows' lifteds
    exact .pure sound'' (.cons (lifted.mono grows') lifteds)

end

/-- A value that has a node when it is lifted: a handle of the graph, or a number. -/
def Liftable (g : Graph α) (v : Value α) : Prop :=
  (∃ h, v = .handle h ∧ h.graph = g.number ∧ h.node < g.size) ∨
    v.isConstant = true ∧ ∃ x, v.toNumber = .ok x

theorem Liftable.mono {g' : Graph α} (grows : g.Grows g') {v : Value α} (h : g.Liftable v) :
    g'.Liftable v := by
  rcases h with ⟨h, rfl, own, hlt⟩ | constant
  · exact .inl ⟨h, rfl, own.trans grows.number.symm, Nat.lt_of_lt_of_le hlt grows.size_le⟩
  · exact .inr constant

theorem Liftable.known {v : Value α} (h : g.Liftable v) : Value.Known g v := by
  rcases h with ⟨h, rfl, _, hlt⟩ | ⟨constant, _⟩
  · exact .handle trivial ⟨rfl, fun _ => hlt⟩
  · refine .of_isPlain ?_
    cases v with
    | number _ | integer _ | truth _ => rfl
    | _ => cases constant

theorem Names.liftable {h : Handle} {node : Node α} (names : g.Names h node) :
    g.Liftable (.handle h) := by
  obtain ⟨i, rfl, hnode⟩ := names
  exact .inl ⟨_, rfl, rfl, lt_of_node? hnode⟩

/-- What can be an operand on a graph with this number: a handle of it, or a number. -/
def IsOperand (n : Nat) (v : Value α) : Prop :=
  (∃ h : Handle, v = .handle h ∧ h.graph = n) ∨ v.isConstant = true ∧ ∃ x, v.toNumber = .ok x

theorem Liftable.isOperand {v : Value α} (h : g.Liftable v) : IsOperand g.number v :=
  h.imp_left fun ⟨h, hv, own, _⟩ => ⟨h, hv, own⟩

/-- A slot whose default is a number. -/
theorem recordSlot_succeeds (n : Nat) (name : String) (x : α) :
    (recordSlot name (.number x)).Succeeds n (IsOperand n) := by
  intro g hg
  rw [on_recordSlot]
  cases hfind : Node.find? (·.slot? == some name) g.nodes with
  | some i => exact ⟨_, g, rfl, hg, .inl ⟨_, rfl, hg⟩⟩
  | none =>
    have hnew : g.slot name x = g.push (.slot name x) := by rw [slot, hfind]
    exact ⟨_, _, rfl, by rw [hnew]; exact hg, .inl ⟨_, rfl, by rw [hnew]; exact hg⟩⟩

theorem Liftable.isList {v : Value α} (h : g.Liftable v) : v.isList = false := by
  rcases h with ⟨h, rfl, _⟩ | ⟨constant, _⟩
  · rfl
  · cases v with
    | list vs => cases constant
    | _ => rfl

/-- A handle of the graph is lifted to itself. -/
theorem on_lift_handle {h : Handle} (own : h.graph = g.number) :
    (lift (.handle h)).on g = (.ok (.handle h), g) := by
  rw [lift, Recording.on_bind, on_own, if_pos own]
  rfl

/-- An operand is lifted to a handle of the graph. -/
theorem on_lift_of_operand {v : Value α} (h : IsOperand g.number v) :
    ∃ w g', (lift v).on g = (.ok (.handle w), g') ∧ g'.number = g.number ∧ w.graph = g.number ∧
      (g.Liftable v → w.node < g'.size) := by
  rcases h with ⟨handle, rfl, own⟩ | ⟨constant, x, hx⟩
  · refine ⟨handle, g, on_lift_handle own, rfl, own, fun liftable => ?_⟩
    rcases liftable with ⟨_, hhandle, _, hlt⟩ | ⟨constant, _⟩
    · cases hhandle
      exact hlt
    · cases constant
  · refine ⟨g.handle g.size, (g.push (.const x)).2, ?_, rfl, rfl, fun _ => Nat.lt_succ_self _⟩
    cases v with
    | number y =>
      obtain rfl : y = x := Except.ok.inj hx
      rfl
    | integer n => rw [lift, recordConst, hx]; rfl
    | truth b => rw [lift, recordConst, hx]; rfl
    | _ => cases constant

theorem lift_succeeds {n : Nat} {v : Value α} (h : IsOperand n v) :
    (lift v).Succeeds n fun w => ∃ handle : Handle, w = .handle handle ∧ handle.graph = n := by
  rintro g rfl
  obtain ⟨w, g', hon, hnumber, own, _⟩ := on_lift_of_operand h
  exact ⟨_, g', hon, hnumber, w, rfl, own⟩

theorem liftAll_succeeds {n : Nat} {vs : List (Value α)} (h : ∀ v ∈ vs, IsOperand n v) :
    (liftAll vs).Succeeds n fun ws =>
      ∀ w ∈ ws, ∃ handle : Handle, w = .handle handle ∧ handle.graph = n := by
  induction vs with
  | nil => exact .pure fun _ hw => by cases hw
  | cons v vs ih =>
    obtain ⟨hv, hvs⟩ := List.forall_mem_cons.mp h
    rw [liftAll]
    exact (lift_succeeds hv).bind fun w hw => (ih hvs).bind fun ws hws =>
      .pure (List.forall_mem_cons.mpr ⟨hw, hws⟩)

theorem on_liftAll_handles (g : Graph α) (is : List Nat) :
    (liftAll (is.map fun i => .handle (g.handle i))).on g =
      (.ok (is.map fun i => .handle (g.handle i)), g) := by
  induction is with
  | nil => rfl
  | cons i is ih =>
    have own : (g.handle i).graph = g.number := rfl
    rw [List.map_cons, liftAll, Recording.on_bind, on_lift_handle own]
    simp only
    rw [Recording.on_bind, ih]
    rfl

theorem lift_yields (sound : g.Sound inputs) {v : Value α} (h : g.Liftable v) :
    (lift v).Yields inputs g fun g' w => g'.Lifted v w :=
  (lift_keeps sound h.known).yields_of_succeeds (lift_succeeds h.isOperand)

/-! ## Operations -/

omit [Scalar α] in
/-- Node numbers are those of handles, one for each. -/
theorem nodeNumbers_eq_ok_iff {ws : List (Value α)} {numbers : List Nat} :
    nodeNumbers ws = .ok numbers ↔
      List.Forall₂ (fun w i => ∃ h : Handle, w = .handle h ∧ h.node = i) ws numbers := by
  rw [nodeNumbers, mapM_eq_ok_iff]
  constructor
  · exact fun h => h.imp fun w i hw => by cases w <;> simp_all
  · exact fun h => h.imp fun w i hw => by cases w <;> simp_all

omit [Scalar α] in
theorem nodeNumbers_handles (g : Graph α) (is : List Nat) :
    nodeNumbers (is.map fun i => Value.handle (α := α) (g.handle i)) = .ok is := by
  rw [nodeNumbers_eq_ok_iff, List.forall₂_map_left_iff, List.forall₂_same]
  exact fun i _ => ⟨g.handle i, rfl, rfl⟩

theorem stands_of_lifted {vs ws : List (Value α)} {numbers : List Nat}
    (lifted : List.Forall₂ g.Lifted vs ws) (hnumbers : nodeNumbers ws = .ok numbers) :
    List.Forall₂ g.Stands vs numbers := by
  have hnodes := nodeNumbers_eq_ok_iff.mp hnumbers
  clear hnumbers
  induction lifted generalizing numbers with
  | nil => cases hnodes; exact .nil
  | cons h _ ih =>
    cases hnodes with
    | cons hnode hnodes =>
      obtain ⟨handle, rfl, rfl⟩ := hnode
      cases h with
      | node stands => exact .cons stands (ih hnodes)

/-- The result of an operation: a node over those that the operands stand as, or, where no operand
is a handle, a number. -/
inductive Computed (g : Graph α) (op : Op) (vs : List (Value α)) : Value α → Prop where
  | node {numbers : List Nat} {h : Handle} : List.Forall₂ g.Stands vs numbers →
      g.Names h (.apply op numbers) → Computed g op vs (.handle h)
  | folded {xs : List α} : vs.any (·.graph?.isSome) = false → vs.mapM Value.toNumber = .ok xs →
      Computed g op vs (.number (op.eval xs))

theorem recordOperation_keeps (sound : g.Sound inputs) {op : Op} {vs : List (Value α)}
    (takes : op.Takes vs.length) (known : Value.AllKnown g vs) :
    (recordOperation op vs).Keeps inputs g fun g' v => g'.Computed op vs v := by
  refine (liftAll_keeps sound known).bind ?_
  intro g' ws sound' _ lifted
  refine .bind_ofExcept sound' ?_
  intro numbers hnumbers
  have stands := stands_of_lifted lifted hnumbers
  have hfits : (Node.apply op numbers).Fits g'.nodes := by
    constructor
    · exact forall_right_of_forall₂ stands fun _ _ h => h.lt
    · show op.Takes numbers.length
      rwa [← stands.length_eq]
  refine (record_keeps sound' _ hfits fun _ h => nomatch h).bind ?_
  intro g'' h sound'' grows names
  exact .pure sound'' (.node (stands.imp fun _ _ h => h.mono grows) names)

theorem operate_keeps (sound : g.Sound inputs) {op : Op} {vs : List (Value α)}
    (takes : op.Takes vs.length) (known : Value.AllKnown g vs) :
    (operate op vs).Keeps inputs g fun g' v => g'.Computed op vs v := by
  unfold operate
  split
  · exact recordOperation_keeps sound takes known
  · next hplain =>
    refine .of_on (Recording.on_ofExcept _ g) sound (.refl g) ?_
    intro v hv
    obtain ⟨xs, hxs, hv⟩ := bind_eq_ok_iff.mp hv
    cases hv
    exact .folded (by simpa using hplain) hxs

/-- An operation on handles of the graph adds its node, and nothing else. -/
theorem on_operate_handles (g : Graph α) (op : Op) (is : List Nat) (hne : is ≠ []) :
    (operate op (is.map fun i => .handle (g.handle i))).on g =
      (.ok (.handle (g.handle g.size)), (g.push (.apply op is)).2) := by
  have hany : (is.map fun i => Value.handle (α := α) (g.handle i)).any (·.graph?.isSome) := by
    cases is with
    | nil => exact absurd rfl hne
    | cons i is => rfl
  rw [operate, if_pos hany, recordOperation, Recording.on_bind, on_liftAll_handles]
  simp only
  rw [Recording.on_bind, Recording.on_ofExcept, nodeNumbers_handles]
  rfl

omit [Scalar α] in
theorem nodeNumbers_of_handles {ws : List (Value α)} (h : ∀ w ∈ ws, ∃ handle, w = .handle handle) :
    ∃ numbers, nodeNumbers ws = .ok numbers := by
  induction ws with
  | nil => exact ⟨[], rfl⟩
  | cons w ws ih =>
    obtain ⟨⟨handle, rfl⟩, hws⟩ := List.forall_mem_cons.mp h
    obtain ⟨numbers, hnumbers⟩ := ih hws
    rw [nodeNumbers_eq_ok_iff] at hnumbers
    exact ⟨handle.node :: numbers, nodeNumbers_eq_ok_iff.mpr (.cons ⟨handle, rfl, rfl⟩ hnumbers)⟩

theorem recordOperation_succeeds {n : Nat} (op : Op) {vs : List (Value α)}
    (h : ∀ v ∈ vs, IsOperand n v) : (recordOperation op vs).Succeeds n (IsOperand n) := by
  refine (liftAll_succeeds h).bind ?_
  intro ws hws g hg
  obtain ⟨numbers, hnumbers⟩ := nodeNumbers_of_handles fun w hw => (hws w hw).imp fun _ h => h.1
  rw [Recording.on_bind, Recording.on_ofExcept, hnumbers]
  exact ⟨_, _, rfl, hg, .inl ⟨_, rfl, hg⟩⟩

/-- An operation on operands has a result, which can be an operand again. -/
theorem operate_succeeds {n : Nat} (op : Op) {vs : List (Value α)}
    (h : ∀ v ∈ vs, IsOperand n v) : (operate op vs).Succeeds n (IsOperand n) := by
  unfold operate
  split
  · exact recordOperation_succeeds op h
  · next hplain =>
    have hnumbers : ∃ xs, vs.mapM Value.toNumber = .ok xs := by
      induction vs with
      | nil => exact ⟨[], rfl⟩
      | cons v vs ih =>
        obtain ⟨hv, hvs⟩ := List.forall_mem_cons.mp h
        rw [List.any_cons, Bool.or_eq_true, not_or] at hplain
        obtain ⟨xs, hxs⟩ := ih hvs hplain.2
        rcases hv with ⟨h, rfl, _⟩ | ⟨_, x, hx⟩
        · exact absurd rfl hplain.1
        · exact ⟨x :: xs, mapM_eq_ok_iff.mpr (.cons hx (mapM_eq_ok_iff.mp hxs))⟩
    obtain ⟨xs, hxs⟩ := hnumbers
    have hresult : op.onNumbers vs = .ok (.number (op.eval xs)) :=
      bind_eq_ok_iff.mpr ⟨xs, hxs, rfl⟩
    exact fun g hg => ⟨_, g, by rw [Recording.on_ofExcept, hresult], hg, .inr ⟨rfl, _, rfl⟩⟩

/-- An operation on values that can be lifted is recorded. -/
theorem recordOperation_yields (sound : g.Sound inputs) {op : Op} {vs : List (Value α)}
    (takes : op.Takes vs.length) (h : ∀ v ∈ vs, g.Liftable v) :
    (recordOperation op vs).Yields inputs g fun g' v => g'.Computed op vs v := by
  have known : Value.AllKnown g vs := List.forall₂_same.mpr fun v hv => (h v hv).known
  exact (recordOperation_keeps sound takes known).yields_of_succeeds
    (recordOperation_succeeds op fun v hv => (h v hv).isOperand)

/-- An operation on values that can be lifted has a result that can. -/
theorem operate_yields (sound : g.Sound inputs) {op : Op} {vs : List (Value α)}
    (takes : op.Takes vs.length) (h : ∀ v ∈ vs, g.Liftable v) :
    (operate op vs).Yields inputs g fun g' v => g'.Liftable v := by
  have known : Value.AllKnown g vs := List.forall₂_same.mpr fun v hv => (h v hv).known
  refine ((operate_keeps sound takes known).mono fun g' v computed => ?_).yields_of_succeeds
    (operate_succeeds op fun v hv => (h v hv).isOperand)
  cases computed with
  | node _ names => exact names.liftable
  | folded _ _ => exact .inr ⟨rfl, _, rfl⟩

theorem Computed.known {op : Op} {vs : List (Value α)} {v : Value α} (h : g.Computed op vs v) :
    Value.Known g v := by
  cases h with
  | node _ names => exact names.known
  | folded _ _ => exact .number _

end Graph

variable [Scalar α] {inputs : Nat → Prop} {g : Graph α}

/-- A formula that treats handles alike keeps a graph sound. -/
theorem Formula.record_keeps {rel : Correspondence α → β → γ → Prop} {m : Formula α β}
    {n : Formula α γ} (agrees : Formula.Agrees .handle rel g.Knows m n) (sound : g.Sound inputs) :
    m.record.Keeps inputs g fun g' b => ∃ c, rel g'.Knows b c := by
  induction m generalizing g n with
  | done b =>
    cases agrees with
    | done h => exact .pure sound ⟨_, h⟩
  | fault e => exact .throw sound e
  | operate op vs next ih =>
    cases agrees with
    | operate takes operands hnext =>
      have hvs := operands.eq_of_knows ▸ operands
      refine (Graph.operate_keeps sound takes hvs).bind ?_
      intro g' v sound' grows computed
      exact ih v (hnext g'.Knows v v grows.knows computed.known) sound'

/-! ## Arguments of terms -/

namespace Graph

/-- An argument of a term on a graph: inputs for variables, constants for numbers. -/
inductive Bound (g : Graph α) : Value α → Value α → Prop where
  | input {i : Int} {h : Handle} : 0 ≤ i → g.Names h (.input i.toNat) →
      Bound g (.varying i) (.handle h)
  | scalar {v : Value α} {i : Nat} : (∀ b, v ≠ .truth b) → g.Stands v i →
      Bound g v (.handle (g.handle i))
  | list {vs ws : List (Value α)} : List.Forall₂ (Bound g) vs ws → Bound g (.list vs) (.list ws)

mutual

theorem Bound.known : ∀ {v w : Value α}, g.Bound v w → Value.Known g w
  | _, _, .input _ names => names.known
  | _, _, .scalar _ stands => known_handle stands.lt
  | .list _, _, .list hs => .list (knowns hs)

theorem Bound.knowns : ∀ {vs ws : List (Value α)}, List.Forall₂ g.Bound vs ws →
    Value.AllKnown g ws
  | [], _, .nil => .nil
  | _ :: _, _, .cons h hs => .cons (Bound.known h) (Bound.knowns hs)

end

mutual

theorem Bound.mono {g' : Graph α} (grows : g.Grows g') : ∀ {v w : Value α}, g.Bound v w →
    g'.Bound v w
  | _, _, .input hi names => .input hi (names.mono grows)
  | _, _, @Bound.scalar _ _ _ _ i noTruth stands =>
    grows.handle i ▸ .scalar noTruth (stands.mono grows)
  | .list _, _, .list hs => .list (Bound.monos grows hs)

theorem Bound.monos {g' : Graph α} (grows : g.Grows g') : ∀ {vs ws : List (Value α)},
    List.Forall₂ g.Bound vs ws → List.Forall₂ g'.Bound vs ws
  | [], _, .nil => .nil
  | _ :: _, _, .cons h hs => .cons (Bound.mono grows h) (Bound.monos grows hs)

end

theorem lift_scalar_keeps (sound : g.Sound inputs) {v : Value α} (known : Value.Known g v)
    (noTruth : ∀ b, v ≠ .truth b) (noList : ∀ vs, v ≠ .list vs) :
    (lift v).Keeps inputs g fun g' w => g'.Bound v w := by
  refine (lift_keeps sound known).mono ?_
  intro g' w lifted
  cases lifted with
  | node stands => exact .scalar noTruth stands
  | list _ => exact absurd rfl (noList _)

mutual

/-- Binding an argument adds the inputs that it refers to. -/
theorem bindArgument_keeps {g : Graph α} (sound : g.Sound inputs) : ∀ {v : Value α},
    (∀ i ∈ v.indices, 0 ≤ i → inputs i.toNat) → Value.Known g v →
      (bindArgument v).Keeps inputs g fun g' w => g'.Bound v w
  | .varying i, allowed, _ =>
    (recordInput_keeps sound (allowed i (by simp [Value.indices]))).mono
      fun _ _ ⟨hi, _, hw, names⟩ => hw ▸ .input hi names
  | .list vs, allowed, .list known => by
    unfold bindArgument
    exact (bindArguments_keeps sound allowed known).bind fun _ _ sound' _ hs =>
      .pure sound' (.list hs)
  | .truth _, _, _ => .throw sound _
  | .text _, _, _ => .throw sound _
  | .absent, _, _ => .throw sound _
  | .number _, _, known =>
    lift_scalar_keeps sound known (fun _ h => nomatch h) fun _ h => nomatch h
  | .integer _, _, known =>
    lift_scalar_keeps sound known (fun _ h => nomatch h) fun _ h => nomatch h
  | .handle _, _, known =>
    lift_scalar_keeps sound known (fun _ h => nomatch h) fun _ h => nomatch h

theorem bindArguments_keeps {g : Graph α} (sound : g.Sound inputs) : ∀ {vs : List (Value α)},
    (∀ i ∈ Value.indicesOfAll vs, 0 ≤ i → inputs i.toNat) → Value.AllKnown g vs →
      (bindArguments vs).Keeps inputs g fun g' ws => List.Forall₂ g'.Bound vs ws
  | [], _, _ => .pure sound .nil
  | v :: vs, allowed, .cons known knowns => by
    simp only [Value.indicesOfAll, List.mem_append] at allowed
    unfold bindArguments
    refine (bindArgument_keeps sound (fun i hi => allowed i (.inl hi)) known).bind ?_
    intro g' w sound' grows hw
    refine (bindArguments_keeps sound' (fun i hi => allowed i (.inr hi))
      (Value.AgreeAll.mono grows.knows knowns)).bind ?_
    intro g'' ws sound'' grows' hws
    exact .pure sound'' (.cons (hw.mono grows') hws)

end

end Graph

end DiagramLayout
