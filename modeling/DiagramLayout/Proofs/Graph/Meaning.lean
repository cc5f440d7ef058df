import DiagramLayout.Proofs.Graph.Recorded

/-!
# What a node means

A meaning reads constants, inputs and slots, and an operation from the readings of its operands. The
reading of a node does not change while the graph grows, so what a recording computes can be said of
the graph that it leaves.
-/

namespace DiagramLayout

variable {α β : Type} [Scalar α]

/-- A way to read nodes. An operation on constants reads as the constant that it makes. -/
structure Meaning (α β : Type) [Scalar α] where
  const : α → β
  input : Nat → β
  slot : String → α → β
  apply : Op → List β → β
  apply_const (op : Op) (xs : List α) : apply op (xs.map const) = const (op.eval xs)

namespace Meaning

/-- The reading of a node from those of the older nodes. -/
def node (M : Meaning α β) (before : Nat → β) : Node α → β
  | .const x => M.const x
  | .input index => M.input index
  | .slot name default => M.slot name default
  | .apply op operands => M.apply op (operands.map before)

/-- The reading of the node with a number; one that is not there reads as zero. -/
def read (M : Meaning α β) : List (Node α) → Nat → β
  | [], _ => M.const 0.0
  | node :: older, i => if i = older.length then M.node (M.read older) node else M.read older i

variable (M : Meaning α β)

theorem read_newest (node : Node α) (older : List (Node α)) :
    M.read (node :: older) older.length = M.node (M.read older) node := by
  rw [read, if_pos rfl]

theorem read_push (g : Graph α) (node : Node α) :
    M.read (g.push node).2.nodes g.size = M.node (M.read g.nodes) node := M.read_newest node g.nodes

theorem read_older (node : Node α) {older : List (Node α)} {i : Nat} (hi : i ≠ older.length) :
    M.read (node :: older) i = M.read older i := by
  rw [read, if_neg hi]

theorem read_suffix {older nodes : List (Node α)} (hs : older <:+ nodes) {i : Nat}
    (hi : i < older.length) : M.read nodes i = M.read older i := by
  induction nodes with
  | nil =>
    obtain rfl := List.suffix_nil.mp hs
    rfl
  | cons node rest ih =>
    rcases List.suffix_cons_iff.mp hs with rfl | hs
    · rfl
    · have := hs.length_le
      rw [read_older M node (by omega), ih hs]

theorem node_congr {before before' : Nat → β} {node : Node α}
    (same : ∀ i ∈ node.operands, before i = before' i) :
    M.node before node = M.node before' node := by
  cases node with
  | apply op operands => exact congrArg (M.apply op) (List.map_congr_left same)
  | _ => rfl

/-- A node is read from its operands. -/
theorem read_eq {g : Graph α} (hordered : g.Ordered) {i : Nat} {node : Node α}
    (hnode : g.node? i = some node) : M.read g.nodes i = M.node (M.read g.nodes) node := by
  have hbelow := hordered i node hnode
  obtain ⟨older, hs, rfl⟩ := Graph.node?_eq_some_iff.mp hnode
  have holder : older <:+ g.nodes := (List.suffix_cons node older).trans hs
  rw [read_suffix M hs (by simp), read_newest]
  exact node_congr M fun i hi => (read_suffix M holder (hbelow i hi)).symm

theorem read_grows {g g' : Graph α} (grows : g.Grows g') {i : Nat} (hi : i < g.size) :
    M.read g'.nodes i = M.read g.nodes i := read_suffix M grows.nodes hi

/-- A value is the handle of a node, which has this reading. -/
def Denotes (g : Graph α) (v : Value α) (b : β) : Prop :=
  ∃ h : Handle, v = .handle h ∧ h.graph = g.number ∧ h.node < g.size ∧ M.read g.nodes h.node = b

/-- A handle reads as its node, a value without one as the constant that it makes. -/
inductive Reads (g : Graph α) : Value α → β → Prop where
  | handle {h : Handle} : h.graph = g.number → h.node < g.size →
      Reads g (.handle h) (M.read g.nodes h.node)
  | plain {v : Value α} {x : α} : v.graph? = none → v.toNumber = .ok x → Reads g v (M.const x)

variable {M} {g g' : Graph α}

theorem Reads.mono (grows : g.Grows g') {v : Value α} {b : β} (h : M.Reads g v b) :
    M.Reads g' v b := by
  cases h with
  | handle own hlt =>
    rw [← M.read_grows grows hlt]
    exact .handle (own.trans grows.number.symm) (Nat.lt_of_lt_of_le hlt grows.size_le)
  | plain hplain hx => exact .plain hplain hx

theorem Denotes.reads {v : Value α} {b : β} (h : M.Denotes g v b) : M.Reads g v b := by
  obtain ⟨h, rfl, own, hlt, rfl⟩ := h
  exact .handle own hlt

theorem Reads.denotes {h : Handle} {b : β} (hread : M.Reads g (.handle h) b) :
    M.Denotes g (.handle h) b := by
  cases hread with
  | handle own hlt => exact ⟨h, rfl, own, hlt, rfl⟩
  | plain hplain _ => cases hplain

theorem Denotes.mono (grows : g.Grows g') {v : Value α} {b : β} (h : M.Denotes g v b) :
    M.Denotes g' v b := by
  obtain ⟨h, rfl, own, hlt, rfl⟩ := h
  exact Reads.denotes (.mono grows (.handle own hlt))

theorem Reads.unique {v : Value α} {b b' : β} (h : M.Reads g v b) (h' : M.Reads g v b') :
    b = b' := by
  cases h with
  | handle _ _ =>
    cases h' with
    | handle _ _ => rfl
    | plain hplain _ => cases hplain
  | plain hplain hx =>
    cases h' with
    | handle _ _ => cases hplain
    | plain _ hx' =>
      rw [hx] at hx'
      rw [Except.ok.inj hx']

/-- What a known value reads as on a larger graph it reads as already. -/
theorem Reads.of_grows (grows : g.Grows g') {v : Value α} (known : Value.Known g v) {b : β}
    (h : M.Reads g' v b) : M.Reads g v b := by
  cases h with
  | handle own hlt =>
    cases known with
    | handle _ knows =>
      have own' := own.trans grows.number
      rw [M.read_grows grows (knows.2 own')]
      exact .handle own' (knows.2 own')
  | plain hplain hx => exact .plain hplain hx

theorem Reads.known {v : Value α} {b : β} (h : M.Reads g v b) : Value.Known g v := by
  cases h with
  | handle _ hlt => exact .handle trivial ⟨rfl, fun _ => hlt⟩
  | plain hplain hx =>
    refine .of_isPlain ?_
    cases v with
    | handle h => cases hplain
    | list vs => cases hx
    | _ => rfl

end Meaning

namespace Graph

variable {M : Meaning α β} {g : Graph α}

theorem Names.reads (hordered : g.Ordered) {h : Handle} {node : Node α} (names : g.Names h node) :
    M.Reads g (.handle h) (M.node (M.read g.nodes) node) := by
  obtain ⟨i, rfl, hnode⟩ := names
  rw [← M.read_eq hordered hnode]
  exact .handle rfl (lt_of_node? hnode)

theorem Stands.reads (hordered : g.Ordered) {v : Value α} {i : Nat} (h : g.Stands v i) :
    M.Reads g v (M.read g.nodes i) := by
  cases h with
  | handle own hlt => exact .handle own hlt
  | const constant hx hnode =>
    rw [M.read_eq hordered hnode]
    refine .plain ?_ hx
    cases v with
    | handle h => cases constant
    | _ => rfl

/-- The result of an operation reads as the operation on what its operands read as. -/
theorem Computed.reads (hordered : g.Ordered) {op : Op} {vs : List (Value α)} {v : Value α}
    (h : g.Computed op vs v) :
    ∃ bs, List.Forall₂ (M.Reads g) vs bs ∧ M.Reads g v (M.apply op bs) := by
  cases h with
  | @node numbers _ stands names =>
    refine ⟨numbers.map (M.read g.nodes), ?_, names.reads hordered⟩
    rw [List.forall₂_map_right_iff]
    exact stands.imp fun _ _ hstands => hstands.reads hordered
  | @folded xs hplain hxs =>
    refine ⟨xs.map M.const, ?_, ?_⟩
    · have hnumbers := mapM_eq_ok_iff.mp hxs
      rw [List.forall₂_map_right_iff]
      clear hxs
      induction hnumbers with
      | nil => exact .nil
      | @cons v x _ _ hx _ ih =>
        rw [List.any_cons, Bool.or_eq_false_iff] at hplain
        refine .cons (.plain ?_ hx) (ih hplain.2)
        simpa using hplain.1
    · rw [M.apply_const]
      exact .plain rfl rfl

/-- An operation on values that can be read. -/
theorem operate_reads {inputs : Nat → Prop} (sound : g.Sound inputs) {op : Op}
    {vs : List (Value α)} {bs : List β} (takes : op.Takes vs.length)
    (hvs : List.Forall₂ (M.Reads g) vs bs) :
    (operate op vs).Keeps inputs g fun g' v => M.Reads g' v (M.apply op bs) := by
  have known : Value.AllKnown g vs :=
    List.forall₂_same.mpr (forall_right_of_forall₂ hvs.flip fun _ _ h => h.known)
  obtain ⟨sound', grows, result⟩ := operate_keeps sound takes known
  refine ⟨sound', grows, fun v hv => ?_⟩
  obtain ⟨bs', hvs', hread⟩ := (result v hv).reads (M := M) sound'.wellFormed.ordered
  have hvs := hvs.imp fun _ _ h => h.mono grows
  rwa [List.right_unique_forall₂' (fun _ _ _ h h' => h.unique h') hvs hvs']

/-- An operation of two operands, of which the second can be read. -/
theorem operate_keeps_reading {inputs : Nat → Prop} (sound : g.Sound inputs) {op : Op}
    (hop : op.arity? = some 2) {u v : Value α} {c : β} (hu : Value.Known g u)
    (hv : M.Reads g v c) :
    (operate op [u, v]).Keeps inputs g fun g' w =>
      ∃ b, M.Reads g' u b ∧ M.Reads g' w (M.apply op [b, c]) := by
  have takes : op.Takes [u, v].length := by simp [Op.Takes, hop]
  obtain ⟨sound', grows, result⟩ := operate_keeps sound takes (.cons hu (.cons hv.known .nil))
  refine ⟨sound', grows, fun w hw => ?_⟩
  obtain ⟨bs, hbs, hread⟩ := (result w hw).reads (M := M) sound'.wellFormed.ordered
  cases hbs with
  | cons hb hbs =>
    cases hbs with
    | cons hc hbs =>
      cases hbs
      rw [← (hv.mono grows).unique hc] at hread
      exact ⟨_, hb, hread⟩

end Graph

/-! ## Passes -/

/-- The meaning that a pass at a point computes. -/
def Meaning.values (p : Point α) : Meaning α α where
  const x := x
  input index := p.inputs.getD index 0.0
  slot := p.slot
  apply := Op.eval
  apply_const op xs := by rw [List.map_id']

namespace Graph

variable {p : Point α}

theorem evaluate_eq_read {nodes : List (Node α)} {values : Array α}
    (hvalues : evaluate p nodes = (values, true)) (i : Nat) :
    values.getD i 0.0 = (Meaning.values p).read nodes i := by
  induction nodes generalizing values i with
  | nil =>
    obtain rfl : #[] = values := congrArg Prod.fst hvalues
    rfl
  | cons node older ih =>
    obtain ⟨before, x, hbefore, hx, rfl⟩ := evaluate_cons_iff.mp hvalues
    have hsize : before.size = older.length := size_of_evaluate hbefore
    by_cases hi : i = older.length
    · subst hi
      rw [← hsize, getD_push_size, hsize, Meaning.read_newest]
      cases node with
      | const y => exact (Option.some.inj hx).symm
      | slot name default => exact (Option.some.inj hx).symm
      | input index =>
        have hin : p.inputs[index]? = some x := hx
        simp [Meaning.node, Meaning.values, hin]
      | apply op operands =>
        rw [← Option.some.inj hx]
        exact congrArg op.eval (List.map_congr_left fun i _ => ih hbefore i)
    · rw [getD_push_of_ne (by rwa [hsize]), Meaning.read_older _ _ hi, ih hbefore]

/-- A pass up to a node whose inputs are there. -/
theorem evaluate_upTo {g : Graph α} {out : Nat}
    (hinputs : ∀ i, .input i ∈ g.upTo out → i < p.inputs.length) :
    evaluate p (g.upTo out) = ((evaluate p (g.upTo out)).1, true) :=
  Prod.ext rfl ((evaluate_isComplete_iff p (g.upTo out)).mpr hinputs)

/-- What `forward` computes is the reading of the node. -/
theorem forward_eq_read_of_inputs {g : Graph α} {out : Nat} (hout : out < g.size)
    (hinputs : ∀ i, .input i ∈ g.upTo out → i < p.inputs.length) :
    g.forward p out = .ok ((Meaning.values p).read g.nodes out) := by
  have hvalues := evaluate_upTo hinputs
  have hlength : (g.upTo out).length = out + 1 := by rw [length_upTo]; omega
  have hlt : out < (evaluate p (g.upTo out)).1.size := by rw [size_of_evaluate hvalues]; omega
  have hread := evaluate_eq_read hvalues out
  rw [Array.getD_eq_getD_getElem?, Array.getElem?_eq_getElem hlt, Option.getD_some] at hread
  rw [Meaning.read_suffix _ (upTo_suffix g out) (by omega), ← hread]
  exact forward_eq_ok_iff.mpr ⟨_, hout, hvalues, Array.getElem?_eq_getElem hlt⟩

theorem forward_eq_read {g : Graph α} (sound : g.Sound (· < p.inputs.length)) {out : Nat}
    (hout : out < g.size) : g.forward p out = .ok ((Meaning.values p).read g.nodes out) :=
  forward_eq_read_of_inputs hout (sound.inputs_upTo out)

end Graph

end DiagramLayout
