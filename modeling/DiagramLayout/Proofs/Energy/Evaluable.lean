import DiagramLayout.Proofs.Graph.Inputs

/-!
# Energies that have a value everywhere

A compiled energy has a value and a gradient at every vector of its variables, whatever the functions
of its terms do: its output is a node that it recorded last, and its inputs are variables.
-/

namespace DiagramLayout

variable {α : Type}

/-! ## Passes and sweeps -/

namespace Graph

variable {g : Graph α} {p : Point α} {out : Nat}

theorem Within.upTo {inputs : Nat → Prop} (within : g.Within inputs) (out : Nat) :
    ∀ i, .input i ∈ g.upTo out → inputs i :=
  fun i hi => within i ((upTo_suffix g out).subset hi)

variable [Scalar α]

/-- A node has a value where all inputs are there. -/
theorem forward_of_within (within : g.Within (· < p.inputs.length)) (hout : out < g.size) :
    ∃ x, g.forward p out = .ok x := by
  have hcomplete := (evaluate_isComplete_iff p (g.upTo out)).mpr (within.upTo out)
  rcases hvalues : evaluate p (g.upTo out) with ⟨values, complete⟩
  rw [hvalues] at hcomplete
  obtain rfl : complete = true := hcomplete
  have hsize : out < values.size := by
    have := size_of_evaluate hvalues
    rw [length_upTo] at this
    omega
  exact ⟨values[out], forward_eq_ok_iff.mpr ⟨values, hout, hvalues, Array.getElem?_eq_getElem hsize⟩⟩

/-- A sweep ends where every input has an entry in the gradient. -/
theorem sweep_of_within (values : Array α) {nodes : List (Node α)} (adjoints gradient : Array α)
    (within : ∀ i, .input i ∈ nodes → i < gradient.size) :
    ∃ swept, sweep values nodes adjoints gradient = .ok swept := by
  induction nodes generalizing adjoints gradient with
  | nil => exact ⟨gradient, rfl⟩
  | cons node older ih =>
    have holder : ∀ i, .input i ∈ older → i < gradient.size :=
      fun i hi => within i (List.mem_cons_of_mem _ hi)
    simp only [sweep]
    split
    · exact ih _ _ holder
    · split
      · next index =>
        rw [if_pos (within index List.mem_cons_self)]
        exact ih _ _ fun i hi => by simpa using holder i hi
      · exact ih _ _ holder

/-- A node has a gradient where all inputs are there. -/
theorem gradient_of_within (within : g.Within (· < p.inputs.length)) (hout : out < g.size) :
    ∃ r, g.gradient p out = .ok r := by
  obtain ⟨x, hx⟩ := forward_of_within within hout
  obtain ⟨values, _, hvalues, hvalue⟩ := forward_eq_ok_iff.mp hx
  obtain ⟨swept, hswept⟩ := sweep_of_within values (seed out)
    (Array.replicate p.inputs.length 0.0)
    fun i hi => by simpa using within.upTo out i hi
  refine ⟨(x, swept.toList), ?_⟩
  simp [gradient, valuesUpTo, hvalues, hvalue, backward, hswept, bind, Except.bind, Except.map, pure,
    Except.pure]

/-! ## The output -/

/-- The result of an operation can be lifted, whatever its operands are. -/
theorem operate_eq_ok {op : Op} {vs : List (Value α)} {g' : Graph α} {v : Value α}
    (h : (operate op vs).on g = (.ok v, g')) : g'.Liftable v := by
  unfold operate at h
  split at h
  · obtain ⟨ws, g₁, _, h⟩ := Recording.on_bind_eq_ok h
    obtain ⟨numbers, g₂, _, h⟩ := Recording.on_bind_eq_ok h
    obtain ⟨handle, g₃, hrecord, h⟩ := Recording.on_bind_eq_ok h
    cases hrecord
    cases h
    exact .inl ⟨_, rfl, rfl, Nat.lt_succ_self _⟩
  · cases hnumbers : op.onNumbers vs with
    | error cause => rw [Recording.on_ofExcept, hnumbers] at h; cases h
    | ok w =>
      obtain ⟨xs, _, hw⟩ := bind_eq_ok_iff.mp hnumbers
      cases hw
      rw [Recording.on_ofExcept, hnumbers] at h
      cases h
      exact .inr ⟨rfl, _, rfl⟩

end Graph

variable [Scalar α]

theorem Energy.combine_eq_ok {scale : α} {objectives penalties : List (Value α)} {g g' : Graph α}
    {w : Value α} (h : (combine scale objectives penalties).on g = (.ok w, g')) :
    ∃ handle : Handle, w = .handle handle ∧ handle.node < g'.size := by
  unfold combine at h
  obtain ⟨_, _, _, h⟩ := Recording.on_bind_eq_ok h
  obtain ⟨_, _, _, h⟩ := Recording.on_bind_eq_ok h
  obtain ⟨_, _, _, h⟩ := Recording.on_bind_eq_ok h
  obtain ⟨_, _, _, h⟩ := Recording.on_bind_eq_ok h
  obtain ⟨_, _, _, h⟩ := Recording.on_bind_eq_ok h
  obtain ⟨_, _, _, h⟩ := Recording.on_bind_eq_ok h
  obtain ⟨sum, g₁, hsum, h⟩ := Recording.on_bind_eq_ok h
  have liftable := Graph.operate_eq_ok hsum
  obtain ⟨handle, _, hon, _, _, hlt⟩ := Graph.on_lift_of_operand liftable.isOperand
  cases hon.symm.trans h
  exact ⟨handle, rfl, hlt liftable⟩

/-! ## Compiled energies -/

/-- The output of an energy is there and its inputs are variables. -/
structure Energy.Evaluable (e : Energy α) : Prop where
  output_lt : e.output < e.graph.size
  within : e.graph.Within (· < e.count)

/-- The variables that the terms of a resolved problem refer to are there. -/
theorem Problem.indices_of_resolve {p : Problem α} {library : Library α}
    {objectives constraints : List (ResolvedTerm α)}
    (h : p.resolve library = .ok (objectives, constraints)) :
    ∀ t ∈ p.objectives ++ p.constraints, ∀ i ∈ t.indices, 0 ≤ i ∧ i < p.count := by
  obtain ⟨hos, hcs⟩ := resolve_eq_ok h
  intro t ht
  rcases List.mem_append.mp ht with ht | ht
  · obtain ⟨r, _, hr⟩ := exists_left_of_forall₂ hos.flip ht
    exact (Term.resolve_eq_ok hr).2.2
  · obtain ⟨r, _, hr⟩ := exists_left_of_forall₂ hcs.flip ht
    exact (Term.resolve_eq_ok hr).2.2

theorem Energy.compile_evaluable {p : Problem α} {library : Library α} {scale : α}
    {penalty : TermFunction α} {e : Energy α} (h : compile p library scale penalty = .ok e) :
    e.Evaluable := by
  obtain ⟨objectives, constraints, hresolve, hbuild, hcount, _⟩ := compile_eq_ok h
  constructor
  · obtain ⟨_, _, _, hbuild⟩ := Recording.on_bind_eq_ok hbuild
    obtain ⟨_, _, _, hbuild⟩ := Recording.on_bind_eq_ok hbuild
    obtain ⟨w, g, hcombine, hnode⟩ := Recording.on_bind_eq_ok hbuild
    obtain ⟨handle, rfl, hlt⟩ := combine_eq_ok hcombine
    have hends : (Except.ok handle.node, g) = (Except.ok e.output, e.graph) := hnode
    obtain ⟨houtput, hgraph⟩ := Prod.mk.inj hends
    rw [← Except.ok.inj houtput, ← hgraph]
    exact hlt
  · intro i hi
    obtain ⟨t, ht, hindex⟩ := compile_inputs h i hi
    have := Problem.indices_of_resolve hresolve t ht i hindex
    rw [hcount]
    omega

namespace Energy.Evaluable

variable {e : WeightedEnergy α} {xs : List α}

theorem value (h : e.energy.Evaluable) (hxs : xs.length = e.energy.count) :
    ∃ y, e.value xs = .ok y := by
  rw [WeightedEnergy.value_eq_forward hxs]
  exact Graph.forward_of_within (hxs ▸ h.within) h.output_lt

theorem gradient (h : e.energy.Evaluable) (hxs : xs.length = e.energy.count) :
    ∃ g, e.gradient xs = .ok g ∧ g.length = e.energy.count := by
  obtain ⟨⟨y, g⟩, hr⟩ :=
    Graph.gradient_of_within (p := e.point xs) (hxs ▸ h.within) h.output_lt
  have hg := WeightedEnergy.gradient_eq_snd hxs hr
  exact ⟨g, hg, WeightedEnergy.length_gradient hg⟩

end Energy.Evaluable

end DiagramLayout
