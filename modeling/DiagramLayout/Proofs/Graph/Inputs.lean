import DiagramLayout.Proofs.Energy.Evaluated
import DiagramLayout.Proofs.Graph.Additions

/-!
# The inputs of a graph

Only the binding of arguments adds inputs, and only those that the arguments refer to, whatever the
functions of the terms are. An input that a graph does not have is passed over by the sweep.
-/

namespace DiagramLayout

variable {α β : Type} {inputs : Nat → Prop}

/-- The inputs of a graph are certain ones. -/
def Graph.Within (inputs : Nat → Prop) (g : Graph α) : Prop := ∀ i, .input i ∈ g.nodes → inputs i

/-- A recording adds no inputs but certain ones, whether it ends or fails. -/
def Recording.Confined (inputs : Nat → Prop) (r : Recording α β) : Prop :=
  ∀ g : Graph α, g.Within inputs → (r.on g).2.Within inputs

theorem Graph.persists_within (inputs : Nat → Prop) :
    Persists inputs (Within inputs : Graph α → Prop) := by
  intro g node within allowed i hi
  rcases List.mem_cons.mp hi with hnode | hi
  · exact allowed i hnode.symm
  · exact within i hi

variable [Scalar α]

theorem Energy.build_confined {objectives constraints : List (ResolvedTerm α)} (scale : α)
    (penalty : TermFunction α)
    (allowed : ∀ t ∈ objectives ++ constraints, ∀ i ∈ t.term.indices, 0 ≤ i → inputs i.toNat) :
    (build objectives constraints scale penalty).Confined inputs :=
  build_preserves (Graph.persists_within inputs) scale penalty allowed

/-- The inputs of an energy are variables that its terms refer to. -/
theorem Energy.compile_inputs {p : Problem α} {library : Library α} {scale : α}
    {penalty : TermFunction α} {e : Energy α} (h : compile p library scale penalty = .ok e) :
    e.graph.Within fun i => ∃ t ∈ p.objectives ++ p.constraints, (i : Int) ∈ t.indices := by
  obtain ⟨objectives, constraints, hresolve, hbuild, _⟩ := Energy.compile_eq_ok h
  obtain ⟨hobjectives, hconstraints⟩ := Problem.resolve_eq_ok hresolve
  have confined : (build objectives constraints scale penalty).Confined
      fun i => ∃ t ∈ p.objectives ++ p.constraints, (i : Int) ∈ t.indices := by
    refine build_confined scale penalty fun r hr i hi hnonneg => ?_
    rw [Int.toNat_of_nonneg hnonneg]
    rcases List.mem_append.mp hr with hr | hr
    · obtain ⟨t, ht, hresolved⟩ := exists_left_of_forall₂ hobjectives hr
      obtain ⟨rfl, -, -⟩ := Term.resolve_eq_ok hresolved
      exact ⟨r.term, List.mem_append_left _ ht, hi⟩
    · obtain ⟨t, ht, hresolved⟩ := exists_left_of_forall₂ hconstraints hr
      obtain ⟨rfl, -, -⟩ := Term.resolve_eq_ok hresolved
      exact ⟨r.term, List.mem_append_right _ ht, hi⟩
  have hwithin := confined { number := p.nextGraph } fun i hi => by cases hi
  rwa [hbuild] at hwithin

/-! ## The sweep -/

/-- The sweep leaves the entry of an input without a node as it is. -/
theorem Graph.sweep_of_no_input {j : Nat} {values adjoints gradient swept : Array α}
    {nodes : List (Node α)} (hnone : .input j ∉ nodes)
    (h : sweep values nodes adjoints gradient = .ok swept) : swept[j]? = gradient[j]? := by
  induction nodes generalizing adjoints gradient with
  | nil => cases h; rfl
  | cons node older ih =>
    obtain ⟨hnode, holder⟩ := not_or.mp (List.mem_cons.not.mp hnone)
    simp only [sweep] at h
    split at h
    · exact ih holder h
    · split at h
      · next index =>
        have hne : index ≠ j := fun heq => hnode (heq ▸ rfl)
        split at h
        · rw [ih holder h, Array.getElem?_modify, if_neg hne]
        · cases h
      · exact ih holder h

/-- The slope along an input that the graph of an energy does not have. -/
theorem WeightedEnergy.gradient_of_no_input {e : WeightedEnergy α} {xs g : List α} {j : Nat}
    (hnone : .input j ∉ e.energy.graph.nodes) (h : e.gradient xs = .ok g) (hj : j < g.length) :
    g[j]? = some 0.0 := by
  have hlength := WeightedEnergy.length_gradient h
  obtain ⟨_, hxs, h⟩ := bind_eq_ok_iff.mp h
  obtain ⟨⟨_, slopes⟩, hgradient, h⟩ := bind_eq_ok_iff.mp h
  cases h
  simp only [Graph.gradient] at hgradient
  split at hgradient
  · obtain ⟨_, hbackward, hslopes⟩ := map_eq_ok_iff.mp hgradient
    cases hslopes
    obtain ⟨swept, hswept, h⟩ := bind_eq_ok_iff.mp hbackward
    cases h
    have hnone' : .input j ∉ e.energy.graph.upTo e.energy.output := fun hmem =>
      hnone ((Graph.upTo_suffix _ _).subset hmem)
    have hstill := Graph.sweep_of_no_input hnone' hswept
    have hcount : j < (e.point xs).inputs.length := by
      have hxs : xs.length = e.energy.count := by simpa using require_eq_ok_iff.mp hxs
      simp only [WeightedEnergy.point]
      omega
    rw [Array.getElem?_toList, hstill]
    simp [hcount]
  · cases hgradient

end DiagramLayout
