import DiagramLayout.Energy.Compile
import DiagramLayout.Proofs.Fault
import DiagramLayout.Proofs.Outcome

namespace DiagramLayout

variable {α : Type} {P : Fault → Prop}

variable [Scalar α]

theorem Energy.atWeight_eq_ok_iff {e : Energy α} {weight : α} {f : WeightedEnergy α} :
    e.atWeight weight = .ok f ↔ Scalar.isFinite weight = true ∧ f = ⟨e, weight⟩ := by
  unfold atWeight
  rw [bind_eq_ok_iff]
  constructor
  · rintro ⟨_, hfinite, h⟩
    cases h
    exact ⟨require_eq_ok_iff.mp hfinite, rfl⟩
  · rintro ⟨hfinite, rfl⟩
    exact ⟨(), require_eq_ok_iff.mpr hfinite, rfl⟩

theorem Energy.atWeight_eq_error_iff {e : Energy α} {weight : α} {cause : Fault} :
    e.atWeight weight = .error cause ↔
      cause = .violated .finiteWeight ∧ Scalar.isFinite weight = false := by
  rw [← require_eq_error_iff, atWeight, bind_eq_error_iff]
  exact or_iff_left fun ⟨_, _, h⟩ => by cases h

/-- A sweep keeps the length of the gradient. -/
theorem Graph.size_sweep {values : Array α} {nodes : List (Node α)}
    {adjoints gradient swept : Array α} (h : sweep values nodes adjoints gradient = .ok swept) :
    swept.size = gradient.size := by
  induction nodes generalizing adjoints gradient with
  | nil => cases h; rfl
  | cons node older ih =>
    simp only [sweep] at h
    split at h
    · exact ih h
    · split at h
      · split at h
        · simpa using ih h
        · cases h
      · exact ih h

namespace WeightedEnergy

variable {e : WeightedEnergy α} {xs : List α}

theorem length_of_value {y : α} (h : e.value xs = .ok y) : xs.length = e.energy.count := by
  obtain ⟨_, hlength, _⟩ := bind_eq_ok_iff.mp h
  simpa using require_eq_ok_iff.mp hlength

theorem length_gradient {g : List α} (h : e.gradient xs = .ok g) : g.length = e.energy.count := by
  obtain ⟨_, hlength, h⟩ := bind_eq_ok_iff.mp h
  obtain ⟨⟨_, slopes⟩, hgradient, h⟩ := bind_eq_ok_iff.mp h
  cases h
  simp only [Graph.gradient] at hgradient
  split at hgradient
  · obtain ⟨_, hbackward, hslopes⟩ := map_eq_ok_iff.mp hgradient
    cases hslopes
    obtain ⟨swept, hswept, h⟩ := bind_eq_ok_iff.mp hbackward
    cases h
    have hxs : xs.length = e.energy.count := by simpa using require_eq_ok_iff.mp hlength
    simpa [point, hxs] using Graph.size_sweep hswept
  · cases hgradient

end WeightedEnergy

/-! ## Faults -/

theorem Graph.forward_faultsIn (h : P (.outOfRange .list)) (g : Graph α) (p : Point α) (out : Nat) :
    FaultsIn P (g.forward p out) := by
  unfold forward
  split
  · exact .ok _
  · exact .error h

theorem Graph.sweep_faultsIn (h : P (.outOfRange .list)) (values : Array α) (nodes : List (Node α))
    (adjoints gradient : Array α) : FaultsIn P (sweep values nodes adjoints gradient) := by
  induction nodes generalizing adjoints gradient with
  | nil => exact .ok _
  | cons node older ih =>
    simp only [sweep]
    split
    · exact ih _ _
    · split
      · split
        · exact ih _ _
        · exact .error h
      · exact ih _ _

theorem WeightedEnergy.value_faultsIn (hlength : P (.violated .inputLength))
    (hrange : P (.outOfRange .list)) (e : WeightedEnergy α) (xs : List α) :
    FaultsIn P (e.value xs) :=
  .bind (.require hlength _) fun _ _ => Graph.forward_faultsIn hrange _ _ _

theorem WeightedEnergy.gradient_faultsIn (hlength : P (.violated .inputLength))
    (hrange : P (.outOfRange .list)) (e : WeightedEnergy α) (xs : List α) :
    FaultsIn P (e.gradient xs) := by
  refine .bind (.require hlength _) fun _ _ => .bind ?_ fun _ _ => .pure _
  simp only [Graph.gradient]
  split
  · exact .map (.bind (Graph.sweep_faultsIn hrange _ _ _ _) fun _ _ => .pure _) _
  · exact .error hrange

end DiagramLayout
