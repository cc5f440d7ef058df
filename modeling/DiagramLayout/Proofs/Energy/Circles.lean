import DiagramLayout.Proofs.Energy.OnNumbers
import DiagramLayout.Proofs.Formula.Circle
import DiagramLayout.Proofs.Graph.Tangent
import Mathlib.Algebra.Order.BigOperators.Group.List

namespace DiagramLayout

theorem Scalar.total_eq_sum {α : Type} [RingScalar α] (xs : List α) : Scalar.total xs = xs.sum := by
  rcases xs with _ | ⟨x, _ | ⟨y, xs⟩⟩
  · exact RingScalar.zero_literal
  · simp [Scalar.total]
  · exact Op.eval_sum _

/-- A name of the catalog stands for its constraint. -/
theorem Catalog.function_of_name {α : Type} [Scalar α] {k : Constraint} {f : TermFunction α}
    (h : (k.name, f) ∈ (Catalog.constraints : Dictionary α)) : f = k.function := by
  obtain ⟨k', _, heq⟩ := List.mem_map.mp h
  obtain ⟨hname, rfl⟩ := Prod.mk.inj heq
  have hsame : k' = k := by
    cases k' <;> cases k <;> first | rfl | exact absurd hname (by decide)
  rw [hsame]

/-- A term that places two circles when the variables have these values. -/
structure Term.Places (t : Term ℝ) (xs : List ℝ) (k : Placement) (c : Circles) : Prop where
  name : t.name = k.constraint.name
  given : c.Given (Value.substituteAll xs t.arguments)
  proper : k.Proper c

variable {t : Term ℝ} {xs : List ℝ} {k : Placement} {c : Circles} {count : Int}

/-- On numbers the term is what the circles violate. -/
theorem Term.Places.onNumbers (places : t.Places xs k c) {r : ResolvedTerm ℝ}
    (h : t.resolve .constraint Catalog.constraints count = .ok r) :
    r.onNumbers xs = .ok (k.excess c) := by
  obtain ⟨rfl, hmem, _⟩ := Term.resolve_eq_ok h
  rw [places.name] at hmem
  rw [ResolvedTerm.onNumbers, Catalog.function_of_name hmem, Placement.call_eval places.given]
  rfl

/-- However a term is read as placing circles, they violate it as much. -/
theorem Term.Places.excess_eq (places : t.Places xs k c) {k' : Placement} {c' : Circles}
    (places' : t.Places xs k' c') : k.excess c = k'.excess c' := by
  have hsame : k = k' := by
    have hname := places.name.symm.trans places'.name
    cases k <;> cases k' <;> first | rfl | exact absurd hname (by decide)
  subst hsame
  have hcall := (Placement.call_eval places.given k).symm.trans (Placement.call_eval places'.given k)
  exact Value.number.inj (Except.ok.inj hcall)

theorem penaltyOnNumbers_eq (x : ℝ) :
    Energy.defaultPenalty.penaltyOnNumbers x = .ok (max x 0 ^ 2) := by
  rw [TermFunction.penaltyOnNumbers, penalty_eval]
  rfl

/-- The energy of terms that place circles. -/
theorem Energy.value_of_places {p : Problem ℝ} {scale : ℝ} {e : Energy ℝ}
    (hobjectives : p.objectives = [])
    (hcompile : compile p Catalog.library scale defaultPenalty = .ok e) (hxs : xs.length = e.count)
    (weight : ℝ) :
    ∃ excesses : List ℝ,
      List.Forall₂ (fun t x => ∀ k c, t.Places xs k c → x = k.excess c) p.constraints excesses ∧
      (e.atWeight weight >>= fun f => f.value xs) =
        .ok ((excesses.map fun x => max x 0 ^ 2).sum * (scale * weight)) := by
  obtain ⟨objectives, constraints, os, cs, qs, hresolve, hos, hcs, hqs, hforward⟩ :=
    forward_onNumbers (Catalog.library_composed _) .penalty hcompile weight hxs
  obtain ⟨hresolved, hresolved'⟩ := Problem.resolve_eq_ok hresolve
  rw [hobjectives] at hresolved
  cases hresolved
  obtain rfl : [] = os := Except.ok.inj hos
  have hqs : qs = cs.map fun x => max x 0 ^ 2 := by
    have hpenalties := mapM_eq_ok_iff.mp hqs
    rw [← List.forall₂_eq_eq_eq, List.forall₂_map_right_iff]
    refine hpenalties.flip.imp fun q x h => ?_
    exact Except.ok.inj (h.symm.trans (penaltyOnNumbers_eq x))
  refine ⟨cs, ?_, ?_⟩
  · refine forall₂_of_common (fun r t x hr hx k c places => ?_) hresolved'.flip (mapM_eq_ok_iff.mp hcs)
    exact Except.ok.inj (hx.symm.trans (places.onNumbers hr))
  · rw [atWeight_eq rfl]
    refine (WeightedEnergy.value_eq_forward hxs).trans (hforward.trans ?_)
    rw [Scalar.total_eq_sum, Scalar.total_eq_sum, hqs, List.sum_nil, zero_add]

theorem penalties_eq_zero_iff (excesses : List ℝ) :
    (excesses.map fun x => max x 0 ^ 2).sum = 0 ↔ ∀ x ∈ excesses, x ≤ 0 := by
  have hnonneg : ∀ q ∈ excesses.map fun x => max x 0 ^ 2, 0 ≤ q :=
    List.forall_mem_map.mpr fun x _ => sq_nonneg _
  constructor
  · intro hsum x hx
    rw [← penalty_eq_zero_iff]
    exact List.all_zero_of_le_zero_le_of_sum_eq_zero hnonneg hsum (List.mem_map_of_mem hx)
  · intro h
    exact List.sum_eq_zero (List.forall_mem_map.mpr fun x hx => (penalty_eq_zero_iff x).mpr (h x hx))

/-- **What constraints on circles say.** Of circles that have points, the result of a constraint is at
most zero, and its penalty is zero, exactly if the circles lie as it says. The energy of a problem of such
constraints is zero exactly at the layouts in which all circles lie as their constraints say. -/
theorem Placement.holds_iff_unpenalized :
    (∀ (k : Placement) (c : Circles) arguments, c.Given arguments → k.Proper c →
      ∃ x q, (k.constraint.function.call arguments).eval = .ok (.number x) ∧ (x ≤ 0 ↔ k.Holds c) ∧
        (Energy.defaultPenalty.call [.number x]).eval = .ok (.number q) ∧ (q = 0 ↔ k.Holds c)) ∧
    ∀ (p : Problem ℝ) (scale weight : ℝ) (e : Energy ℝ) (xs : List ℝ), p.objectives = [] →
      Energy.compile p Catalog.library scale Energy.defaultPenalty = .ok e → 0 < weight →
      xs.length = e.count → (∀ t ∈ p.constraints, ∃ k c, t.Places xs k c) →
      ∃ y, (e.atWeight weight >>= fun f => f.value xs) = .ok y ∧
        (y = 0 ↔ ∀ t ∈ p.constraints, ∀ k c, t.Places xs k c → k.Holds c) := by
  constructor
  · intro k c arguments given proper
    have hsign := excess_nonpos_iff proper
    exact ⟨_, _, call_eval given k, hsign, penalty_eval _, (penalty_eq_zero_iff _).trans hsign⟩
  · intro p scale weight e xs hobjectives hcompile hweight hxs hplaces
    obtain ⟨excesses, hexcesses, hvalue⟩ := Energy.value_of_places hobjectives hcompile hxs weight
    obtain ⟨_, _, _, _, _, hscale, _⟩ := Energy.compile_eq_ok hcompile
    have hfactor : scale * weight ≠ 0 := (mul_pos (by simpa using hscale) hweight).ne'
    refine ⟨_, hvalue, ?_⟩
    rw [mul_eq_zero_iff_right hfactor, penalties_eq_zero_iff]
    constructor
    · intro hnone t ht k c places
      obtain ⟨x, hx, hexcess⟩ := exists_left_of_forall₂ hexcesses.flip ht
      rw [← excess_nonpos_iff places.proper, ← hexcess k c places]
      exact hnone x hx
    · intro hall x hx
      obtain ⟨t, ht, hexcess⟩ := exists_left_of_forall₂ hexcesses hx
      obtain ⟨k, c, places⟩ := hplaces t ht
      rw [hexcess k c places, excess_nonpos_iff places.proper]
      exact hall t ht k c places

/-- A bead that can be moved in a ring, with a knob in its middle. -/
noncomputable def beadInRing : Problem ℝ where
  objectives := []
  constraints := [
    ⟨"contains", [.list [.number 0, .number 0], .number 5, .list [.varying 0, .varying 1], .number 1],
      .constraint⟩,
    ⟨"disjoint", [.list [.number 0, .number 0], .number 1, .list [.varying 0, .varying 1], .number 1,
      .number 1], .constraint⟩]
  count := 2

/-- The bead beside the ring or the knob. -/
def beadBeside (middle bead : Plane) (radius padding : ℝ) : Circles :=
  ⟨⟨middle, radius⟩, ⟨bead, 1⟩, padding⟩

theorem beadInRing_places : List.Forall₂ (fun t kc => t.Places [3, 0] kc.1 kc.2) beadInRing.constraints
    [(.inside, beadBeside (EuclideanSpace.single 0 0) (EuclideanSpace.single 0 3) 5 0),
      (.apart, beadBeside (EuclideanSpace.single 0 0) (EuclideanSpace.single 0 3) 1 1)] := by
  have hpoint : ∀ x : ℝ, Value.IsPoint (.list [.number x, .number 0]) (EuclideanSpace.single 0 x) := by
    intro x
    exact ⟨_, _, rfl, by simp [Value.toNumber], by simp [Value.toNumber]⟩
  refine .cons ⟨rfl, .plain (hpoint 0) rfl (hpoint 3) rfl rfl, ?_⟩
    (.cons ⟨rfl, .padded (hpoint 0) rfl (hpoint 3) rfl rfl, ?_⟩ .nil)
  · norm_num [Placement.Proper, beadBeside]
  · norm_num [Placement.Proper, beadBeside]

theorem beadBeside_excess {middle bead : Plane} (hdist : dist middle bead = 3) (radius padding : ℝ) :
    Placement.inside.excess (beadBeside middle bead radius padding) = 4 - radius + padding ∧
      Placement.apart.excess (beadBeside middle bead radius padding) = radius - 2 + padding := by
  constructor <;> simp only [Placement.excess, beadBeside, hdist] <;> ring

/-- With the bead three to the right both constraints hold. -/
theorem beadInRing_unpenalized : ∃ e,
    Energy.compile beadInRing Catalog.library 1 Energy.defaultPenalty = .ok e ∧
      (e.atWeight 1 >>= fun f => f.value [3, 0]) = .ok 0 := by
  have hcompiled : (Energy.compile beadInRing Catalog.library 1 Energy.defaultPenalty).isOk = true := by
    have hscale : require (Scalar.less (0.0 : ℝ) 1) .constraintScale = .ok () := by simp [require]
    rw [Energy.compile, hscale]
    decide +kernel
  cases hcompile : Energy.compile beadInRing Catalog.library 1 Energy.defaultPenalty with
  | error fault => rw [hcompile] at hcompiled; cases hcompiled
  | ok e =>
    obtain ⟨_, _, _, _, hcount, _, _⟩ := Energy.compile_eq_ok hcompile
    have hplaces : ∀ t ∈ beadInRing.constraints, ∃ k c, t.Places [3, 0] k c := by
      intro t ht
      obtain ⟨kc, _, places⟩ := exists_left_of_forall₂ beadInRing_places.flip ht
      exact ⟨_, _, places⟩
    obtain ⟨y, hvalue, hzero⟩ := Placement.holds_iff_unpenalized.2 beadInRing 1 1 e [3, 0] rfl hcompile one_pos
      hcount.symm hplaces
    have hholds : ∀ t ∈ beadInRing.constraints, ∀ k c, t.Places [3, 0] k c → k.Holds c := by
      intro t ht k c places
      obtain ⟨kc, hkc, places'⟩ := exists_left_of_forall₂ beadInRing_places.flip ht
      rw [← Placement.excess_nonpos_iff places.proper, places.excess_eq places']
      simp only [List.mem_cons, List.not_mem_nil, or_false] at hkc
      have hdist : dist (EuclideanSpace.single 0 0 : Plane) (EuclideanSpace.single 0 3) = 3 := by simp
      rcases hkc with rfl | rfl
      · norm_num [beadBeside_excess hdist]
      · norm_num [beadBeside_excess hdist]
    rw [hzero.mpr hholds] at hvalue
    exact ⟨e, rfl, hvalue⟩

end DiagramLayout
