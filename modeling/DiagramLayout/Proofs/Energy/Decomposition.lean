import DiagramLayout.Proofs.Energy.Alone
import Mathlib.Algebra.Order.BigOperators.Group.List
import Mathlib.Tactic.Linarith

/-!
# The gradient of an energy from those of its terms

In exact arithmetic the energy of a problem is the sum of its objectives and of the squares of its
violated constraints, and its gradient is the sum of theirs, each computed on a graph of its own.
-/

namespace DiagramLayout

/-! ## Jets of energies -/

namespace Meaning

/-- The reading of the penalty of a constraint. -/
def penalty {α β : Type} [Scalar α] (M : Meaning α β) (c : β) : β :=
  M.apply .square [M.apply .max [c, M.const 0.0]]

section Ring

variable {α : Type} [RingScalar α] {p : Point α} {v : List α}

theorem jets_zero : (jets p v).const 0.0 = (0, 0) := Prod.ext RingScalar.zero_literal rfl

theorem total_jets (js : List (α × α)) :
    (jets p v).total js = ((js.map Prod.fst).sum, (js.map Prod.snd).sum) := by
  rcases js with _ | ⟨j, _ | ⟨k, js⟩⟩
  · simp [total, jets]
  · simp [total]
  · exact jets_sum _

/-- The factor of the penalties is flat. -/
theorem energy_jets (e : WeightedEnergy α) (xs : List α) (scale default : α)
    (os qs : List (α × α)) : (jets (e.point xs) v).energy scale default os qs =
      ((os.map Prod.fst).sum + scale * e.weight * (qs.map Prod.fst).sum,
        (os.map Prod.snd).sum + scale * e.weight * (qs.map Prod.snd).sum) := by
  have hslot : (jets (e.point xs) v).slot Energy.weightSlot default = (e.weight, 0) := by
    simp [jets, Point.slot, WeightedEnergy.point]
  have hscale : (jets (e.point xs) v).const scale = (scale, 0) := rfl
  simp only [energy, total_jets, hslot, hscale, jets_mul, jets_add]
  refine Prod.ext ?_ ?_ <;> ring

end Ring

variable {α : Type} [FieldScalar α] {p : Point α} {v : List α}

/-- Where a constraint is zero neither operand of the maximum has a slope that counts. -/
theorem penalty_jets (c : α × α) :
    (jets p v).penalty c = (max c.1 0 ^ 2, 2 * max c.1 0 * c.2) := by
  rw [penalty, jets_zero]
  rcases lt_or_ge 0 c.1 with hpos | hneg
  · simp [jets, Op.eval, Op.partials, hpos, hpos.le, sq]
  · simp [jets, Op.eval, Op.partials, hneg, hneg.not_gt]

end Meaning

section Scalar

variable {α β : Type} [Scalar α] {inputs : Nat → Prop} {g : Graph α} {M : Meaning α β}

theorem Energy.defaultPenalty_reads (sound : g.Sound inputs) {w : Value α} {c : β}
    (hw : M.Denotes g w c) :
    (defaultPenalty.call [w]).record.Keeps inputs g fun g' v => Value.Known g' v ∧
      ∀ q, M.Reads g' v q → q = M.penalty c := by
  have hmax : Op.max.Takes 2 := rfl
  have hsquare : Op.square.Takes 1 := rfl
  have operands : List.Forall₂ (M.Reads g) [w, .number 0.0] [c, M.const 0.0] :=
    .cons hw.reads (.cons (.plain rfl rfl) .nil)
  refine (Graph.operate_reads sound hmax operands).bind ?_
  intro g₁ m sound₁ _ hm
  refine (Graph.operate_reads sound₁ hsquare (.cons hm .nil)).bind ?_
  intro g₂ v sound₂ _ hv
  exact .pure sound₂ ⟨hv.known, fun q hq => hq.unique hv⟩

end Scalar

/-! ## The energy and its terms -/

section Sums

variable {α : Type} [FieldScalar α]

/-- The value of an energy, from the values of its objectives and constraints. -/
def valueSum (factor : α) (os cs : List (α × List α)) : α :=
  (os.map Prod.fst).sum + factor * (cs.map fun c => max c.1 0 ^ 2).sum

/-- The gradient of an energy by `n` variables, from the values and gradients of its objectives and
constraints. -/
def gradientSum (n : Nat) (factor : α) (os cs : List (α × List α)) : List α :=
  Vec.add (Vec.total n (os.map Prod.snd))
    (Vec.scale factor (Vec.total n (cs.map fun c => Vec.scale (2 * max c.1 0) c.2)))

variable {n : Nat} {os cs : List (α × List α)}

theorem length_of_scaled (hcs : ∀ c ∈ cs, c.2.length = n) :
    ∀ u ∈ cs.map fun c => Vec.scale (2 * max c.1 0) c.2, u.length = n := by
  refine List.forall_mem_map.mpr ?_
  intro c hc
  rw [Vec.scale, List.length_map, hcs c hc]

theorem length_gradientSum (hos : ∀ o ∈ os, o.2.length = n) (hcs : ∀ c ∈ cs, c.2.length = n)
    (factor : α) : (gradientSum n factor os cs).length = n := by
  have hfirst := Vec.length_total (List.forall_mem_map.mpr hos)
  have hsecond := Vec.length_total (length_of_scaled hcs)
  rw [gradientSum, Vec.add, List.length_zipWith, Vec.scale, List.length_map, hfirst, hsecond]
  exact min_self n

theorem pairing_gradientSum (hos : ∀ o ∈ os, o.2.length = n) (hcs : ∀ c ∈ cs, c.2.length = n)
    (factor : α) (v : List α) : pairing (gradientSum n factor os cs) v =
      (os.map fun o => pairing o.2 v).sum +
        factor * (cs.map fun c => 2 * max c.1 0 * pairing c.2 v).sum := by
  have hfirst : ∀ u ∈ os.map Prod.snd, u.length = n := List.forall_mem_map.mpr hos
  have hsecond := length_of_scaled hcs
  have hlength : (Vec.total n (os.map Prod.snd)).length = (Vec.scale factor
      (Vec.total n (cs.map fun c => Vec.scale (2 * max c.1 0) c.2))).length := by
    rw [Vec.scale, List.length_map, Vec.length_total hfirst, Vec.length_total hsecond]
  rw [gradientSum, Vec.pairing_add hlength, Vec.pairing_scale, Vec.pairing_total hfirst,
    Vec.pairing_total hsecond, List.map_map, List.map_map]
  simp only [Function.comp_def, Vec.pairing_scale]

/-- Constraints that are satisfied add nothing to the value. -/
theorem valueSum_satisfied (h : ∀ c ∈ cs, c.1 ≤ 0) (factor : α) :
    valueSum factor os cs = valueSum factor os [] := by
  have hzero : (cs.map fun c => max c.1 0 ^ 2).sum = 0 := by
    refine List.sum_eq_zero (List.forall_mem_map.mpr fun c hc => ?_)
    simp [h c hc]
  simp [valueSum, hzero]

/-- Constraints that are satisfied add nothing to the gradient. -/
theorem gradientSum_satisfied (hos : ∀ o ∈ os, o.2.length = n) (hcs : ∀ c ∈ cs, c.2.length = n)
    (h : ∀ c ∈ cs, c.1 ≤ 0) (factor : α) :
    gradientSum n factor os cs = gradientSum n factor os [] := by
  have hnone : ∀ c ∈ ([] : List (α × List α)), c.2.length = n := by simp
  have hlength := length_gradientSum hos hcs factor
  have hlength' := length_gradientSum hos hnone factor
  refine eq_of_pairing (hlength.trans hlength'.symm) ?_
  intro v _
  have hzero : (cs.map fun c => 2 * max c.1 0 * pairing c.2 v).sum = 0 := by
    refine List.sum_eq_zero (List.forall_mem_map.mpr fun c hc => ?_)
    simp [h c hc]
  rw [pairing_gradientSum hos hcs, pairing_gradientSum hos hnone, hzero]
  simp

theorem valueSum_monotone {scale : α} (hscale : 0 ≤ scale) (os cs : List (α × List α)) :
    Monotone fun w => valueSum (scale * w) os cs := by
  intro w w' hw
  have hfactor : scale * w ≤ scale * w' := mul_le_mul_of_nonneg_left hw hscale
  have hpenalties : 0 ≤ (cs.map fun c => max c.1 0 ^ 2).sum :=
    List.sum_nonneg (List.forall_mem_map.mpr fun c _ => sq_nonneg (max c.1 0))
  have hweighted := mul_le_mul_of_nonneg_right hfactor hpenalties
  simp only [valueSum]
  linarith

/-- Terms that have jets have values and gradients alone, which make up the jets. -/
theorem mapM_alone {ts : List (ResolvedTerm α)} {xs v : List α} {bs : List (α × α)}
    (h : List.Forall₂ (ResolvedTerm.Means (· < xs.length) (Meaning.jets { inputs := xs } v)) ts bs)
    (hv : v.length = xs.length) :
    ∃ os, ts.mapM (·.alone xs) = .ok os ∧ (∀ o ∈ os, o.2.length = xs.length) ∧
      bs = os.map fun o => (o.1, pairing o.2 v) := by
  induction h with
  | nil => exact ⟨[], rfl, by simp, rfl⟩
  | cons hmeans _ ih =>
    obtain ⟨o, ho, hlength, rfl⟩ := hmeans.alone hv
    obtain ⟨os, hos, hlengths, rfl⟩ := ih
    refine ⟨o :: os, mapM_eq_ok_iff.mpr (.cons ho (mapM_eq_ok_iff.mp hos)), ?_, rfl⟩
    exact List.forall_mem_cons.mpr ⟨hlength, hlengths⟩

/-- The jet of the output of an energy, from the terms alone. -/
theorem Energy.build_jets {objectives constraints : List (ResolvedTerm α)} {scale : α}
    {number out : Nat} {g : Graph α} {e : WeightedEnergy α} {xs v : List α}
    (hready : ∀ t ∈ objectives ++ constraints, t.Ready (fun _ => true) xs.length number)
    (hbuild : (build objectives constraints scale defaultPenalty).on { number } = (.ok out, g))
    (hv : v.length = xs.length) :
    g.Sound (· < xs.length) ∧ out < g.size ∧
      (∀ t ∈ objectives, ∃ b, t.Means (· < xs.length) (Meaning.jets { inputs := xs } v) b) ∧
      ∃ os cs, objectives.mapM (·.alone xs) = .ok os ∧ constraints.mapM (·.alone xs) = .ok cs ∧
        (∀ o ∈ os, o.2.length = xs.length) ∧ (∀ c ∈ cs, c.2.length = xs.length) ∧
        (Meaning.jets (e.point xs) v).read g.nodes out =
          (valueSum (scale * e.weight) os cs,
            pairing (gradientSum xs.length (scale * e.weight) os cs) v) := by
  let M := Meaning.jets (e.point xs) v
  let M' := Meaning.jets { inputs := xs } v
  have alike : M.Alike M' := ⟨rfl, rfl, rfl⟩
  have hterm : ∀ t ∈ objectives ++ constraints, ∀ g' : Graph α, g'.Sound (· < xs.length) →
      Graph.Grows { number } g' → t.record.Keeps (· < xs.length) g' fun g'' w =>
        ∃ b, t.Means (· < xs.length) M' b ∧ M.Denotes g'' w b := by
    intro t ht g' sound grows
    have hnumber : g'.number = number := grows.number
    exact ResolvedTerm.record_means alike (hnumber ▸ hready t ht) sound
  have hkeeps := build_keeps (M := M) (Q := fun c q => q = M.penalty c) scale
    (Graph.sound_empty _ number) hterm fun _ sound _ _ hw => defaultPenalty_reads sound hw
  obtain ⟨sound, _, bs, cs, qs, d, hbs, hcs, hqs, hlt, hread⟩ := hkeeps.of_ok hbuild
  obtain ⟨os, hos, hoslength, rfl⟩ := mapM_alone hbs hv
  obtain ⟨ks, hks, hkslength, rfl⟩ := mapM_alone hcs hv
  have hmeans : ∀ t ∈ objectives, ∃ b, t.Means (· < xs.length) M' b :=
    forall_right_of_forall₂ hbs.flip fun b _ h => ⟨b, h⟩
  refine ⟨sound, hlt, hmeans, os, ks, hos, hks, hoslength, hkslength, ?_⟩
  have hqs : qs = (ks.map fun c => (c.1, pairing c.2 v)).map M.penalty := by
    rw [← List.forall₂_eq_eq_eq, List.forall₂_map_right_iff]
    exact hqs.flip
  rw [hread, hqs, Meaning.energy_jets, pairing_gradientSum hoslength hkslength, valueSum]
  simp only [List.map_map, Function.comp_def, M, Meaning.penalty_jets]

/-- The value and the gradient of a compiled energy, from the terms alone. -/
theorem Energy.compile_sums {p : Problem α} {library : Library α} {scale : α} {e : Energy α}
    (hlibrary : library.Composed fun _ => true)
    (hcompile : compile p library scale defaultPenalty = .ok e) {xs : List α}
    (hxs : xs.length = e.count) :
    ∃ objectives constraints os cs, p.resolve library = .ok (objectives, constraints) ∧
      objectives.mapM (·.alone xs) = .ok os ∧ constraints.mapM (·.alone xs) = .ok cs ∧
      (∀ o ∈ os, o.2.length = e.count) ∧ (∀ c ∈ cs, c.2.length = e.count) ∧
      (∀ t ∈ objectives, ∃ b, t.Means (· < xs.length)
        (Meaning.jets { inputs := xs } (Vec.zeros xs.length)) b) ∧
      ∀ w, (e.atWeight w >>= fun f => f.value xs) = .ok (valueSum (scale * w) os cs) ∧
        (e.atWeight w >>= fun f => f.gradient xs) =
          .ok (gradientSum e.count (scale * w) os cs) := by
  obtain ⟨objectives, constraints, hresolve, hbuild, hcount, _, _⟩ := compile_eq_ok hcompile
  have hready := Problem.resolve_ready hlibrary hresolve
  rw [← hcount, ← hxs] at hready
  have hzeros : (Vec.zeros xs.length : List α).length = xs.length := by simp [Vec.zeros]
  obtain ⟨sound, hlt, hmeans, os, cs, hos, hcs, hoslength, hcslength, _⟩ :=
    build_jets (e := ⟨e, 0⟩) hready hbuild hzeros
  refine ⟨objectives, constraints, os, cs, hresolve, hos, hcs, hxs ▸ hoslength, hxs ▸ hcslength,
    hmeans, fun w => ?_⟩
  obtain ⟨x, gradient, hforward, hgradient, hlength, hjets⟩ :=
    Graph.gradient_eq_jets (p := WeightedEnergy.point ⟨e, w⟩ xs) sound hlt
  -- The values and gradients of the terms depend neither on the weight nor on the direction.
  have hjet (v : List α) (hv : v.length = xs.length) :
      (x, pairing gradient v) = (valueSum (scale * w) os cs,
        pairing (gradientSum xs.length (scale * w) os cs) v) := by
    obtain ⟨_, _, _, os', cs', hos', hcs', _, _, hread⟩ :=
      build_jets (e := ⟨e, w⟩) hready hbuild hv
    rw [hos] at hos'
    rw [hcs] at hcs'
    obtain rfl := Except.ok.inj hos'
    obtain rfl := Except.ok.inj hcs'
    exact (hjets v hv).symm.trans hread
  have hsum := length_gradientSum hoslength hcslength (scale * w)
  have hvalue : x = valueSum (scale * w) os cs := congrArg Prod.fst (hjet _ hzeros)
  have hslopes : gradient = gradientSum xs.length (scale * w) os cs :=
    eq_of_pairing (hlength.trans hsum.symm) fun v hv =>
      congrArg Prod.snd (hjet v (hv.trans hlength))
  rw [atWeight_eq (FieldScalar.isFinite_eq w)]
  constructor
  · rw [← hvalue]
    exact (WeightedEnergy.value_eq_forward hxs).trans hforward
  · rw [← hxs, ← hslopes]
    exact WeightedEnergy.gradient_eq_snd hxs hgradient

/-- **The gradient decomposes into those of the terms.** It is the sum of the objectives' gradients
and of the constraints', each of these as often as the constraint is violated, twice, and times the
scale and the weight. So satisfied constraints could as well be left out, and the value does not
decrease with the weight. -/
theorem Energy.gradient_decomposes (p : Problem α) (library : Library α) (scale : α) (e : Energy α)
    (hlibrary : library.Composed fun _ => true)
    (hcompile : compile p library scale defaultPenalty = .ok e) (xs : List α)
    (hxs : xs.length = e.count) :
    ∃ objectives constraints os cs, p.resolve library = .ok (objectives, constraints) ∧
      objectives.mapM (·.alone xs) = .ok os ∧ constraints.mapM (·.alone xs) = .ok cs ∧
      (∀ w, (e.atWeight w >>= fun f => f.gradient xs) =
        .ok (gradientSum e.count (scale * w) os cs)) ∧
      ((∀ c ∈ cs, c.1 ≤ 0) →
        ∃ e₀, compile { p with constraints := [] } library scale defaultPenalty = .ok e₀ ∧
          ∀ w, (e.atWeight w >>= fun f => f.value xs) = (e₀.atWeight w >>= fun f => f.value xs) ∧
            (e.atWeight w >>= fun f => f.gradient xs) =
              (e₀.atWeight w >>= fun f => f.gradient xs)) ∧
      ∃ value : α → α, (∀ w, (e.atWeight w >>= fun f => f.value xs) = .ok (value w)) ∧
        Monotone value := by
  obtain ⟨objectives, constraints, os, cs, hresolve, hos, hcs, hoslength, hcslength, hmeans,
    hsums⟩ := compile_sums hlibrary hcompile hxs
  obtain ⟨_, _, _, _, hcount, hscale, hnonneg⟩ := compile_eq_ok hcompile
  refine ⟨objectives, constraints, os, cs, hresolve, hos, hcs, fun w => (hsums w).2, ?_, ?_⟩
  · intro hsatisfied
    obtain ⟨hresolve₀, e₀, hcompile₀⟩ := compile_objectives defaultPenalty hresolve hnonneg hscale
      hmeans
    obtain ⟨_, _, _, _, hcount₀, _, _⟩ := compile_eq_ok hcompile₀
    have hsame : e₀.count = e.count := hcount₀.trans hcount.symm
    obtain ⟨objectives', constraints', os', cs', hresolve', hos', hcs', _, _, _, hsums₀⟩ :=
      compile_sums hlibrary hcompile₀ (hxs.trans hsame.symm)
    -- The problems have the same objectives, and these the same values and gradients.
    rw [hresolve₀] at hresolve'
    obtain ⟨rfl, rfl⟩ := Prod.mk.inj (Except.ok.inj hresolve')
    rw [hos] at hos'
    obtain rfl := Except.ok.inj hos'
    obtain rfl : [] = cs' := Except.ok.inj hcs'
    refine ⟨e₀, hcompile₀, fun w => ⟨?_, ?_⟩⟩
    · rw [(hsums w).1, (hsums₀ w).1, valueSum_satisfied hsatisfied]
    · rw [(hsums w).2, (hsums₀ w).2, gradientSum_satisfied hoslength hcslength hsatisfied, hsame]
  · have hpositive : 0 < scale := by simpa using hscale
    exact ⟨_, fun w => (hsums w).1, valueSum_monotone hpositive.le os cs⟩

end Sums

/-- The first variable is to be three, and both are to be at most one. -/
def threeButAtMostOne : Problem ℚ where
  objectives := [⟨"equal", [.varying 0, .number 3], .objective⟩]
  constraints := [⟨"lessThan", [.varying 0, .number 1], .constraint⟩,
    ⟨"lessThan", [.varying 1, .number 1], .constraint⟩]
  count := 2

theorem threeButAtMostOne_gradient :
    ∃ e : Energy ℚ, Energy.compile threeButAtMostOne Catalog.library 2 Energy.defaultPenalty =
        .ok e ∧ (e.atWeight 5 >>= fun f => f.gradient [2, 0]) = .ok [18, 0] := by
  have hcompiled : (Energy.compile threeButAtMostOne Catalog.library 2
      Energy.defaultPenalty).isOk = true := by decide +kernel
  have halone : (threeButAtMostOne.resolve Catalog.library >>= fun ts => do
      let os ← ts.1.mapM (·.alone [2, 0])
      let cs ← ts.2.mapM (·.alone [2, 0])
      return (os, cs)) = .ok ([(1, [-2, 0])], [(1, [1, 0]), (-1, [0, 1])]) := by decide +kernel
  cases hcompile : Energy.compile threeButAtMostOne Catalog.library 2 Energy.defaultPenalty with
  | error fault => rw [hcompile] at hcompiled; cases hcompiled
  | ok e =>
    obtain ⟨_, _, _, _, hcount, _, _⟩ := Energy.compile_eq_ok hcompile
    obtain ⟨objectives, constraints, os, cs, hresolve, hos, hcs, hgradient, _⟩ :=
      Energy.gradient_decomposes threeButAtMostOne Catalog.library 2 e
        (Catalog.library_composed _) hcompile [2, 0] hcount.symm
    simp only [hresolve, hos, hcs, bind, Except.bind, pure, Except.pure] at halone
    obtain ⟨rfl, rfl⟩ := Prod.mk.inj (Except.ok.inj halone)
    refine ⟨e, rfl, (hgradient 5).trans ?_⟩
    rw [hcount]
    decide +kernel

end DiagramLayout
