import DiagramLayout.Proofs.Graph.Tangent
import DiagramLayout.Proofs.Scalar.FirstOrder
import Mathlib.Tactic.IntervalCases

namespace DiagramLayout

variable {α : Type} [FieldScalar α]

/-- A number that moves as a point does, its value at the start and its slope there. -/
structure Curve (α : Type) [FieldScalar α] where
  along : α → α
  value : α
  slope : α
  firstOrder : FirstOrder along value slope

/-- A curve that stands still near its start. -/
def Curve.Steady (c : Curve α) : Prop := Near fun h => c.along h = c.value

/-- The operands at which an operation has a derivative. The elementary functions are left out; the
condition of a choice is asked for elsewhere. -/
def Op.Smooth : Op → List α → Prop
  | sum, _ => True
  | neg, [_] | square, [_] => True
  | add, [_, _] | sub, [_, _] | mul, [_, _] => True
  | choose, [_, _, _] => True
  | div, [_, b] => b ≠ 0
  | abs, [a] => a ≠ 0
  | max, [a, b] | min, [a, b] | less, [a, b] => a ≠ b
  | _, _ => False

namespace Op

theorem sum_firstOrder (cs : List (Curve α)) :
    FirstOrder (fun h => (cs.map fun c => c.along h).sum) (cs.map Curve.value).sum
      (cs.map Curve.slope).sum := by
  induction cs with
  | nil => exact .const 0
  | cons c cs ih => exact c.firstOrder.add ih

/-- A comparison of curves that are apart stays as it is. -/
theorem eval_less_near {a b : Curve α} (hab : a.value ≠ b.value) :
    Near fun h => eval less [a.along h, b.along h] = eval less [a.value, b.value] := by
  rcases lt_or_gt_of_ne hab with hlt | hgt
  · refine (a.firstOrder.near_lt b.firstOrder hlt).mono ?_
    intro h hh
    simp [eval, hlt, hh]
  · refine (b.firstOrder.near_lt a.firstOrder hgt).mono ?_
    intro h hh
    simp [eval, hgt.not_gt, hh.not_gt]

/-- A choice whose condition stands still or is not zero takes the same branch near the start. -/
theorem eval_choose_firstOrder {c a b : Curve α} (hc : c.Steady ∨ c.value ≠ 0) (out : α) :
    FirstOrder (fun h => eval choose [c.along h, a.along h, b.along h])
      (eval choose [c.value, a.value, b.value])
      (pairing (partials choose [c.value, a.value, b.value] out) [c.slope, a.slope, b.slope]) := by
  have hbranch : Near fun h => c.along h = 0 ↔ c.value = 0 := by
    rcases hc with hsteady | hne
    · exact hsteady.mono fun h hh => by rw [hh]
    · exact (c.firstOrder.near_ne hne).mono fun h hh => iff_of_false hh hne
  by_cases hzero : c.value = 0
  · have hsame : Near fun h => eval choose [c.along h, a.along h, b.along h] = b.along h :=
      hbranch.mono fun h hh => by simp [eval, hh.mpr hzero]
    simpa [eval, partials, hzero] using b.firstOrder.congr hsame
  · have hsame : Near fun h => eval choose [c.along h, a.along h, b.along h] = a.along h :=
      hbranch.mono fun h hh => by simp [eval, mt hh.mp hzero]
    simpa [eval, partials, hzero] using a.firstOrder.congr hsame

/-- The value of an operation leaves its start with the slope that the local derivatives give. -/
theorem eval_firstOrder (op : Op) (cs : List (Curve α)) (out : α)
    (hsmooth : op.Smooth (cs.map Curve.value))
    (hchoose : op = choose → ∀ c ∈ cs.head?, c.Steady ∨ c.value ≠ 0) :
    FirstOrder (fun h => op.eval (cs.map fun c => c.along h)) (op.eval (cs.map Curve.value))
      (pairing (op.partials (cs.map Curve.value) out) (cs.map Curve.slope)) := by
  cases op with
  | sum =>
    rw [pairing_partials_sum (by simp)]
    simp only [eval_sum]
    exact sum_firstOrder cs
  | add =>
    rcases cs with _ | ⟨a, _ | ⟨b, _ | _⟩⟩
    case cons.cons.nil =>
      have h := a.firstOrder.add b.firstOrder
      simpa [eval, partials] using h
    all_goals exact hsmooth.elim
  | sub =>
    rcases cs with _ | ⟨a, _ | ⟨b, _ | _⟩⟩
    case cons.cons.nil =>
      have h := a.firstOrder.sub b.firstOrder
      simpa [eval, partials, sub_eq_add_neg] using h
    all_goals exact hsmooth.elim
  | mul =>
    rcases cs with _ | ⟨a, _ | ⟨b, _ | _⟩⟩
    case cons.cons.nil =>
      have h := a.firstOrder.mul b.firstOrder
      simpa [eval, partials] using h
    all_goals exact hsmooth.elim
  | div =>
    rcases cs with _ | ⟨a, _ | ⟨b, _ | _⟩⟩
    case cons.cons.nil =>
      have h := a.firstOrder.div b.firstOrder hsmooth
      simpa [eval, partials] using h
    all_goals exact hsmooth.elim
  | neg =>
    rcases cs with _ | ⟨a, _ | _⟩
    case cons.nil => simpa [eval, partials] using a.firstOrder.neg
    all_goals exact hsmooth.elim
  | square =>
    rcases cs with _ | ⟨a, _ | _⟩
    case cons.nil =>
      have h := a.firstOrder.mul a.firstOrder
      rw [← two_mul, ← mul_assoc] at h
      simpa [eval, partials] using h
    all_goals exact hsmooth.elim
  | abs =>
    rcases cs with _ | ⟨a, _ | _⟩
    case cons.nil =>
      rcases lt_or_gt_of_ne hsmooth with hneg | hpos
      · have h := a.firstOrder.abs_negative hneg
        simpa [eval, partials, Scalar.sign_eq_neg_one hneg] using h
      · have h := a.firstOrder.abs_positive hpos
        simpa [eval, partials, Scalar.sign_eq_one hpos] using h
    all_goals exact hsmooth.elim
  | max =>
    rcases cs with _ | ⟨a, _ | ⟨b, _ | _⟩⟩
    case cons.cons.nil =>
      rcases lt_or_gt_of_ne hsmooth with hlt | hgt
      · have h := a.firstOrder.max_right b.firstOrder hlt
        simpa [eval, partials, hlt.not_gt] using h
      · have h := a.firstOrder.max_left b.firstOrder hgt
        simpa [eval, partials, hgt] using h
    all_goals exact hsmooth.elim
  | min =>
    rcases cs with _ | ⟨a, _ | ⟨b, _ | _⟩⟩
    case cons.cons.nil =>
      rcases lt_or_gt_of_ne hsmooth with hlt | hgt
      · have h := a.firstOrder.min_left b.firstOrder hlt
        simpa [eval, partials, hlt] using h
      · have h := a.firstOrder.min_right b.firstOrder hgt
        simpa [eval, partials, hgt.not_gt] using h
    all_goals exact hsmooth.elim
  | less =>
    rcases cs with _ | ⟨a, _ | ⟨b, _ | _⟩⟩
    case cons.cons.nil =>
      have h := (FirstOrder.const (eval less [a.value, b.value])).congr (eval_less_near hsmooth)
      simpa [partials] using h
    all_goals exact hsmooth.elim
  | choose =>
    rcases cs with _ | ⟨c, _ | ⟨a, _ | ⟨b, _ | _⟩⟩⟩
    case cons.cons.cons.nil => exact eval_choose_firstOrder (hchoose rfl c rfl) out
    all_goals exact hsmooth.elim
  | sqrt | exp | log | sin | cos =>
    rcases cs with _ | ⟨a, _ | _⟩ <;> exact hsmooth.elim

end Op

/-! ## Passes near a point -/

/-- A point moved along a direction of its inputs. -/
def Point.shift (p : Point α) (h : α) (direction : List α) : Point α :=
  { p with inputs := p.inputs.zipWith (fun x d => x + h * d) direction }

theorem Point.length_shift {p : Point α} {direction : List α}
    (hlength : direction.length = p.inputs.length) (h : α) :
    (p.shift h direction).inputs.length = p.inputs.length := by
  simp [shift, hlength]

/-- A node whose value jumps or stands still. -/
def Node.IsStep : Node α → Prop
  | const _ | slot .. | apply .less _ => True
  | _ => False

/-- At these values every node up to an output has a derivative. The condition of a choice stands
still near them or is not zero. -/
def Graph.Smooth (g : Graph α) (values : Array α) (out : Nat) : Prop :=
  ∀ i ≤ out, ∀ op operands, g.node? i = some (.apply op operands) →
    op.Smooth (Node.operandValues values operands) ∧
      (op = .choose → ∀ c ∈ operands.head?,
        (∃ node, g.node? c = some node ∧ node.IsStep) ∨ values.getD c 0 ≠ 0)

/-- The curve of a node from the curves of the older ones. -/
theorem Node.exists_curve {p : Point α} {direction : List α}
    (hlength : direction.length = p.inputs.length) {before tangents : Array α}
    {shifted : α → Array α} {curve : Nat → Curve α}
    (hvalue : ∀ i, (curve i).value = before.getD i 0)
    (hslope : ∀ i, (curve i).slope = tangents.getD i 0)
    (halong : ∀ i h, (shifted h).getD i 0 = (curve i).along h) {values : Array α} {node : Node α}
    (hvalues : ∀ i ∈ node.operands, values.getD i 0 = before.getD i 0) {x : α}
    (hx : node.value? p before = some x)
    (hsmooth : ∀ op operands, node = .apply op operands →
      op.Smooth (operandValues values operands) ∧
        (op = .choose → ∀ c ∈ operands.head?, (curve c).Steady ∨ (curve c).value ≠ 0)) (out : α) :
    ∃ c : Curve α, c.value = x ∧ c.slope = node.tangent values out direction tangents ∧
      (∀ h, node.value? (p.shift h direction) (shifted h) = some (c.along h)) ∧
      (node.IsStep → c.Steady) := by
  cases node with
  | const a =>
    obtain rfl : a = x := Option.some.inj hx
    exact ⟨⟨_, _, _, .const a⟩, rfl, rfl, fun _ => rfl, fun _ => .of_forall fun _ => rfl⟩
  | slot name default =>
    obtain rfl : p.slot name default = x := Option.some.inj hx
    exact ⟨⟨_, _, _, .const _⟩, rfl, rfl, fun _ => rfl, fun _ => .of_forall fun _ => rfl⟩
  | input i =>
    have hin : p.inputs[i]? = some x := hx
    obtain ⟨hi, _⟩ := List.getElem?_eq_some_iff.mp hin
    have hd : direction[i]? = some (direction.getD i 0) := by
      simp [List.getD, hlength, hi]
    refine ⟨⟨_, _, _, .line x (direction.getD i 0)⟩, rfl, rfl, fun h => ?_, fun h => h.elim⟩
    simp only [value?, Point.shift, List.getElem?_zipWith, hin, hd]
  | apply op operands =>
    have hvals : (operands.map curve).map Curve.value = operandValues values operands := by
      simp only [operandValues, List.map_map, RingScalar.zero_literal]
      exact List.map_congr_left fun i hi => (hvalue i).trans (hvalues i hi).symm
    have hbefore : (operands.map curve).map Curve.value = operandValues before operands := by
      simp only [operandValues, List.map_map, RingScalar.zero_literal]
      exact List.map_congr_left fun i _ => hvalue i
    have hslopes : (operands.map curve).map Curve.slope =
        operands.map fun i => tangents.getD i 0 := by
      rw [List.map_map]
      exact List.map_congr_left fun i _ => hslope i
    have hpath (h : α) : (operands.map curve).map (fun c => c.along h) =
        operandValues (shifted h) operands := by
      simp only [operandValues, List.map_map, RingScalar.zero_literal]
      exact List.map_congr_left fun i _ => (halong i h).symm
    obtain ⟨hop, hcondition⟩ := hsmooth op operands rfl
    have hchoose : op = .choose → ∀ c ∈ (operands.map curve).head?, c.Steady ∨ c.value ≠ 0 := by
      intro hop' c hc
      rw [List.head?_map, Option.mem_map] at hc
      obtain ⟨i, hi, rfl⟩ := hc
      exact hcondition hop' i hi
    have hfirst := Op.eval_firstOrder op (operands.map curve) out (hvals ▸ hop) hchoose
    refine ⟨⟨_, _, _, hfirst⟩, ?_, ?_, fun h => ?_, fun hstep => ?_⟩
    · exact (congrArg op.eval hbefore).trans (Option.some.inj hx)
    · rw [Node.tangent_apply, ← hvals, ← hslopes]
    · simp only [value?, hpath]
    · -- Of the operations only a comparison is a step.
      cases op with
      | less =>
        rcases operands with _ | ⟨i, _ | ⟨j, _ | _⟩⟩
        case cons.cons.nil =>
          refine Op.eval_less_near (a := curve i) (b := curve j) ?_
          rw [← hvals] at hop
          exact hop
        all_goals exact hop.elim
      | _ => exact hstep.elim

namespace Graph

/-- A moved point has the inputs that the point has. -/
theorem evaluate_shift {p : Point α} {direction : List α}
    (hlength : direction.length = p.inputs.length) {nodes : List (Node α)} {values : Array α}
    (hvalues : evaluate p nodes = (values, true)) (h : α) :
    evaluate (p.shift h direction) nodes = ((evaluate (p.shift h direction) nodes).1, true) := by
  have hinputs := (evaluate_isComplete_iff p nodes).mp (by rw [hvalues])
  rw [← Point.length_shift hlength h, ← evaluate_isComplete_iff] at hinputs
  exact Prod.ext rfl hinputs

/-- The value of a node follows a curve as the point moves, and the slope of the curve is its tangent. -/
structure Moves (g : Graph α) (p : Point α) (values : Array α) (direction : List α)
    (nodes : List (Node α)) (before : Array α) (i : Nat) (c : Curve α) : Prop where
  value : c.value = before.getD i 0
  slope : c.slope = (tangents values direction nodes).getD i 0
  along : ∀ h, (evaluate (p.shift h direction) nodes).1.getD i 0 = c.along h
  steady : ∀ node, g.node? i = some node → i < nodes.length → node.IsStep → c.Steady

section
variable {g : Graph α} {p : Point α} {values before : Array α} {direction : List α}
  {node : Node α} {older : List (Node α)}

theorem evaluate_push (hlength : direction.length = p.inputs.length)
    (hbefore : evaluate p older = (before, true)) {c : Curve α}
    (hc : ∀ h, node.value? (p.shift h direction) (evaluate (p.shift h direction) older).1 =
      some (c.along h)) (h : α) : (evaluate (p.shift h direction) (node :: older)).1 =
        (evaluate (p.shift h direction) older).1.push (c.along h) := by
  rw [evaluate_cons_iff.mpr ⟨_, _, evaluate_shift hlength hbefore h, hc h, rfl⟩]

/-- The newest node of a pass moves along its curve. -/
theorem moves_newest (hlength : direction.length = p.inputs.length)
    (hbefore : evaluate p older = (before, true)) (hnode : g.node? older.length = some node)
    {c : Curve α}
    (hslope : c.slope = node.tangent values (values.getD older.length 0) direction
      (tangents values direction older))
    (hc : ∀ h, node.value? (p.shift h direction) (evaluate (p.shift h direction) older).1 =
      some (c.along h)) (hsteady : node.IsStep → c.Steady) :
    g.Moves p values direction (node :: older) (before.push c.value) older.length c where
  value := by rw [← size_of_evaluate hbefore, getD_push_size]
  slope := by rw [tangents, ← hslope, ← size_tangents values direction older, getD_push_size]
  along h := by
    rw [evaluate_push hlength hbefore hc h,
      ← size_of_evaluate (evaluate_shift hlength hbefore h), getD_push_size]
  steady node' hnode' _ := by
    rw [hnode] at hnode'
    exact Option.some.inj hnode' ▸ hsteady

/-- An older node moves as before. -/
theorem Moves.push (hlength : direction.length = p.inputs.length)
    (hbefore : evaluate p older = (before, true)) {i : Nat} (hi : i ≠ older.length) {d c : Curve α}
    (h : g.Moves p values direction older before i d) (x : α)
    (hc : ∀ h, node.value? (p.shift h direction) (evaluate (p.shift h direction) older).1 =
      some (c.along h)) : g.Moves p values direction (node :: older) (before.push x) i d where
  value := by rw [getD_push_of_ne (by rwa [size_of_evaluate hbefore]), h.value]
  slope := by rw [tangents, getD_push_of_ne (by rwa [size_tangents]), h.slope]
  along t := by
    have hsize := size_of_evaluate (evaluate_shift hlength hbefore t)
    rw [evaluate_push hlength hbefore hc t, getD_push_of_ne (by rwa [hsize]), h.along]
  steady node' hnode' hlt := by
    rw [List.length_cons] at hlt
    exact h.steady node' hnode' (by omega)

end

/-- Every node of a pass moves along a curve, by induction over the nodes. -/
theorem evaluate_firstOrder {g : Graph α} (hordered : g.Ordered) {p : Point α} {out : Nat}
    {values : Array α} (hvalues : evaluate p (g.upTo out) = (values, true))
    (hsmooth : g.Smooth values out) {direction : List α}
    (hlength : direction.length = p.inputs.length) {nodes : List (Node α)}
    (hs : nodes <:+ g.upTo out) {before : Array α} (hbefore : evaluate p nodes = (before, true)) :
    ∀ i, ∃ c : Curve α, g.Moves p values direction nodes before i c := by
  induction nodes generalizing before with
  | nil =>
    intro i
    obtain rfl : #[] = before := congrArg Prod.fst hbefore
    exact ⟨⟨_, _, _, .const 0⟩, by simp, by simp [tangents], by simp [evaluate], by simp⟩
  | cons node older ih =>
    obtain ⟨rest, x, hrest, hx, rfl⟩ := evaluate_cons_iff.mp hbefore
    have holder : older <:+ g.upTo out := (List.suffix_cons node older).trans hs
    choose curve hcurve using ih holder hrest
    have hnode : g.node? older.length = some node := node?_of_suffix (hs.trans (upTo_suffix g out))
    have hout : older.length ≤ out := by
      have := hs.length_le
      simp only [List.length_cons, length_upTo] at this
      omega
    have hbelow : ∀ i ∈ node.operands, i < older.length := hordered older.length node hnode
    have hsame : ∀ i < older.length, values.getD i 0 = rest.getD i 0 := by
      obtain ⟨rest', hrest', same⟩ := evaluate_suffix holder hvalues
      rw [hrest] at hrest'
      obtain rfl : rest = rest' := congrArg Prod.fst hrest'
      intro i hi
      simp only [Array.getD_eq_getD_getElem?, same i hi]
    have hsmooth' : ∀ op operands, node = .apply op operands →
        op.Smooth (Node.operandValues values operands) ∧
          (op = .choose → ∀ c ∈ operands.head?, (curve c).Steady ∨ (curve c).value ≠ 0) := by
      rintro op operands rfl
      obtain ⟨hop, hcondition⟩ := hsmooth older.length hout op operands hnode
      refine ⟨hop, fun hchoose c hc => ?_⟩
      have hlt : c < older.length := hbelow c (List.mem_of_head? hc)
      rcases hcondition hchoose c hc with ⟨step, hstep, his⟩ | hne
      · exact .inl ((hcurve c).steady step hstep hlt his)
      · exact .inr (by rwa [(hcurve c).value, ← hsame c hlt])
    obtain ⟨c, rfl, hslope, halong, hsteady⟩ :=
      Node.exists_curve hlength (fun i => (hcurve i).value) (fun i => (hcurve i).slope)
        (fun i h => (hcurve i).along h) (fun i hi => hsame i (hbelow i hi)) hx hsmooth'
        (values.getD older.length 0)
    intro i
    by_cases hi : i = older.length
    · subst hi
      exact ⟨c, moves_newest hlength hrest hnode hslope halong hsteady⟩
    · exact ⟨curve i, (hcurve i).push hlength hrest hi c.value halong⟩

/-- **The gradient is the derivative.** Where the nodes up to an output are smooth the gradient
exists, and in every direction what `forward` computes misses its line by an error of second order
only. -/
theorem gradient_firstOrder (g : Graph α) (hordered : g.Ordered) (p : Point α) (out : Nat) (y : α)
    (hforward : g.forward p out = .ok y) (hsmooth : g.Smooth (g.valuesUpTo p out) out) :
    ∃ gradient, g.gradient p out = .ok (y, gradient) ∧
      ∀ v : List α, v.length = p.inputs.length →
        ∃ C δ, 0 ≤ C ∧ 0 < δ ∧ ∀ h, |h| ≤ δ → ∃ z, g.forward (p.shift h v) out = .ok z ∧
          |z - y - h * pairing gradient v| ≤ C * h ^ 2 := by
  obtain ⟨values, hout, hvalues, hy⟩ := forward_eq_ok_iff.mp hforward
  have hpass : g.valuesUpTo p out = values := by rw [valuesUpTo, hvalues]
  rw [hpass] at hsmooth
  have hinputs := (evaluate_isComplete_iff p (g.upTo out)).mp (by rw [hvalues])
  obtain ⟨gradient, hgradient, _, hpairing⟩ := backward_pairing hout hinputs values
  refine ⟨gradient, by simp [Graph.gradient, hpass, hy, hgradient, Except.map], fun v hv => ?_⟩
  obtain ⟨c, ⟨hvalue, hslope, halong, _⟩⟩ :=
    evaluate_firstOrder hordered hvalues hsmooth hv (List.suffix_refl _) hvalues out
  obtain ⟨C, hC, δ, hδ, hnear⟩ := c.firstOrder
  refine ⟨C, δ, hC, hδ, fun h hh => ⟨c.along h, ?_, ?_⟩⟩
  · have hpass' := evaluate_shift hv hvalues h
    have hsize := size_of_evaluate hpass'
    rw [length_upTo] at hsize
    refine forward_eq_ok_iff.mpr ⟨_, hout, hpass', ?_⟩
    have hlt : out < (evaluate (p.shift h v) (g.upTo out)).1.size := by omega
    rw [← halong h, Array.getD_eq_getD_getElem?, Array.getElem?_eq_getElem hlt, Option.getD_some]
  · have hy' : c.value = y := by rw [hvalue, Array.getD_eq_getD_getElem?, hy, Option.getD_some]
    have hslope' : c.slope = pairing gradient v := hslope.trans (hpairing v hv).symm
    rw [← hy', ← hslope']
    exact hnear h hh

end Graph

/-- The lesser of the first input and a quotient or a distance, as a comparison chooses. -/
def chosenQuotient : Graph ℚ where
  nodes := [.apply .min [6, 0], .apply .choose [2, 4, 5], .apply .abs [1], .apply .div [3, 1],
    .apply .mul [0, 0], .apply .less [0, 1], .input 1, .input 0]

theorem chosenQuotient_gradient_firstOrder :
    ∃ gradient, chosenQuotient.gradient { inputs := [3, 4] } 7 = .ok (9 / 4, gradient) ∧
      ∃ C δ, 0 ≤ C ∧ 0 < δ ∧ ∀ h, |h| ≤ δ → ∃ z,
        chosenQuotient.forward (Point.shift { inputs := [3, 4] } h [2, 16]) 7 = .ok z ∧
          |z - 9 / 4 - h * pairing gradient [2, 16]| ≤ C * h ^ 2 := by
  have hvalues : chosenQuotient.valuesUpTo { inputs := [3, 4] } 7 =
      #[3, 4, 1, 9, 9 / 4, 4, 9 / 4, 9 / 4] := by decide +kernel
  have hordered : chosenQuotient.Ordered := by
    intro i node hnode
    obtain ⟨older, hs, rfl⟩ := Graph.node?_eq_some_iff.mp hnode
    have hlt : older.length < 8 := hs.length_le
    interval_cases older.length <;> cases hnode <;> simp [Node.operands]
  have hsmooth : chosenQuotient.Smooth
      (chosenQuotient.valuesUpTo { inputs := [3, 4] } 7) 7 := by
    rw [hvalues]
    intro i hi op operands hnode
    interval_cases i <;> cases hnode <;> norm_num [Op.Smooth, Node.operandValues]
  obtain ⟨gradient, hgradient, hv⟩ := Graph.gradient_firstOrder chosenQuotient hordered
    { inputs := [3, 4] } 7 (9 / 4) (by decide +kernel) hsmooth
  exact ⟨gradient, hgradient, hv [2, 16] rfl⟩

end DiagramLayout
