import DiagramLayout.Proofs.Energy.OnNumbers
import DiagramLayout.Proofs.Formula.Numeric
import DiagramLayout.Proofs.Graph.Construction

/-!
# Numbers and handles mixed

A body can be computed on numbers, or on a graph with handles of inputs in place of some of the
numbers. Then some of its operations are folded at once and the others become nodes, and what comes
out is the same.
-/

namespace DiagramLayout

variable {α β γ : Type}

namespace Graph

/-- A handle of an input stands for the number that the point has for this input. -/
def InputsAt (p : Point α) (g : Graph α) : Correspondence α := fun h v =>
  ∃ i x, g.Names h (.input i) ∧ p.inputs[i]? = some x ∧ v = .number x

variable [Scalar α] {inputs : Nat → Prop} {p : Point α} {g g' : Graph α}

theorem InputsAt.le_carries (hordered : g.Ordered) : InputsAt p g ≤ Carries p g := by
  intro h v hv
  obtain ⟨i, x, names, hx, rfl⟩ := hv
  have hread := names.reads (M := Meaning.values p) hordered
  simp only [Meaning.node, Meaning.values, List.getD_eq_getElem?_getD, hx, Option.getD_some]
    at hread
  obtain ⟨h', heq, own, hlt, hvalue⟩ := hread.denotes
  cases heq
  exact ⟨own, hlt, congrArg Except.ok hvalue.symm⟩

/-- A value that has a handle wherever another one has a number, and the node of the handle has
this number as its value. -/
inductive Evaluates (p : Point α) (g : Graph α) : Value α → Value α → Prop where
  | number {h : Handle} {x : α} : h.graph = g.number → g.forward p h.node = .ok x →
      Evaluates p g (.handle h) (.number x)
  | list {vs ws : List (Value α)} : List.Forall₂ (Evaluates p g) vs ws →
      Evaluates p g (.list vs) (.list ws)

/-- New nodes do not change what older ones evaluate to. -/
theorem forward_grows (sound : g.Sound (· < p.inputs.length))
    (sound' : g'.Sound (· < p.inputs.length)) (grows : g.Grows g') {out : Nat} {x : α}
    (h : g.forward p out = .ok x) : g'.forward p out = .ok x := by
  obtain ⟨_, hout, _⟩ := forward_eq_ok_iff.mp h
  rw [forward_eq_read sound hout] at h
  rw [forward_eq_read sound' (Nat.lt_of_lt_of_le hout grows.size_le), ← h,
    Meaning.read_grows _ grows hout]

theorem Evaluates.mono (sound : g.Sound (· < p.inputs.length))
    (sound' : g'.Sound (· < p.inputs.length)) (grows : g.Grows g') {v w : Value α}
    (hw : w.IsNumeric) (h : Evaluates p g v w) : Evaluates p g' v w := by
  induction hw generalizing v with
  | number x =>
    cases h with
    | number own hforward =>
      exact .number (own.trans grows.number.symm) (forward_grows sound sound' grows hforward)
  | list hnumeric ih =>
    cases h with
    | list hs =>
      refine .list ?_
      clear hnumeric
      induction hs with
      | nil => exact .nil
      | cons h _ ihs =>
        obtain ⟨ih, ihr⟩ := List.forall_mem_cons.mp ih
        exact .cons (ih h) (ihs ihr)

/-! ## Operations and lifting -/

/-- What stands for a number can be lifted. -/
theorem liftable_of_agrees {v w : Value α} (agrees : Value.Agrees .number (g.Carries p) v w)
    (hw : w.IsNumeric) {x : α} (hx : w.toNumber = .ok x) : g.Liftable v := by
  obtain rfl := hw.eq_number hx
  cases agrees with
  | handle _ carries => exact .inl ⟨_, rfl, carries.1, carries.2.1⟩
  | number x => exact .inr ⟨rfl, x, rfl⟩

/-- Where an operation can be computed on numbers, it can be done on what stands for them. -/
theorem operate_yields_onNumbers (sound : g.Sound inputs) {op : Op} {vs ws : List (Value α)}
    (takes : op.Takes vs.length) (operands : Value.AgreeAll .number (g.Carries p) vs ws)
    (numeric : Value.AreNumeric ws) {w : Value α} (hw : op.onNumbers ws = .ok w) :
    (operate op vs).Yields inputs g fun g' v => Value.Agrees .number (g'.Carries p) v w := by
  have hliftable : ∀ v ∈ vs, g.Liftable v := by
    obtain ⟨xs, hxs, heval⟩ := bind_eq_ok_iff.mp hw
    rw [mapM_eq_ok_iff] at hxs
    clear takes hw heval
    induction operands generalizing xs with
    | nil => simp
    | cons h _ ih =>
      cases hxs with
      | cons hx hxs =>
        obtain ⟨hnumeric, hrest⟩ := Value.areNumeric_cons.mp numeric
        exact List.forall_mem_cons.mpr ⟨liftable_of_agrees h hnumeric hx, ih hrest _ hxs⟩
  obtain ⟨v, g', hv, sound', grows, _⟩ := operate_yields sound takes hliftable
  have known : Value.AllKnown g vs := Value.AgreeAll.known (fun _ _ h => h.2.1) operands
  have computed := ((operate_keeps sound takes known).of_ok hv).2.2
  obtain ⟨w', hw', agrees⟩ := computed.onNumbers sound'.wellFormed.ordered
    (Value.AgreeAll.mono grows.carries operands)
  rw [hw] at hw'
  cases hw'
  exact ⟨v, g', hv, sound', grows, agrees⟩

end Graph

variable [Scalar α] {inputs : Nat → Prop} {p : Point α} {g : Graph α}

/-- Where a formula ends on numbers it ends on a graph, with what stands for the same result. -/
theorem Formula.record_yields_eval {rel : Correspondence α → β → γ → Prop} {P : γ → Prop}
    {m : Formula α β} {n : Formula α γ} (agrees : Formula.Agrees .number rel (g.Carries p) m n)
    (numeric : n.Numeric P) (sound : g.Sound inputs) {c : γ} (hc : n.eval = .ok c) :
    m.record.Yields inputs g fun g' b => P c ∧ rel (g'.Carries p) b c := by
  induction m generalizing g n with
  | done b =>
    cases agrees with
    | done h =>
      cases hc
      exact .pure sound ⟨numeric, h⟩
  | fault e =>
    cases agrees
    cases hc
  | operate op vs next ih =>
    cases agrees with
    | @operate _ _ _ ws _ next' takes operands hnext =>
      obtain ⟨hws, hrest⟩ := numeric
      -- The result of an operation on numbers is a number, whatever the operands.
      obtain ⟨x, hx⟩ : ∃ x, op.onNumbers ws = .ok (.number x) := by
        cases hw : op.onNumbers ws with
        | error e => simp [eval, hw] at hc
        | ok w =>
          obtain ⟨xs, _, hw⟩ := bind_eq_ok_iff.mp hw
          cases hw
          exact ⟨_, rfl⟩
      rw [eval, hx] at hc
      refine (Graph.operate_yields_onNumbers sound takes operands hws hx).bind ?_
      intro g' v sound' grows hv
      exact ih v (hnext _ v _ grows.carries hv) (hrest x) sound' hc

namespace Graph

/-- Lifting gives handles that evaluate to the numbers that the lifted value stands for. -/
theorem lift_yields_evaluates {w : Value α} (hw : w.IsNumeric) {v : Value α}
    (sound : g.Sound (· < p.inputs.length)) (agrees : Value.Agrees .number (g.Carries p) v w) :
    (lift v).Yields (· < p.inputs.length) g fun g' u => g'.Evaluates p u w := by
  induction hw generalizing v g with
  | number x =>
    obtain ⟨u, g', hu, sound', grows, lifted⟩ :=
      lift_yields sound (liftable_of_agrees agrees (.number x) rfl)
    refine ⟨u, g', hu, sound', grows, ?_⟩
    cases lifted with
    | list _ => cases agrees
    | @node _ i stands =>
      have hread : (Meaning.values p).Reads g' v ((Meaning.values p).read g'.nodes i) :=
        stands.reads sound'.wellFormed.ordered
      have hnumber := hread.toNumber (agrees.mono grows.carries)
      refine .number rfl ?_
      rw [show (g'.handle i).node = i from rfl, forward_eq_read sound' stands.lt,
        ← Except.ok.inj hnumber]
  | @list ws hws ih =>
    cases agrees with
    | handle admits => exact admits.elim
    | @list vs _ hs =>
      have hall : (liftAll vs).Yields (· < p.inputs.length) g fun g' us =>
          List.Forall₂ (g'.Evaluates p) us ws := by
        induction ws generalizing vs g with
        | nil =>
          cases hs
          exact .pure sound .nil
        | cons w ws ihs =>
          cases hs with
          | cons h hs =>
            obtain ⟨hw, hws⟩ := List.forall_mem_cons.mp hws
            obtain ⟨ih, ihr⟩ := List.forall_mem_cons.mp ih
            refine (ih sound h).bind ?_
            intro g' u sound' grows hu
            refine (ihs hws ihr sound' (Value.AgreeAll.mono grows.carries hs)).bind ?_
            intro g'' us sound'' grows' hus
            exact .pure sound'' (.cons (hu.mono sound' sound'' grows' hw) hus)
      rw [lift]
      exact hall.bind fun _ _ sound' _ hus => .pure sound' (.list hus)

end Graph

/-! ## Bodies -/

namespace Body

omit [Scalar α] in
theorem areComposed_iff {allowed : Function → Bool} {bs : List (Body α)} :
    areComposed allowed bs = true ↔ ∀ b ∈ bs, b.isComposed allowed = true := by
  induction bs with
  | nil => simp [areComposed]
  | cons b bs ih => simp [areComposed, ih]

omit [Scalar α] in
/-- No function of an arithmetic body is a power. -/
theorem IsArithmetic.isComposed {b : Body α} (h : b.IsArithmetic) :
    b.isComposed (· != .power) = true := by
  induction h with
  | literal x => rfl
  | parameter name => rfl
  | list _ ih => exact areComposed_iff.mpr ih
  | item _ _ ih => exact ih
  | call hf _ ih => simp [Body.isComposed, hf, areComposed_iff.mpr ih]

/-- **Computing at once and on a graph agree.** A body that has a value for numbers can be recorded
with handles of inputs in place of some of them, and the nodes of the result have this value. -/
theorem record_evaluates (b : Body α) (hb : b.IsArithmetic) (g : Graph α) (built : g.Built)
    (p : Point α) (hinputs : ∀ i, .input i ∈ g.nodes → i < p.inputs.length)
    (numbers mixed : List (String × Value α)) (hnumbers : ∀ e ∈ numbers, e.2.IsNumeric)
    (hmixed : EnvironmentAgrees .number (g.InputsAt p) mixed numbers) (r : Value α)
    (hr : (b.formula numbers).eval = .ok r) :
    ∃ v g', ((b.formula mixed).record >>= Graph.lift).on g = (.ok v, g') ∧ g.Grows g' ∧
      g'.Evaluates p v r := by
  have sound : g.Sound (· < p.inputs.length) := ⟨built.sound.wellFormed, hinputs⟩
  have hordered := built.ordered
  have agrees := formula_agrees (k := .number) (fun _ => rfl)
    (hmixed.mono (Graph.InputsAt.le_carries hordered)) b hb.isComposed
  have numeric := formula_numeric hnumbers hb
  have hyields : ((b.formula mixed).record >>= Graph.lift).Yields (· < p.inputs.length) g
      fun g' v => g'.Evaluates p v r := by
    refine (Formula.record_yields_eval agrees numeric sound hr).bind ?_
    intro g' v sound' _ hv
    exact Graph.lift_yields_evaluates hv.1 sound' hv.2
  obtain ⟨v, g', hv, _, grows, evaluates⟩ := hyields
  exact ⟨v, g', hv, grows, evaluates⟩

/-- A vector minus the double of another one that shares a coordinate with it. -/
def sharedDifference : Body ℚ :=
  .call (.vector .sub) [.list [.parameter "x", .parameter "y"],
    .call (.vector .scale) [.constant (.number 2), .list [.parameter "y", .parameter "y"]]]

/-- The graph of a single input. -/
def oneInput : Graph ℚ := { nodes := [.input 0] }

/-- One coordinate is an input, and the other one is a number. -/
theorem sharedDifference_evaluates :
    ∃ v g', ((sharedDifference.formula
        [("x", .handle ⟨0, 0⟩), ("y", .number 3)]).record >>= Graph.lift).on oneInput =
          (.ok v, g') ∧
      oneInput.Grows g' ∧ g'.Evaluates ⟨[5], []⟩ v (.list [.number (-1), .number (-3)]) := by
  have arithmetic : sharedDifference.IsArithmetic := by
    refine .call (by decide) ?_
    simp only [List.forall_mem_cons, List.not_mem_nil, false_implies, implies_true, and_true]
    constructor
    · exact .list (by simp [IsArithmetic.parameter])
    · refine .call (by decide) ?_
      simp only [List.forall_mem_cons, List.not_mem_nil, false_implies, implies_true, and_true]
      exact ⟨.literal 2, .list (by simp [IsArithmetic.parameter])⟩
  have built : oneInput.Built := .step (.input 0) (.empty 0) trivial
  have names : oneInput.Names ⟨0, 0⟩ (.input 0) := ⟨0, rfl, rfl⟩
  have inputs : ∀ i, .input i ∈ oneInput.nodes → i < [(5 : ℚ)].length := by simp [oneInput]
  refine record_evaluates sharedDifference arithmetic oneInput built ⟨[5], []⟩ inputs
    [("x", .number 5), ("y", .number 3)] _ (by simp) ?_ _ (by with_unfolding_all rfl)
  exact .cons ⟨rfl, .handle trivial ⟨0, 5, names, rfl, rfl⟩⟩ (.cons ⟨rfl, .number 3⟩ .nil)

end Body

end DiagramLayout
