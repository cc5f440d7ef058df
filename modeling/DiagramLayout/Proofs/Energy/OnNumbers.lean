import DiagramLayout.Proofs.Energy.Recorded
import DiagramLayout.Proofs.Scalar.Exact
import DiagramLayout.Graph.Tape

/-!
# An energy computed on numbers

The graph of an energy computes what its formula says, over any scalars: the terms with numbers in
place of their variables, summed up and weighted. Some of a term's operations were folded while it
was built and some are nodes; a handle always agrees with the number that its node has.
-/

namespace DiagramLayout

variable {α β γ : Type} [Scalar α]

mutual

/-- An argument with numbers in place of its variables. -/
def Value.substitute (xs : List α) : Value α → Value α
  | .varying i => .number (xs.getD i.toNat 0.0)
  | .list vs => .list (Value.substituteAll xs vs)
  | v => v

/-- Arguments with numbers in place of their variables. -/
def Value.substituteAll (xs : List α) : List (Value α) → List (Value α)
  | [] => []
  | v :: vs => Value.substitute xs v :: Value.substituteAll xs vs

end

/-- The sum of numbers: zero for none, and a single one as it is. -/
def Scalar.total : List α → α
  | [] => 0.0
  | [x] => x
  | xs => Op.sum.eval xs

/-- A term computed on numbers. -/
def ResolvedTerm.onNumbers (t : ResolvedTerm α) (xs : List α) : Except Fault α := do
  let result ← (t.function.call (Value.substituteAll xs t.term.arguments)).eval
  result.toNumber

/-- The penalty of a number. -/
def TermFunction.penaltyOnNumbers (penalty : TermFunction α) (c : α) : Except Fault α := do
  let result ← (penalty.call [.number c]).eval
  result.toNumber

/-- The energy of a problem computed on numbers. -/
def Problem.onNumbers (p : Problem α) (library : Library α) (scale : α) (penalty : TermFunction α)
    (weight : α) (xs : List α) : Except Fault α := do
  let (objectives, constraints) ← p.resolve library
  let os ← objectives.mapM (·.onNumbers xs)
  let cs ← constraints.mapM (·.onNumbers xs)
  let qs ← cs.mapM penalty.penaltyOnNumbers
  return Scalar.total os + Scalar.total qs * (scale * weight)

/-! ## Handles and their numbers -/

namespace Graph

/-- At a point a handle stands for the number of its node. -/
def Carries (p : Point α) (g : Graph α) : Correspondence α := fun h v =>
  h.graph = g.number ∧ h.node < g.size ∧
    v.toNumber = .ok ((Meaning.values p).read g.nodes h.node)

variable {p : Point α} {g g' : Graph α}

theorem Grows.carries (grows : g.Grows g') : Carries p g ≤ Carries p g' := by
  intro h v ⟨own, hlt, hx⟩
  rw [← Meaning.read_grows _ grows hlt] at hx
  exact ⟨own.trans grows.number.symm, Nat.lt_of_lt_of_le hlt grows.size_le, hx⟩

end Graph

namespace Meaning

variable {p : Point α} {g : Graph α}

/-- A value and its counterpart read as one number. -/
theorem Reads.toNumber {v w : Value α} {x : α} (h : (values p).Reads g v x)
    (agrees : Value.Agrees .number (g.Carries p) v w) : w.toNumber = .ok x := by
  cases h with
  | handle own hlt =>
    cases agrees with
    | handle _ carries => exact carries.2.2
  | plain hplain hx =>
    cases agrees with
    | handle _ _ => cases hplain
    | list _ => cases hx
    | _ => exact hx

theorem Denotes.agrees {v : Value α} {x : α} (h : (values p).Denotes g v x) :
    Value.Agrees .number (g.Carries p) v (.number x) := by
  obtain ⟨h, rfl, own, hlt, rfl⟩ := h
  exact .handle trivial ⟨own, hlt, rfl⟩

end Meaning

/-- On numbers an operation gives what the recorded one stands for. -/
theorem Graph.Computed.onNumbers {p : Point α} {g : Graph α} (hordered : g.Ordered) {op : Op}
    {vs ws : List (Value α)} {v : Value α} (computed : g.Computed op vs v)
    (operands : Value.AgreeAll .number (g.Carries p) vs ws) :
    ∃ w, op.onNumbers ws = .ok w ∧ Value.Agrees .number (g.Carries p) v w := by
  obtain ⟨xs, hxs, hread⟩ := computed.reads (M := Meaning.values p) hordered
  have hnumbers : ws.mapM Value.toNumber = .ok xs := by
    rw [mapM_eq_ok_iff]
    clear hread computed
    induction operands generalizing xs with
    | nil => cases hxs; exact .nil
    | cons h _ ih =>
      cases hxs with
      | cons hx hxs => exact .cons (hx.toNumber h) (ih _ hxs)
  refine ⟨.number (op.eval xs), bind_eq_ok_iff.mpr ⟨xs, hnumbers, rfl⟩, ?_⟩
  cases computed with
  | node _ _ => exact hread.denotes.agrees
  | @folded ys _ hys =>
    have hsame : op.eval xs = op.eval ys := hread.unique (.plain rfl rfl)
    rw [hsame]
    exact .number _

variable {inputs : Nat → Prop} {p : Point α} {g : Graph α}

/-- A recorded formula stands for what the formula on numbers gives, if it ends. -/
theorem Formula.record_keeps_eval {rel : Correspondence α → β → γ → Prop} {m : Formula α β}
    {n : Formula α γ} (agrees : Formula.Agrees .number rel (g.Carries p) m n)
    (sound : g.Sound inputs) :
    m.record.Keeps inputs g fun g' b => ∃ c, n.eval = .ok c ∧ rel (g'.Carries p) b c := by
  induction m generalizing g n with
  | done b =>
    cases agrees with
    | done h => exact .pure sound ⟨_, rfl, h⟩
  | fault e => exact .throw sound e
  | operate op vs next ih =>
    cases agrees with
    | @operate _ _ _ ws _ next' takes operands hnext =>
      have known := Value.AgreeAll.known (fun _ _ h => h.2.1) operands
      refine (Graph.operate_keeps sound takes known).bind ?_
      intro g' v sound' grows computed
      have operands' := Value.AgreeAll.mono grows.carries operands
      obtain ⟨w, hw, hvw⟩ := computed.onNumbers sound'.wellFormed.ordered operands'
      have heval : (Formula.operate op ws next').eval = (next' w).eval := by rw [eval, hw]
      rw [heval]
      exact ih v (hnext _ v w grows.carries hvw) sound'

/-! ## Terms -/

namespace Graph

mutual

/-- A bound argument stands for the argument with numbers in place of its variables. -/
theorem Bound.substitute (hordered : g.Ordered) : ∀ {v w : Value α}, g.Bound v w →
    v.nextGraph ≤ g.number → Value.Agrees .number (g.Carries p) w (v.substitute p.inputs)
  | .varying i, _, .input _ names, _ => (names.reads hordered).denotes.agrees
  | v, _, .scalar noTruth stands, foreign => by
    cases stands with
    | handle own hlt =>
      rw [Value.nextGraph] at foreign
      omega
    | const constant hx hnode =>
      have hread := Meaning.read_eq (Meaning.values p) hordered hnode
      have hcarries : g.Carries p (g.handle _) v :=
        ⟨rfl, lt_of_node? hnode, by rw [hx]; exact congrArg Except.ok hread.symm⟩
      cases v with
      | number y => exact .handle trivial hcarries
      | integer n => exact .handle trivial hcarries
      | truth b => exact absurd rfl (noTruth b)
      | _ => cases constant
  | .list vs, _, .list hs, foreign => .list (Bound.substituteAll hordered hs foreign)

theorem Bound.substituteAll (hordered : g.Ordered) : ∀ {vs ws : List (Value α)},
    List.Forall₂ g.Bound vs ws → Value.nextGraphOfAll vs ≤ g.number →
      Value.AgreeAll .number (g.Carries p) ws (Value.substituteAll p.inputs vs)
  | [], _, .nil, _ => .nil
  | v :: vs, _, .cons h hs, foreign => by
    rw [Value.nextGraphOfAll] at foreign
    exact .cons (Bound.substitute hordered h (by omega))
      (Bound.substituteAll hordered hs (by omega))

end

end Graph

/-- The node of a term has the value that the term has on numbers. -/
theorem ResolvedTerm.record_onNumbers {t : ResolvedTerm α} {allowed : Function → Bool}
    (hallowed : allowed .power = false) (ready : t.Ready allowed p.inputs.length g.number)
    (sound : g.Sound (· < p.inputs.length)) :
    t.record.Keeps (· < p.inputs.length) g fun g' w =>
      ∃ x, t.onNumbers p.inputs = .ok x ∧ (Meaning.values p).Denotes g' w x := by
  obtain ⟨composed, hindices, foreign⟩ := ready
  have known := Value.allKnown_of_nextGraph foreign
  rw [record_eq]
  refine (Graph.bindArguments_keeps sound hindices known).bind ?_
  intro g₁ ws sound₁ grows₁ bound
  have arguments := Graph.Bound.substituteAll (p := p) sound₁.wellFormed.ordered bound
    (grows₁.number ▸ foreign)
  have agrees := composed.call_agrees (fun _ => hallowed) arguments
  refine ((Formula.record_keeps_eval agrees sound₁).building _).bind ?_
  intro g₂ result sound₂ grows₂ hresult
  obtain ⟨v, hv, hagrees⟩ := hresult
  split
  · exact .throw sound₂ _
  · next hlist =>
    have known₂ := hagrees.known fun _ _ h => h.2.1
    obtain ⟨sound₃, grows₃, hlifted⟩ := lift_keeps_reading (M := Meaning.values p) sound₂ known₂
      (by simpa using hlist)
    refine ⟨sound₃, grows₃, fun w hw => ?_⟩
    obtain ⟨x, hx, hw⟩ := hlifted w hw
    have hnumber := hx.toNumber (hagrees.mono grows₃.carries)
    exact ⟨x, bind_eq_ok_iff.mpr ⟨v, hv, hnumber⟩, hw⟩

/-- A penalty has the value that it has on numbers. -/
theorem TermFunction.record_penaltyOnNumbers {penalty : TermFunction α} {allowed : Function → Bool}
    (hallowed : allowed .power = false) (composed : penalty.Composed allowed)
    (sound : g.Sound inputs) {w : Value α} {c : α} (hw : (Meaning.values p).Denotes g w c) :
    (penalty.call [w]).record.Keeps inputs g fun g' v => Value.Known g' v ∧
      ∀ q, (Meaning.values p).Reads g' v q → penalty.penaltyOnNumbers c = .ok q := by
  have agrees := composed.call_agrees (fun _ => hallowed) (.cons hw.agrees .nil)
  refine (Formula.record_keeps_eval agrees sound).mono ?_
  intro g' v hv
  obtain ⟨n, hn, hagrees⟩ := hv
  refine ⟨hagrees.known fun _ _ h => h.2.1, fun q hq => ?_⟩
  exact bind_eq_ok_iff.mpr ⟨n, hn, hq.toNumber hagrees⟩

/-! ## Energies -/

theorem Meaning.total_values (p : Point α) (xs : List α) :
    (Meaning.values p).total xs = Scalar.total xs := by
  rcases xs with _ | ⟨x, _ | ⟨y, xs⟩⟩ <;> rfl

/-- On numbers the output of an energy is what its formula says. -/
theorem Meaning.energy_values (e : WeightedEnergy α) (xs : List α) (scale default : α)
    (os qs : List α) : (Meaning.values (e.point xs)).energy scale default os qs =
      Scalar.total os + Scalar.total qs * (scale * e.weight) := by
  have hslot : (e.point xs).slot Energy.weightSlot default = e.weight := by
    simp [Point.slot, WeightedEnergy.point]
  simp only [Meaning.energy, total_values]
  simp only [Meaning.values, Op.eval, hslot]

/-- The output of a compiled energy, from its terms on numbers. -/
theorem Energy.forward_onNumbers {p : Problem α} {library : Library α} {scale : α}
    {penalty : TermFunction α} {e : Energy α} (hlibrary : library.Composed (· != .power))
    (hpenalty : penalty.Composed (· != .power)) (hcompile : compile p library scale penalty = .ok e)
    (weight : α) {xs : List α} (hxs : xs.length = e.count) :
    ∃ objectives constraints os cs qs, p.resolve library = .ok (objectives, constraints) ∧
      objectives.mapM (·.onNumbers xs) = .ok os ∧ constraints.mapM (·.onNumbers xs) = .ok cs ∧
      cs.mapM penalty.penaltyOnNumbers = .ok qs ∧
      e.graph.forward (WeightedEnergy.point ⟨e, weight⟩ xs) e.output =
        .ok (Scalar.total os + Scalar.total qs * (scale * weight)) := by
  obtain ⟨objectives, constraints, hresolve, hbuild, hcount, _, _⟩ := compile_eq_ok hcompile
  have hready := Problem.resolve_ready hlibrary hresolve
  let point := WeightedEnergy.point ⟨e, weight⟩ xs
  have hinputs : p.count.toNat = point.inputs.length := (hxs.trans hcount).symm
  have hterm : ∀ t ∈ objectives ++ constraints, ∀ g : Graph α,
      g.Sound (· < point.inputs.length) → Graph.Grows { number := p.nextGraph } g →
        t.record.Keeps (· < point.inputs.length) g fun g' w =>
          ∃ x, t.onNumbers xs = .ok x ∧ (Meaning.values point).Denotes g' w x := by
    intro t ht g sound grows
    have ready := hready t ht
    have hnumber : g.number = p.nextGraph := grows.number
    rw [hinputs, ← hnumber] at ready
    exact ResolvedTerm.record_onNumbers rfl ready sound
  have hkeeps := build_keeps (M := Meaning.values point) scale (Graph.sound_empty _ p.nextGraph)
    hterm fun g sound w c hw => TermFunction.record_penaltyOnNumbers rfl hpenalty sound hw
  obtain ⟨sound, _, os, cs, qs, d, hos, hcs, hqs, hlt, hread⟩ := hkeeps.of_ok hbuild
  rw [Meaning.energy_values] at hread
  have hforward := Graph.forward_eq_read sound hlt
  rw [hread] at hforward
  exact ⟨objectives, constraints, os, cs, qs, hresolve, mapM_eq_ok_iff.mpr hos, mapM_eq_ok_iff.mpr hcs,
    mapM_eq_ok_iff.mpr hqs, hforward⟩

/-- **Compilation preserves meaning.** An energy that was compiled has at every finite weight and
every vector of variables the value that its problem has on numbers, whatever passes its graph has
seen before. -/
theorem Energy.value_eq_onNumbers (p : Problem α) (library : Library α) (scale : α)
    (penalty : TermFunction α) (e : Energy α)
    (hlibrary : library.Composed (· != .power)) (hpenalty : penalty.Composed (· != .power))
    (hcompile : Energy.compile p library scale penalty = .ok e) (weight : α)
    (hweight : Scalar.isFinite weight = true) (xs : List α) (hxs : xs.length = e.count) :
    ∃ y, p.onNumbers library scale penalty weight xs = .ok y ∧
      (e.atWeight weight >>= fun f => f.value xs) = .ok y ∧
      ∀ t : Tape α, t.graph = e.graph →
        (t.forward (WeightedEnergy.point ⟨e, weight⟩ xs) e.output).1 = .ok y := by
  obtain ⟨objectives, constraints, os, cs, qs, hresolve, hos, hcs, hqs, hforward⟩ :=
    forward_onNumbers hlibrary hpenalty hcompile weight hxs
  refine ⟨Scalar.total os + Scalar.total qs * (scale * weight), ?_, ?_, fun t ht => ?_⟩
  · -- The problem on numbers is computed term by term.
    simp only [Problem.onNumbers, hresolve, hos, hcs, hqs, bind, Except.bind, pure, Except.pure]
  · rw [atWeight_eq hweight]
    exact (WeightedEnergy.value_eq_forward hxs).trans hforward
  · rw [← ht] at hforward
    exact hforward

/-- The first variable is to be three and the second at most one. -/
def threeAndAtMostOne : Problem ℚ where
  objectives := [⟨"equal", [.varying 0, .number 3], .objective⟩]
  constraints := [⟨"lessThan", [.varying 1, .number 1], .constraint⟩]
  count := 2

theorem threeAndAtMostOne_value :
    ∃ e : Energy ℚ, Energy.compile threeAndAtMostOne Catalog.library 2 Energy.defaultPenalty =
        .ok e ∧
      (e.atWeight 5 >>= fun f => f.value [1, 4]) = .ok 94 ∧
      (({ graph := e.graph, values := #[7] } : Tape ℚ).forward
        (WeightedEnergy.point ⟨e, 5⟩ [1, 4]) e.output).1 = .ok 94 := by
  have hcompiled : (Energy.compile threeAndAtMostOne Catalog.library 2
      Energy.defaultPenalty).isOk = true := by decide +kernel
  have hnumbers : threeAndAtMostOne.onNumbers Catalog.library 2 Energy.defaultPenalty 5 [1, 4] =
      .ok 94 := by decide +kernel
  cases hcompile : Energy.compile threeAndAtMostOne Catalog.library 2 Energy.defaultPenalty with
  | error fault => rw [hcompile] at hcompiled; cases hcompiled
  | ok e =>
    obtain ⟨_, _, _, _, hcount, _, _⟩ := Energy.compile_eq_ok hcompile
    obtain ⟨y, hy, hvalue, hforward⟩ :=
      Energy.value_eq_onNumbers threeAndAtMostOne Catalog.library 2 Energy.defaultPenalty e
        (Catalog.library_composed _) .penalty hcompile 5 rfl [1, 4] hcount.symm
    rw [hnumbers] at hy
    obtain rfl := Except.ok.inj hy
    exact ⟨e, rfl, hvalue, hforward _ rfl⟩

end DiagramLayout
