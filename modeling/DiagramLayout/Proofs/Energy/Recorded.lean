import DiagramLayout.Proofs.Fault
import DiagramLayout.Proofs.Formula.Composed
import DiagramLayout.Proofs.Graph.Meaning

namespace DiagramLayout

variable {α β : Type}

/-! ## Handles of other graphs -/

theorem Value.nextGraphOfAll_le {vs ws : List (Value α)} (h : vs ⊆ ws) :
    nextGraphOfAll vs ≤ nextGraphOfAll ws := by
  have hmem {v : Value α} : ∀ {ws : List (Value α)}, v ∈ ws → v.nextGraph ≤ nextGraphOfAll ws := by
    intro ws
    induction ws with
    | nil => intro hv; cases hv
    | cons w ws ih =>
      intro hv
      rw [nextGraphOfAll]
      rcases List.mem_cons.mp hv with rfl | hv
      · exact Nat.le_max_left _ _
      · exact Nat.le_trans (ih hv) (Nat.le_max_right _ _)
  induction vs with
  | nil => exact Nat.zero_le _
  | cons v vs ih =>
    rw [nextGraphOfAll]
    obtain ⟨hv, hvs⟩ := List.cons_subset.mp h
    exact Nat.max_le.mpr ⟨hmem hv, ih hvs⟩

mutual

/-- The handles of other graphs are no matter for a graph. -/
theorem Value.known_of_nextGraph {g : Graph α} : ∀ {v : Value α}, v.nextGraph ≤ g.number →
    Value.Known g v
  | .handle h, hv => .handle trivial ⟨rfl, fun own => by rw [nextGraph] at hv; omega⟩
  | .list vs, hvs => .list (allKnown_of_nextGraph hvs)
  | .number x, _ => .number x
  | .integer n, _ => .integer n
  | .text s, _ => .text s
  | .truth b, _ => .truth b
  | .absent, _ => .absent
  | .varying i, _ => .varying i

theorem Value.allKnown_of_nextGraph {g : Graph α} : ∀ {vs : List (Value α)},
    nextGraphOfAll vs ≤ g.number → Value.AllKnown g vs
  | [], _ => .nil
  | v :: vs, h => by
    rw [nextGraphOfAll] at h
    exact .cons (known_of_nextGraph (by omega)) (allKnown_of_nextGraph (by omega))

end

/-! ## Reporting faults -/

variable {inputs : Nat → Prop} {g : Graph α}

namespace Recording

theorem on_building {γ : Type} (term : String) (r : Recording α γ) (g : Graph α) :
    ∃ e, (building term r).on g = match r.on g with
      | (.ok b, g') => (.ok b, g')
      | (.error _, g') => (.error e, g') := by
  rcases hr : r.on g with ⟨outcome, g'⟩
  simp only [on] at hr
  simp only [building, on, ExceptT.run_mk, StateT.run_bind]
  cases outcome with
  | ok b =>
    refine ⟨.wrongForm, ?_⟩
    simp only [hr]
    rfl
  | error cause =>
    simp only [hr]
    cases cause <;> exact ⟨_, rfl⟩

theorem Keeps.building {γ : Type} {P : Graph α → γ → Prop} (term : String) {r : Recording α γ}
    (h : Keeps inputs r g P) : Keeps inputs (r.building term) g P := by
  obtain ⟨sound, grows, result⟩ := h
  obtain ⟨e, hon⟩ := on_building term r g
  rcases hr : r.on g with ⟨outcome, g'⟩
  rw [hr] at hon sound grows result
  cases outcome with
  | ok b => exact .of_on hon sound grows result
  | error _ => exact .of_on hon sound grows fun _ hb => nomatch hb

theorem Yields.building {γ : Type} {P : Graph α → γ → Prop} (term : String) {r : Recording α γ}
    (h : Yields inputs r g P) : Yields inputs (r.building term) g P := by
  obtain ⟨b, g', hr, result⟩ := h
  obtain ⟨e, hon⟩ := on_building term r g
  rw [hr] at hon
  exact ⟨b, g', hon, result⟩

theorem Keeps.node {r : Recording α (Value α)} {P : Graph α → Nat → Prop}
    (h : Keeps inputs r g fun g' w => ∃ h, w = .handle h ∧ P g' h.node) :
    Keeps inputs r.node g P := by
  refine h.bind ?_
  intro g' w sound' _ hw
  obtain ⟨h, rfl, hP⟩ := hw
  exact .pure sound' hP

theorem Yields.node {r : Recording α (Value α)} {P : Graph α → Nat → Prop}
    (h : Yields inputs r g fun g' w => ∃ h, w = .handle h ∧ P g' h.node) :
    Yields inputs r.node g P := by
  refine h.bind ?_
  intro g' w sound' _ hw
  obtain ⟨h, rfl, hP⟩ := hw
  exact .pure sound' hP

theorem Succeeds.node {n : Nat} {r : Recording α (Value α)}
    (h : Succeeds n r fun w => ∃ h : Handle, w = .handle h) : Succeeds n r.node fun _ => True := by
  refine h.bind fun w hw => ?_
  obtain ⟨h, rfl⟩ := hw
  exact .pure trivial

end Recording

/-! ## Resolved terms -/

variable [Scalar α]

/-- A term that can be built on a graph with this number or a greater one. -/
structure ResolvedTerm.Ready (allowed : Function → Bool) (count number : Nat)
    (t : ResolvedTerm α) : Prop where
  composed : t.function.Composed allowed
  indices : ∀ i ∈ t.term.indices, 0 ≤ i → i.toNat < count
  foreign : Value.nextGraphOfAll t.term.arguments ≤ number

theorem Term.resolve_eq_ok {t : Term α} {kind : TermKind} {functions : Dictionary α} {count : Int}
    {r : ResolvedTerm α} (h : t.resolve kind functions count = .ok r) :
    r.term = t ∧ (t.name, r.function) ∈ functions ∧ ∀ i ∈ t.indices, 0 ≤ i ∧ i < count := by
  unfold Term.resolve at h
  split at h
  · cases h
  · next f hf =>
    split at h
    · cases h
    · next hindices =>
      split at h
      · cases h
      · cases h
        obtain ⟨before, after, rfl, _⟩ := List.lookup_eq_some_iff.mp hf
        refine ⟨rfl, by simp, fun i hi => ?_⟩
        have hrange := List.find?_eq_none.mp hindices i hi
        simp only [Bool.or_eq_true, decide_eq_true_eq, not_or] at hrange
        omega

namespace Problem

variable {p : Problem α} {library : Library α} {objectives constraints : List (ResolvedTerm α)}

theorem resolve_eq_ok (h : p.resolve library = .ok (objectives, constraints)) :
    List.Forall₂ (fun t r => t.resolve .objective library.objectives p.count = .ok r)
        p.objectives objectives ∧
      List.Forall₂ (fun t r => t.resolve .constraint library.constraints p.count = .ok r)
        p.constraints constraints := by
  unfold resolve at h
  obtain ⟨os, hos, h⟩ := bind_eq_ok_iff.mp h
  obtain ⟨cs, hcs, h⟩ := bind_eq_ok_iff.mp h
  cases h
  exact ⟨mapM_eq_ok_iff.mp hos, mapM_eq_ok_iff.mp hcs⟩

/-- Resolving keeps the terms in their order. -/
theorem terms_of_resolve (h : p.resolve library = .ok (objectives, constraints)) :
    objectives.map (·.term) = p.objectives ∧ constraints.map (·.term) = p.constraints := by
  have hkept {kind : TermKind} {functions : Dictionary α} {terms : List (Term α)}
      {resolved : List (ResolvedTerm α)}
      (h : List.Forall₂ (fun t r => t.resolve kind functions p.count = .ok r) terms resolved) :
      resolved.map (·.term) = terms := by
    induction h with
    | nil => rfl
    | cons h _ ih => rw [List.map_cons, ih, (Term.resolve_eq_ok h).1]
  obtain ⟨hos, hcs⟩ := resolve_eq_ok h
  exact ⟨hkept hos, hkept hcs⟩

theorem resolve_ready {allowed : Function → Bool} (hlibrary : library.Composed allowed)
    (h : p.resolve library = .ok (objectives, constraints)) :
    ∀ t ∈ objectives ++ constraints, t.Ready allowed p.count.toNat p.nextGraph := by
  have hready {t : Term α} {kind : TermKind} {functions : Dictionary α} {r : ResolvedTerm α}
      (hcomposed : ∀ entry ∈ functions, entry.2.Composed allowed)
      (ht : t ∈ p.objectives ++ p.constraints) (hr : t.resolve kind functions p.count = .ok r) :
      r.Ready allowed p.count.toNat p.nextGraph := by
    obtain ⟨rfl, hf, hindices⟩ := Term.resolve_eq_ok hr
    refine ⟨hcomposed _ hf, fun i hi _ => ?_, ?_⟩
    · have := hindices i hi
      omega
    · exact Value.nextGraphOfAll_le fun v hv => List.mem_flatMap.mpr ⟨_, ht, hv⟩
  obtain ⟨hos, hcs⟩ := resolve_eq_ok h
  intro r hr
  rcases List.mem_append.mp hr with hr | hr
  · obtain ⟨t, ht, hresolve⟩ := exists_left_of_forall₂ hos hr
    exact hready hlibrary.1 (List.mem_append_left _ ht) hresolve
  · obtain ⟨t, ht, hresolve⟩ := exists_left_of_forall₂ hcs hr
    exact hready hlibrary.2 (List.mem_append_right _ ht) hresolve

end Problem

/-! ## The output -/

/-- The reading of a sum: zero for no summand, and a single one as it is. -/
def Meaning.total (M : Meaning α β) : List β → β
  | [] => M.const 0.0
  | [b] => b
  | bs => M.apply .sum bs

/-- The reading of an energy, the slot of the weight having this default. -/
def Meaning.energy (M : Meaning α β) (scale default : α) (objectives penalties : List β) : β :=
  let factor := M.apply .mul [M.const scale, M.slot Energy.weightSlot default]
  M.apply .add [M.total objectives, M.apply .mul [M.total penalties, factor]]

variable {M : Meaning α β}

/-- Where a sum can be read its summands can. -/
theorem total_keeps (sound : g.Sound inputs) {vs : List (Value α)} (known : Value.AllKnown g vs) :
    (Formula.total vs).record.Keeps inputs g fun g' v => Value.Known g' v ∧
      ∀ b, M.Reads g' v b → ∃ bs, List.Forall₂ (M.Reads g') vs bs ∧ M.total bs = b := by
  cases vs with
  | nil =>
    refine .pure sound ⟨.number _, fun b hb => ⟨[], .nil, ?_⟩⟩
    exact (hb.unique (.plain rfl rfl)).symm
  | cons v vs =>
    cases vs with
    | nil =>
      cases known with
      | cons hv _ => exact .pure sound ⟨hv, fun b hb => ⟨[b], .cons hb .nil, rfl⟩⟩
    | cons w vs =>
      have takes : Op.sum.Takes (v :: w :: vs).length := by simp [Op.Takes, Op.arity?]
      refine (Graph.operate_keeps sound takes known).bind ?_
      intro g' u sound' _ computed
      refine .pure sound' ⟨computed.known, fun b hb => ?_⟩
      obtain ⟨bs, hbs, hread⟩ := computed.reads (M := M) sound'.wellFormed.ordered
      refine ⟨bs, hbs, ?_⟩
      rw [hb.unique hread]
      cases hbs with
      | cons _ hbs => cases hbs with
        | cons _ _ => rfl

/-- A value that is no list is lifted to a handle, which reads as the value does. -/
theorem lift_keeps_reading (sound : g.Sound inputs) {v : Value α} (known : Value.Known g v)
    (hlist : v.isList = false) :
    (Graph.lift v).Keeps inputs g fun g' w => ∃ b, M.Reads g' v b ∧ M.Denotes g' w b := by
  obtain ⟨sound', grows, result⟩ := Graph.lift_keeps sound known
  refine ⟨sound', grows, fun w hw => ?_⟩
  cases result w hw with
  | node stands =>
    exact ⟨_, stands.reads sound'.wellFormed.ordered, _, rfl, rfl, stands.lt, rfl⟩
  | list _ => cases hlist

theorem lift_denotes (sound : g.Sound inputs) {v : Value α} {b : β} (hv : M.Reads g v b) :
    (Graph.lift v).Keeps inputs g fun g' w => M.Denotes g' w b := by
  have hlist : v.isList = false := by
    cases hv with
    | handle _ _ => rfl
    | plain _ hx =>
      cases v with
      | list vs => cases hx
      | _ => rfl
  obtain ⟨sound', grows, result⟩ := lift_keeps_reading (M := M) sound hv.known hlist
  refine ⟨sound', grows, fun w hw => ?_⟩
  obtain ⟨c, hc, hw⟩ := result w hw
  rwa [(hv.mono grows).unique hc]

/-- The output of an energy can be read, so its objectives and penalties can. -/
theorem Energy.combine_keeps (sound : g.Sound inputs) (scale : α) {vs ws : List (Value α)}
    (hvs : Value.AllKnown g vs) (hws : Value.AllKnown g ws) :
    (combine scale vs ws).Keeps inputs g fun g' w =>
      ∃ d bs cs, List.Forall₂ (M.Reads g') vs bs ∧ List.Forall₂ (M.Reads g') ws cs ∧
        M.Denotes g' w (M.energy scale d bs cs) := by
  refine (Graph.record_const_keeps sound scale).bind ?_
  intro g₁ s sound₁ grows₁ hs
  have hs := hs.reads (M := M) sound₁.wellFormed.ordered
  refine (Graph.recordSlot_keeps sound₁ _ _).bind ?_
  intro g₂ w sound₂ grows₂ hw
  obtain ⟨w, d, rfl, hw⟩ := hw
  have hw := hw.reads (M := M) sound₂.wellFormed.ordered
  have grows := grows₁.trans grows₂
  refine (total_keeps (M := M) sound₂ (Value.AgreeAll.mono grows.knows hvs)).bind ?_
  intro g₃ o sound₃ grows₃ ho
  have grows := grows.trans grows₃
  refine (total_keeps (M := M) sound₃ (Value.AgreeAll.mono grows.knows hws)).bind ?_
  intro g₄ q sound₄ grows₄ hq
  have hw := (hw.mono grows₃).mono grows₄
  have hs := (hs.mono grows₂).mono (grows₃.trans grows₄)
  refine (Graph.operate_keeps_reading sound₄ rfl hs.known hw).bind ?_
  intro g₅ f sound₅ grows₅ hf
  obtain ⟨s', hs', hf⟩ := hf
  rw [← (hs.mono grows₅).unique hs'] at hf
  have hqknown := hq.1.mono grows₅.knows
  refine (Graph.operate_keeps_reading sound₅ rfl hqknown hf).bind ?_
  intro g₆ t sound₆ grows₆ ht
  obtain ⟨q', hq', ht⟩ := ht
  have growso := (grows₄.trans grows₅).trans grows₆
  have hoknown := ho.1.mono growso.knows
  refine (Graph.operate_keeps_reading sound₆ rfl hoknown ht).bind ?_
  intro g₇ e sound₇ grows₇ he
  obtain ⟨o', ho', he⟩ := he
  -- What the two sums read as at the end, they read as where they were recorded.
  have growsq := grows₅.trans grows₆
  obtain ⟨cs, hcs, hq'⟩ := hq.2 q' (hq'.of_grows growsq hq.1)
  obtain ⟨bs, hbs, ho'⟩ := ho.2 o' (ho'.of_grows (growso.trans grows₇) ho.1)
  refine (lift_denotes sound₇ he).grows_mono fun g₈ w grows₈ hw => ⟨d, bs, cs, ?_, ?_, ?_⟩
  · exact hbs.imp fun _ _ h => (h.mono growso).mono (grows₇.trans grows₈)
  · exact hcs.imp fun _ _ h => (h.mono growsq).mono (grows₇.trans grows₈)
  · rw [Meaning.energy, hq', ho']
    exact hw

theorem total_succeeds {n : Nat} {vs : List (Value α)} (h : ∀ v ∈ vs, Graph.IsOperand n v) :
    (Formula.total vs).record.Succeeds n (Graph.IsOperand n) := by
  cases vs with
  | nil => exact .pure (.inr ⟨rfl, _, rfl⟩)
  | cons v vs =>
    cases vs with
    | nil => exact .pure (h v List.mem_cons_self)
    | cons w vs => exact (Graph.operate_succeeds .sum h).bind fun _ hu => .pure hu

/-- Operands are combined to an energy. -/
theorem Energy.combine_succeeds {n : Nat} (scale : α) {vs ws : List (Value α)}
    (hvs : ∀ v ∈ vs, Graph.IsOperand n v) (hws : ∀ w ∈ ws, Graph.IsOperand n w) :
    (combine scale vs ws).Succeeds n fun w => ∃ h : Handle, w = .handle h := by
  have pair {u v : Value α} (hu : Graph.IsOperand n u) (hv : Graph.IsOperand n v) :
      ∀ w ∈ [u, v], Graph.IsOperand n w := by simp [hu, hv]
  have hscale : (Graph.record (.const scale)).Succeeds n fun h => h.graph = n :=
    fun g hg => ⟨_, _, rfl, hg, hg⟩
  refine hscale.bind fun s hs => (Graph.recordSlot_succeeds n _ _).bind fun w hw => ?_
  refine (total_succeeds hvs).bind fun o ho => (total_succeeds hws).bind fun q hq => ?_
  refine (Graph.operate_succeeds .mul (pair (.inl ⟨s, rfl, hs⟩) hw)).bind fun f hf => ?_
  refine (Graph.operate_succeeds .mul (pair hq hf)).bind fun t ht => ?_
  refine (Graph.operate_succeeds .add (pair ho ht)).bind fun e he => ?_
  exact (Graph.lift_succeeds he).mono fun _ ⟨h, hw, _⟩ => ⟨h, hw⟩

/-- Energies that can be lifted are combined without a fault. -/
theorem Energy.combine_yields (sound : g.Sound inputs) (scale : α) {vs ws : List (Value α)}
    (hvs : ∀ v ∈ vs, g.Liftable v) (hws : ∀ w ∈ ws, g.Liftable w) :
    (combine scale vs ws).Yields inputs g fun _ w => ∃ h, w = .handle h ∧ True := by
  have hkeeps := combine_keeps (M := Meaning.values { inputs := [] }) sound scale
    (List.forall₂_same.mpr fun v hv => (hvs v hv).known)
    (List.forall₂_same.mpr fun w hw => (hws w hw).known)
  refine (hkeeps.mono fun _ _ ⟨_, _, _, _, _, h, hw, _⟩ => ⟨h, hw, trivial⟩).yields_of_succeeds
    (combine_succeeds scale (fun v hv => (hvs v hv).isOperand) fun w hw => (hws w hw).isOperand)

/-- A term is built in three steps. -/
theorem ResolvedTerm.record_eq (t : ResolvedTerm α) :
    t.record = (do
      let arguments ← Graph.bindArguments t.term.arguments
      let result ← Recording.building t.term.text (t.function.call arguments).record
      if result.isList then throw (.notScalar t.term.text) else Graph.lift result) := rfl

/-- What the output of an energy reads as, where single terms and penalties read as given. -/
theorem Energy.build_keeps {objectives constraints : List (ResolvedTerm α)} (scale : α)
    {penalty : TermFunction α} {P : ResolvedTerm α → β → Prop} {Q : β → β → Prop}
    (sound : g.Sound inputs)
    (hterm : ∀ t ∈ objectives ++ constraints, ∀ g' : Graph α, g'.Sound inputs → g.Grows g' →
      t.record.Keeps inputs g' fun g'' w => ∃ b, P t b ∧ M.Denotes g'' w b)
    (hpenalty : ∀ g' : Graph α, g'.Sound inputs → ∀ w b, M.Denotes g' w b →
      (penalty.call [w]).record.Keeps inputs g' fun g'' v =>
        Value.Known g'' v ∧ ∀ c, M.Reads g'' v c → Q b c) :
    (build objectives constraints scale penalty).Keeps inputs g fun g' out =>
      ∃ bs cs qs d, List.Forall₂ P objectives bs ∧ List.Forall₂ P constraints cs ∧
        List.Forall₂ Q cs qs ∧ out < g'.size ∧ M.read g'.nodes out = M.energy scale d bs qs := by
  unfold build
  -- First the objectives.
  have hobjective : ∀ t ∈ objectives, ∀ g' : Graph α, g'.Sound inputs → g.Grows g' →
      t.record.Keeps inputs g' fun g'' w => ∃ b, P t b ∧ M.Denotes g'' w b :=
    fun t ht => hterm t (List.mem_append_left _ ht)
  refine (Recording.Keeps.mapM (fun grows _ _ ⟨b, hP, hw⟩ => ⟨b, hP, hw.mono grows⟩) sound
    hobjective).bind ?_
  intro g₁ vs sound₁ grows₁ hvs
  -- Then the constraints, each followed by its penalty.
  have hconstraint : ∀ t ∈ constraints, ∀ g' : Graph α, g'.Sound inputs → g₁.Grows g' →
      Recording.Keeps inputs (do (penalty.call [← t.record]).record) g' fun g'' v =>
        ∃ c, P t c ∧ Value.Known g'' v ∧ ∀ q, M.Reads g'' v q → Q c q := by
    intro t ht g' sound' grows
    refine (hterm t (List.mem_append_right _ ht) g' sound' (grows₁.trans grows)).bind ?_
    intro g'' w sound'' _ hw
    obtain ⟨c, hP, hw⟩ := hw
    exact (hpenalty g'' sound'' w c hw).mono fun _ v hv => ⟨c, hP, hv⟩
  have stays {g g' : Graph α} (grows : g.Grows g') (t : ResolvedTerm α) (v : Value α) :
      (∃ c, P t c ∧ Value.Known g v ∧ ∀ q, M.Reads g v q → Q c q) →
        ∃ c, P t c ∧ Value.Known g' v ∧ ∀ q, M.Reads g' v q → Q c q :=
    fun ⟨c, hP, known, hQ⟩ =>
      ⟨c, hP, known.mono grows.knows, fun q hq => hQ q (hq.of_grows grows known)⟩
  refine (Recording.Keeps.mapM stays sound₁ hconstraint).bind ?_
  intro g₂ ws sound₂ grows₂ hws
  obtain ⟨bs, hbs, hvs⟩ := exists_of_forall₂_exists hvs
  obtain ⟨cs, hcs, hws⟩ := exists_of_forall₂_exists hws
  have hvs := hvs.imp fun _ _ h => (h.mono grows₂).reads
  have hvknown : Value.AllKnown g₂ vs :=
    List.forall₂_same.mpr (forall_right_of_forall₂ hvs.flip fun _ _ h => h.known)
  have hwknown : Value.AllKnown g₂ ws :=
    List.forall₂_same.mpr (forall_right_of_forall₂ hws.flip fun _ _ h => h.1)
  have hcombine := combine_keeps (M := M) sound₂ scale hvknown hwknown
  refine .node (hcombine.grows_mono fun g' w grows hw => ?_)
  obtain ⟨d, bs', qs, hbs', hqs, h, rfl, _, hlt, hread⟩ := hw
  have hvs := hvs.imp fun _ _ h => h.mono grows
  obtain rfl := List.right_unique_forall₂' (fun _ _ _ h h' => h.unique h') hvs hbs'
  have hcsqs : List.Forall₂ Q cs qs := by
    refine forall₂_of_common (fun v c q hc hq => ?_) hws hqs
    exact hc.2 q (hq.of_grows grows hc.1)
  exact ⟨h, rfl, bs, cs, qs, d, hbs, hcs, hcsqs, hlt, hread⟩

/-- What an energy is compiled from. -/
theorem Energy.compile_eq_ok {p : Problem α} {library : Library α} {scale : α}
    {penalty : TermFunction α} {e : Energy α} (h : compile p library scale penalty = .ok e) :
    ∃ objectives constraints, p.resolve library = .ok (objectives, constraints) ∧
      (build objectives constraints scale penalty).on { number := p.nextGraph } =
        (.ok e.output, e.graph) ∧
      e.count = p.count.toNat ∧ Scalar.less 0.0 scale = true ∧ 0 ≤ p.count := by
  unfold compile at h
  obtain ⟨_, hcount, h⟩ := bind_eq_ok_iff.mp h
  obtain ⟨_, hscale, h⟩ := bind_eq_ok_iff.mp h
  obtain ⟨⟨objectives, constraints⟩, hresolve, h⟩ := bind_eq_ok_iff.mp h
  obtain ⟨output, houtput, h⟩ := bind_eq_ok_iff.mp h
  cases h
  exact ⟨objectives, constraints, hresolve, Prod.ext houtput rfl, rfl, require_eq_ok_iff.mp hscale,
    of_decide_eq_true (require_eq_ok_iff.mp hcount)⟩

theorem WeightedEnergy.value_eq_forward {e : WeightedEnergy α} {xs : List α}
    (hxs : xs.length = e.energy.count) :
    e.value xs = e.energy.graph.forward (e.point xs) e.energy.output := by
  simp [value, require, hxs, bind, Except.bind]

theorem Energy.atWeight_eq {e : Energy α} {weight : α} (hweight : Scalar.isFinite weight = true) :
    e.atWeight weight = .ok ⟨e, weight⟩ := by
  simp [atWeight, require, hweight, bind, Except.bind, pure, Except.pure]

theorem WeightedEnergy.gradient_eq_snd {e : WeightedEnergy α} {xs : List α}
    (hxs : xs.length = e.energy.count) {x : α} {gradient : List α}
    (h : e.energy.graph.gradient (e.point xs) e.energy.output = .ok (x, gradient)) :
    e.gradient xs = .ok gradient := by
  simp [WeightedEnergy.gradient, require, hxs, h, bind, Except.bind, pure, Except.pure]

/-- The library of the catalog. -/
def Catalog.library : Library α := ⟨Catalog.objectives, Catalog.constraints⟩

theorem Catalog.library_composed (allowed : Function → Bool) :
    (Catalog.library : Library α).Composed allowed := by
  constructor
  · intro entry hentry
    obtain ⟨o, _, rfl⟩ := List.mem_map.mp hentry
    exact .objective o
  · intro entry hentry
    obtain ⟨c, _, rfl⟩ := List.mem_map.mp hentry
    exact .constraint c

end DiagramLayout
