import DiagramLayout.Energy.Terms
import DiagramLayout.Proofs.Energy.Recorded
import DiagramLayout.Proofs.Graph.Jet
import DiagramLayout.Proofs.Graph.Transfer

namespace DiagramLayout

variable {α β : Type}

section Scalar

variable [Scalar α] {M M' : Meaning α β} {inputs : Nat → Prop} {g g' : Graph α}

/-- What a term compiled alone consists of. -/
theorem TermEnergy.compile_eq_ok {t : ResolvedTerm α} {e : TermEnergy α}
    (h : compile t = .ok e) : e.name = t.term.text ∧
      t.record.node.on { number := Value.nextGraphOfAll t.term.arguments } =
        (.ok e.output, e.graph) := by
  obtain ⟨output, houtput, h⟩ := bind_eq_ok_iff.mp h
  cases h
  exact ⟨rfl, Prod.ext houtput rfl⟩

namespace ResolvedTerm

variable {t : ResolvedTerm α}

/-- On every graph the term has a node, which has this reading. -/
def Means (inputs : Nat → Prop) (M : Meaning α β) (t : ResolvedTerm α) (b : β) : Prop :=
  ∀ g : Graph α, g.Sound inputs → t.record.Yields inputs g fun g' w => M.Denotes g' w b

theorem record_follows {allowed : Function → Bool} {count : Nat} (alike : M.Alike M')
    (ready : t.Ready allowed count g.number) (sound : g.Sound (· < count))
    (sound' : g'.Sound (· < count)) :
    Recording.Follows (· < count) t.record t.record g g'
      fun g₁ g₁' w w' => ∃ b, M.Denotes g₁ w b ∧ M'.Denotes g₁' w' b := by
  obtain ⟨composed, indices, foreign⟩ := ready
  rw [record_eq]
  refine (Graph.bindArguments_follows alike sound sound' indices foreign).bind ?_
  intro g₁ g₁' ws ws' sound₁ sound₁' _ _ hws
  have agrees := composed.call_agrees (fun h => by cases h) hws
  have hcall := (Formula.record_follows alike agrees sound₁ sound₁').building t.term.text
  refine Recording.Follows.bind (hcall.mono fun _ _ h => h.building t.term.text) ?_
  intro g₂ g₂' v v' sound₂ sound₂' _ _ hv
  rw [hv.isList]
  split
  · exact .throw sound₂ _
  · next hlist =>
    exact Graph.lift_follows alike sound₂ sound₂' hv (by rw [hv.isList]; simpa using hlist)

/-- What a recorded term means on one graph, it means on every graph. -/
theorem record_means {allowed : Function → Bool} {count : Nat} (alike : M.Alike M')
    (ready : t.Ready allowed count g.number) (sound : g.Sound (· < count)) :
    t.record.Keeps (· < count) g fun g₁ w =>
      ∃ b, t.Means (· < count) M' b ∧ M.Denotes g₁ w b := by
  obtain ⟨sound₁, grows, result⟩ := record_follows alike ready sound sound
  refine ⟨sound₁, grows, fun w hw => ?_⟩
  obtain ⟨_, _, _, _, _, b, hb, _⟩ := result w hw
  refine ⟨b, fun g' sound' => ?_, hb⟩
  refine ((record_follows alike ready sound sound').result w hw).mono ?_
  intro g₁' w' h
  obtain ⟨c, hc, hc'⟩ := h
  rwa [hb.reads.unique hc.reads]

/-- The value and the gradient of a term on a graph of its own. -/
def alone (t : ResolvedTerm α) (xs : List α) : Except Fault (α × List α) := do
  (← TermEnergy.compile t).gradient xs

theorem Means.compile {b : β} (h : t.Means inputs M b) :
    ∃ e, TermEnergy.compile t = .ok e ∧ e.graph.Sound inputs ∧ e.output < e.graph.size ∧
      M.read e.graph.nodes e.output = b := by
  have hyields := h { number := Value.nextGraphOfAll t.term.arguments } (Graph.sound_empty _ _)
  have hnode : t.record.node.Yields inputs { number := Value.nextGraphOfAll t.term.arguments }
      fun g' n => n < g'.size ∧ M.read g'.nodes n = b :=
    .node (hyields.mono fun _ _ ⟨h, hw, _, hread⟩ => ⟨h, hw, hread⟩)
  obtain ⟨n, g', hon, sound, _, hlt, hread⟩ := hnode
  refine ⟨{ name := t.term.text, graph := g', output := n }, ?_, sound, hlt, hread⟩
  simp only [Recording.on] at hon
  simp only [TermEnergy.compile, hon]
  rfl

end ResolvedTerm

/-! ## Energies of objectives alone -/

/-- Objectives that have a meaning are built without their constraints. -/
theorem Energy.build_objectives_yields {objectives : List (ResolvedTerm α)}
    (h : ∀ t ∈ objectives, ∃ b, t.Means inputs M b) (scale : α) (penalty : TermFunction α)
    (sound : g.Sound inputs) :
    (build objectives [] scale penalty).Yields inputs g fun _ _ => True := by
  have hterm : ∀ t ∈ objectives, ∀ g' : Graph α, g'.Sound inputs → g.Grows g' →
      t.record.Yields inputs g' fun g'' w => g''.Liftable w := by
    intro t ht g' sound' _
    obtain ⟨b, hb⟩ := h t ht
    refine (hb g' sound').mono ?_
    intro g'' w hw
    obtain ⟨handle, rfl, own, hlt, _⟩ := hw
    exact .inl ⟨handle, rfl, own, hlt⟩
  refine (Recording.Yields.mapM (fun grows _ _ hw => hw.mono grows) sound hterm).bind ?_
  intro g₁ vs sound₁ _ hvs
  have hvs : ∀ v ∈ vs, g₁.Liftable v := forall_right_of_forall₂ hvs fun _ _ h => h
  exact .node (combine_yields sound₁ scale hvs fun w hw => by cases hw)

/-- The problem without its constraints is compiled as well. -/
theorem Energy.compile_objectives {p : Problem α} {library : Library α} {scale : α}
    (penalty : TermFunction α) {objectives constraints : List (ResolvedTerm α)}
    (hresolve : p.resolve library = .ok (objectives, constraints)) (hcount : 0 ≤ p.count)
    (hscale : Scalar.less 0.0 scale = true)
    (hmeans : ∀ t ∈ objectives, ∃ b, t.Means inputs M b) :
    let q : Problem α := { p with constraints := [] }
    q.resolve library = .ok (objectives, []) ∧ ∃ e, compile q library scale penalty = .ok e := by
  intro q
  have hobjectives := mapM_eq_ok_iff.mpr (Problem.resolve_eq_ok hresolve).1
  have hresolve' : q.resolve library = .ok (objectives, []) := by
    rw [Problem.resolve]
    exact bind_eq_ok_iff.mpr ⟨objectives, hobjectives, rfl⟩
  obtain ⟨out, g, hon, _⟩ := build_objectives_yields hmeans scale penalty
    (Graph.sound_empty inputs q.nextGraph)
  let e : Energy α :=
    { graph := g, output := out, count := q.count.toNat, scale
      names := (q.objectives ++ q.constraints).map Term.text }
  refine ⟨hresolve', e, ?_⟩
  simp only [Recording.on] at hon
  have hcount' : decide (0 ≤ q.count) = true := decide_eq_true hcount
  simp only [compile, require, hcount', hscale, hresolve', hon, bind, Except.bind, if_true]
  rfl

end Scalar

/-- A term that has a jet has a value and a gradient alone, which make up the jet. -/
theorem ResolvedTerm.Means.alone [RingScalar α] {t : ResolvedTerm α} {xs v : List α} {b : α × α}
    (h : t.Means (· < xs.length) (Meaning.jets { inputs := xs } v) b) (hv : v.length = xs.length) :
    ∃ o, t.alone xs = .ok o ∧ o.2.length = xs.length ∧ b = (o.1, pairing o.2 v) := by
  obtain ⟨e, he, sound, hlt, hread⟩ := h.compile
  obtain ⟨x, gradient, _, hgradient, hlength, hjets⟩ :=
    Graph.gradient_eq_jets (p := { inputs := xs }) sound hlt
  refine ⟨(x, gradient), ?_, hlength, hread.symm.trans (hjets v hv)⟩
  rw [ResolvedTerm.alone, he]
  exact hgradient

end DiagramLayout
