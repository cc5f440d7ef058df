import DiagramLayout.Proofs.Formula.Agreement
import DiagramLayout.Proofs.Graph.Pass
import DiagramLayout.Proofs.Outcome

/-!
# Recordings only add nodes

* `Graph.Grows`: one graph is another with nodes on top;
* `Graph.Sound`: a graph is well formed and its inputs are allowed ones;
* `Graph.Knows`, `Value.Known`: the handles that have a node;
* `Recording.Keeps`: a recording keeps a graph sound and only adds to it, whether it ends or fails,
  and what it ends with has a property; one rule for each way to put recordings together;
* `Recording.Yields`: besides, a recording does end; `Recording.Succeeds`: it ends on every graph with
  a certain number.
-/

namespace DiagramLayout

variable {α β γ : Type}

namespace Graph

/-- A graph with nodes on top of another. -/
structure Grows (g g' : Graph α) : Prop where
  number : g'.number = g.number
  nodes : g.nodes <:+ g'.nodes

theorem Grows.refl (g : Graph α) : g.Grows g := ⟨rfl, List.suffix_refl _⟩

theorem Grows.trans {g g' g'' : Graph α} (h : g.Grows g') (h' : g'.Grows g'') : g.Grows g'' :=
  ⟨h'.number.trans h.number, h.nodes.trans h'.nodes⟩

theorem Grows.size_le {g g' : Graph α} (h : g.Grows g') : g.size ≤ g'.size := h.nodes.length_le

theorem Grows.node? {g g' : Graph α} (h : g.Grows g') {i : Nat} {node : Node α}
    (hnode : g.node? i = some node) : g'.node? i = some node := by
  obtain ⟨older, hs, hi⟩ := node?_eq_some_iff.mp hnode
  exact node?_eq_some_iff.mpr ⟨older, hs.trans h.nodes, hi⟩

theorem lt_of_node? {g : Graph α} {i : Nat} {node : Node α} (h : g.node? i = some node) :
    i < g.size := by
  obtain ⟨older, hs, rfl⟩ := node?_eq_some_iff.mp h
  exact hs.length_le

theorem node?_push (g : Graph α) (node : Node α) : (g.push node).2.node? g.size = some node :=
  node?_of_suffix (List.suffix_refl _)

theorem grows_push (g : Graph α) (node : Node α) : g.Grows (g.push node).2 :=
  ⟨rfl, List.suffix_cons _ _⟩

theorem Grows.upTo_suffix {g g' : Graph α} (h : g.Grows g') {i j : Nat} (hij : i ≤ j)
    (hj : j < g'.size) : g.upTo i <:+ g'.upTo j := by
  have holder : g.upTo i <:+ g'.nodes := (Graph.upTo_suffix g i).trans h.nodes
  refine List.suffix_of_suffix_length_le holder (Graph.upTo_suffix g' j) ?_
  rw [length_upTo, length_upTo]
  omega

theorem Ordered.push {g : Graph α} (h : g.Ordered) {node : Node α}
    (hoperands : ∀ j ∈ node.operands, j < g.size) : (g.push node).2.Ordered := by
  intro i other hother j hj
  obtain ⟨older, hs, rfl⟩ := node?_eq_some_iff.mp hother
  rcases List.suffix_cons_iff.mp hs with heq | hs
  · obtain ⟨rfl, rfl⟩ := List.cons.inj heq
    exact hoperands j hj
  · exact h older.length other (node?_of_suffix hs) j hj

/-- A well formed graph whose inputs are allowed ones. -/
structure Sound (inputs : Nat → Prop) (g : Graph α) : Prop where
  wellFormed : g.WellFormed
  inputs_allowed : ∀ i, .input i ∈ g.nodes → inputs i

theorem sound_empty (inputs : Nat → Prop) (number : Nat) :
    ({ number } : Graph α).Sound inputs where
  wellFormed node older hs := by
    have := List.suffix_nil.mp hs
    cases this
  inputs_allowed i hi := by cases hi

theorem Sound.push {inputs : Nat → Prop} {g : Graph α} (h : g.Sound inputs) {node : Node α}
    (fits : node.Fits g.nodes) (allowed : ∀ i, node = .input i → inputs i) :
    (g.push node).2.Sound inputs where
  wellFormed := wellFormed_push h.wellFormed fits
  inputs_allowed i hi := by
    rcases List.mem_cons.mp hi with rfl | hi
    · exact allowed i rfl
    · exact h.inputs_allowed i hi

theorem Sound.inputs_upTo {inputs : Nat → Prop} {g : Graph α} (h : g.Sound inputs) (out : Nat) :
    ∀ i, .input i ∈ g.upTo out → inputs i :=
  fun i hi => h.inputs_allowed i ((upTo_suffix g out).subset hi)

/-- The handles of a graph stand for themselves if they have a node. -/
def Knows (g : Graph α) : Correspondence α :=
  fun h v => v = .handle h ∧ (h.graph = g.number → h.node < g.size)

theorem Grows.knows {g g' : Graph α} (h : g.Grows g') : g.Knows ≤ g'.Knows := by
  rintro handle v ⟨hv, known⟩
  exact ⟨hv, fun own => Nat.lt_of_lt_of_le (known (own.trans h.number)) h.size_le⟩

end Graph

/-- Every handle of the graph that occurs in a value has a node. -/
abbrev Value.Known (g : Graph α) (v : Value α) : Prop := Value.Agrees .handle g.Knows v v

/-- Every handle of the graph that occurs in the values has a node. -/
abbrev Value.AllKnown (g : Graph α) (vs : List (Value α)) : Prop :=
  Value.AgreeAll .handle g.Knows vs vs

mutual

/-- What handles that stand for themselves agree with is the value itself. -/
theorem Value.Agrees.eq_of_knows {g : Graph α} :
    ∀ {v w : Value α}, Value.Agrees .handle g.Knows v w → w = v
  | .handle _, _, .handle _ h => h.1
  | .number _, _, .number _ => rfl
  | .integer _, _, .integer _ => rfl
  | .text _, _, .text _ => rfl
  | .truth _, _, .truth _ => rfl
  | .absent, _, .absent => rfl
  | .varying _, _, .varying _ => rfl
  | .list _, _, .list hs => congrArg Value.list (Value.AgreeAll.eq_of_knows hs)

theorem Value.AgreeAll.eq_of_knows {g : Graph α} :
    ∀ {vs ws : List (Value α)}, Value.AgreeAll .handle g.Knows vs ws → ws = vs
  | [], _, .nil => rfl
  | _ :: _, _, .cons h hs =>
    congrArg₂ List.cons (Value.Agrees.eq_of_knows h) (Value.AgreeAll.eq_of_knows hs)

end

mutual

/-- What agrees with something has only handles that stand for something. -/
theorem Value.Agrees.known {k : Counterpart} {R : Correspondence α} {g : Graph α}
    (hR : ∀ h w, R h w → h.node < g.size) : ∀ {v w : Value α}, Value.Agrees k R v w →
    Value.Known g v
  | .handle _, _, .handle _ h => .handle trivial ⟨rfl, fun _ => hR _ _ h⟩
  | .number _, _, .number x => .number x
  | .integer _, _, .integer n => .integer n
  | .text _, _, .text s => .text s
  | .truth _, _, .truth b => .truth b
  | .absent, _, .absent => .absent
  | .varying _, _, .varying i => .varying i
  | .list _, _, .list hs => .list (Value.AgreeAll.known hR hs)

theorem Value.AgreeAll.known {k : Counterpart} {R : Correspondence α} {g : Graph α}
    (hR : ∀ h w, R h w → h.node < g.size) : ∀ {vs ws : List (Value α)}, Value.AgreeAll k R vs ws →
    Value.AllKnown g vs
  | [], _, .nil => .nil
  | _ :: _, _, .cons h hs => .cons (Value.Agrees.known hR h) (Value.AgreeAll.known hR hs)

end

/-! ## Rules for recordings -/

namespace Recording

/-- What a recording gives and the graph it leaves. -/
abbrev on (r : Recording α β) (g : Graph α) : Except Fault β × Graph α := r.run.run g

@[simp] theorem on_ofExcept (r : Except Fault β) (g : Graph α) :
    (ofExcept r : Recording α β).on g = (r, g) := rfl

theorem on_bind (r : Recording α β) (f : β → Recording α γ) (g : Graph α) :
    (r >>= f).on g = match r.on g with
      | (.ok b, g') => (f b).on g'
      | (.error e, g') => (.error e, g') := by
  simp only [on, ExceptT.run_bind, StateT.run_bind]
  change (match (r.run.run g).1 with | _ => _) = _
  rcases h : r.run.run g with ⟨result, g'⟩
  cases result <;> rfl

/-- A recording keeps a graph sound and only adds to it, and a result has a property. -/
structure Keeps (inputs : Nat → Prop) (r : Recording α β) (g : Graph α)
    (result : Graph α → β → Prop) : Prop where
  sound : (r.on g).2.Sound inputs
  grows : g.Grows (r.on g).2
  result : ∀ b, (r.on g).1 = .ok b → result (r.on g).2 b

variable {inputs : Nat → Prop} {g : Graph α} {P : Graph α → β → Prop} {Q : Graph α → γ → Prop}

theorem Keeps.of_on {r : Recording α β} {outcome : Except Fault β} {g' : Graph α}
    (hon : r.on g = (outcome, g')) (sound : g'.Sound inputs) (grows : g.Grows g')
    (result : ∀ b, outcome = .ok b → P g' b) : Keeps inputs r g P where
  sound := by rw [hon]; exact sound
  grows := by rw [hon]; exact grows
  result := by rw [hon]; exact result

theorem Keeps.pure (sound : g.Sound inputs) {b : β} (h : P g b) : Keeps inputs (pure b) g P :=
  ⟨sound, .refl g, fun _ hb => Except.ok.inj hb ▸ h⟩

theorem Keeps.throw (sound : g.Sound inputs) (e : Fault) : Keeps inputs (throw e) g P :=
  ⟨sound, .refl g, fun _ hb => nomatch hb⟩

theorem Keeps.bind {r : Recording α β} {f : β → Recording α γ} (h : Keeps inputs r g P)
    (next : ∀ g' b, g'.Sound inputs → g.Grows g' → P g' b → Keeps inputs (f b) g' Q) :
    Keeps inputs (r >>= f) g Q := by
  obtain ⟨sound, grows, result⟩ := h
  rcases hr : r.on g with ⟨outcome, g'⟩
  simp only [hr] at sound grows result
  cases outcome with
  | error e =>
    have hbind : (r >>= f).on g = (.error e, g') := by rw [on_bind, hr]
    exact .of_on hbind sound grows fun _ hc => nomatch hc
  | ok b =>
    have hbind : (r >>= f).on g = (f b).on g' := by rw [on_bind, hr]
    obtain ⟨sound', grows', result'⟩ := next g' b sound grows (result b rfl)
    exact .of_on hbind sound' (grows.trans grows') result'

/-- What needs no graph leaves it as it is. -/
theorem Keeps.bind_ofExcept (sound : g.Sound inputs) {r : Except Fault β}
    {f : β → Recording α γ} (next : ∀ b, r = .ok b → Keeps inputs (f b) g Q) :
    Keeps inputs (ofExcept r >>= f) g Q := by
  cases r with
  | error e => exact .throw sound e
  | ok b => exact next b rfl

/-- A recording for each element of a list, where what holds of a result stays true. -/
theorem Keeps.mapM {δ : Type} {f : δ → Recording α β} {R : Graph α → δ → β → Prop}
    (stays : ∀ {g g' : Graph α}, g.Grows g' → ∀ d b, R g d b → R g' d b) {ds : List δ}
    (sound : g.Sound inputs)
    (step : ∀ d ∈ ds, ∀ g' : Graph α, g'.Sound inputs → g.Grows g' →
      Keeps inputs (f d) g' fun g'' b => R g'' d b) :
    Keeps inputs (ds.mapM f) g fun g' bs => List.Forall₂ (R g') ds bs := by
  induction ds generalizing g with
  | nil => exact .pure sound .nil
  | cons d ds ih =>
    rw [List.mapM_cons]
    refine (step d List.mem_cons_self g sound (.refl g)).bind ?_
    intro g' b sound' grows hb
    refine (ih sound' fun e he g'' sound'' grows' =>
      step e (List.mem_cons_of_mem d he) g'' sound'' (grows.trans grows')).bind ?_
    intro g'' bs sound'' grows' hbs
    exact .pure sound'' (.cons (stays grows' d b hb) hbs)

theorem Keeps.mono {P' : Graph α → β → Prop} {r : Recording α β} (h : Keeps inputs r g P)
    (weaker : ∀ g' b, P g' b → P' g' b) : Keeps inputs r g P' :=
  ⟨h.sound, h.grows, fun b hb => weaker _ b (h.result b hb)⟩

theorem Keeps.grows_mono {P' : Graph α → β → Prop} {r : Recording α β} (h : Keeps inputs r g P)
    (weaker : ∀ g' b, g.Grows g' → P g' b → P' g' b) : Keeps inputs r g P' :=
  ⟨h.sound, h.grows, fun b hb => weaker _ b h.grows (h.result b hb)⟩

/-- A recording ends, the graph is sound and has only grown, and the result has a property. -/
def Yields (inputs : Nat → Prop) (r : Recording α β) (g : Graph α)
    (result : Graph α → β → Prop) : Prop :=
  ∃ b g', r.on g = (.ok b, g') ∧ g'.Sound inputs ∧ g.Grows g' ∧ result g' b

theorem Keeps.of_ok {r : Recording α β} (h : Keeps inputs r g P) {b : β} {g' : Graph α}
    (hr : r.on g = (.ok b, g')) : g'.Sound inputs ∧ g.Grows g' ∧ P g' b := by
  obtain ⟨sound, grows, result⟩ := h
  rw [hr] at sound grows result
  exact ⟨sound, grows, result b rfl⟩

theorem Keeps.yields {r : Recording α β} (h : Keeps inputs r g P) {b : β} {g' : Graph α}
    (hr : r.on g = (.ok b, g')) : Yields inputs r g P := ⟨b, g', hr, h.of_ok hr⟩

theorem Yields.pure (sound : g.Sound inputs) {b : β} (h : P g b) : Yields inputs (pure b) g P :=
  ⟨b, g, rfl, sound, .refl g, h⟩

theorem Yields.after {r : Recording α β} {f : β → Recording α γ} {b : β} {g' : Graph α}
    (hr : r.on g = (.ok b, g')) (grows : g.Grows g') (h : Yields inputs (f b) g' Q) :
    Yields inputs (r >>= f) g Q := by
  obtain ⟨c, g'', hf, sound, grows', hc⟩ := h
  refine ⟨c, g'', ?_, sound, grows.trans grows', hc⟩
  rw [on_bind, hr]
  exact hf

theorem Yields.bind {r : Recording α β} {f : β → Recording α γ} (h : Yields inputs r g P)
    (next : ∀ g' b, g'.Sound inputs → g.Grows g' → P g' b → Yields inputs (f b) g' Q) :
    Yields inputs (r >>= f) g Q := by
  obtain ⟨b, g', hr, sound, grows, hb⟩ := h
  exact .after hr grows (next g' b sound grows hb)

theorem Yields.mono {P' : Graph α → β → Prop} {r : Recording α β} (h : Yields inputs r g P)
    (weaker : ∀ g' b, P g' b → P' g' b) : Yields inputs r g P' := by
  obtain ⟨b, g', hr, sound, grows, hb⟩ := h
  exact ⟨b, g', hr, sound, grows, weaker g' b hb⟩

theorem Yields.mapM {δ : Type} {f : δ → Recording α β} {R : Graph α → δ → β → Prop}
    (stays : ∀ {g g' : Graph α}, g.Grows g' → ∀ d b, R g d b → R g' d b) {ds : List δ}
    (sound : g.Sound inputs)
    (step : ∀ d ∈ ds, ∀ g' : Graph α, g'.Sound inputs → g.Grows g' →
      Yields inputs (f d) g' fun g'' b => R g'' d b) :
    Yields inputs (ds.mapM f) g fun g' bs => List.Forall₂ (R g') ds bs := by
  induction ds generalizing g with
  | nil => exact .pure sound .nil
  | cons d ds ih =>
    rw [List.mapM_cons]
    refine (step d List.mem_cons_self g sound (.refl g)).bind ?_
    intro g' b sound' grows hb
    refine (ih sound' fun e he g'' sound'' grows' =>
      step e (List.mem_cons_of_mem d he) g'' sound'' (grows.trans grows')).bind ?_
    intro g'' bs sound'' grows' hbs
    exact .pure sound'' (.cons (stays grows' d b hb) hbs)

/-- On every graph with this number a recording ends, and its result has a property. -/
def Succeeds (n : Nat) (r : Recording α β) (result : β → Prop) : Prop :=
  ∀ g : Graph α, g.number = n → ∃ b g', r.on g = (.ok b, g') ∧ g'.number = n ∧ result b

namespace Succeeds

variable {n : Nat} {P' : β → Prop} {Q' : γ → Prop}

theorem pure {b : β} (h : P' b) : Succeeds n (Pure.pure b : Recording α β) P' :=
  fun g hg => ⟨b, g, rfl, hg, h⟩

theorem bind {r : Recording α β} {f : β → Recording α γ} (h : Succeeds n r P')
    (next : ∀ b, P' b → Succeeds n (f b) Q') : Succeeds n (r >>= f) Q' := by
  intro g hg
  obtain ⟨b, g', hr, hg', hb⟩ := h g hg
  rw [on_bind, hr]
  exact next b hb g' hg'

theorem mono {r : Recording α β} {P'' : β → Prop} (h : Succeeds n r P')
    (weaker : ∀ b, P' b → P'' b) : Succeeds n r P'' := by
  intro g hg
  obtain ⟨b, g', hr, hg', hb⟩ := h g hg
  exact ⟨b, g', hr, hg', weaker b hb⟩

end Succeeds

/-- What a recording keeps it yields, where it cannot fail. -/
theorem Keeps.yields_of_succeeds {P' : β → Prop} {r : Recording α β} (h : Keeps inputs r g P)
    (succeeds : Succeeds g.number r P') : Yields inputs r g P := by
  obtain ⟨b, g', hr, _⟩ := succeeds g rfl
  exact h.yields hr

end Recording

end DiagramLayout
