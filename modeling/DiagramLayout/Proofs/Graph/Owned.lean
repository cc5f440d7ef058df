import DiagramLayout.Proofs.Graph.Expression
import DiagramLayout.Proofs.Graph.Recorded

namespace DiagramLayout

variable {α : Type}

namespace Value

mutual

/-- The handles that occur in a value. -/
def handles : Value α → List Handle
  | handle h => [h]
  | list vs => handlesOfAll vs
  | _ => []

/-- The handles that occur in several values. -/
def handlesOfAll : List (Value α) → List Handle
  | [] => []
  | v :: vs => v.handles ++ handlesOfAll vs

end

variable {R : Correspondence α}

mutual

/-- A value agrees with itself if all its handles stand for themselves. -/
theorem agrees_self_iff : ∀ {v : Value α}, v.Agrees .handle R v ↔ ∀ h ∈ v.handles, R h (handle h)
  | handle h => by
    rw [handles, List.forall_mem_singleton]
    constructor
    · rintro (_ | _)
      assumption
    · exact fun h => .handle trivial h
  | list vs => by
    rw [handles, ← agreeAll_self_iff]
    constructor
    · rintro (_ | _)
      assumption
    · exact .list
  | number x => iff_of_true (.number x) fun _ h => by cases h
  | integer n => iff_of_true (.integer n) fun _ h => by cases h
  | text s => iff_of_true (.text s) fun _ h => by cases h
  | truth b => iff_of_true (.truth b) fun _ h => by cases h
  | absent => iff_of_true .absent fun _ h => by cases h
  | varying i => iff_of_true (.varying i) fun _ h => by cases h

theorem agreeAll_self_iff : ∀ {vs : List (Value α)},
    AgreeAll .handle R vs vs ↔ ∀ h ∈ handlesOfAll vs, R h (handle h)
  | [] => iff_of_true .nil fun _ h => by cases h
  | v :: vs => by
    rw [handlesOfAll, List.forall_mem_append, ← agrees_self_iff, ← agreeAll_self_iff]
    exact List.forall₂_cons

end

end Value

namespace Graph

/-- All handles of a value are those of nodes of one graph. -/
def Owns (g : Graph α) (v : Value α) : Prop :=
  ∀ h ∈ v.handles, h.graph = g.number ∧ h.node < g.size

variable {g : Graph α}

theorem Names.owns {h : Handle} {node : Node α} (names : g.Names h node) : g.Owns (.handle h) := by
  obtain ⟨i, rfl, hnode⟩ := names
  intro h hh
  rw [Value.handles, List.mem_singleton] at hh
  rw [hh]
  exact ⟨rfl, lt_of_node? hnode⟩

theorem Owns.mono {g' : Graph α} (grows : g.Grows g') {v : Value α} (h : g.Owns v) : g'.Owns v := by
  intro handle hhandle
  obtain ⟨hown, hlt⟩ := h handle hhandle
  exact ⟨hown.trans grows.number.symm, Nat.lt_of_lt_of_le hlt grows.size_le⟩

theorem owns_list {vs : List (Value α)} (h : ∀ v ∈ vs, g.Owns v) : g.Owns (.list vs) := by
  induction vs with
  | nil => exact fun _ h => by cases h
  | cons v vs ih =>
    obtain ⟨hv, hvs⟩ := List.forall_mem_cons.mp h
    intro handle hhandle
    rcases List.mem_append.mp hhandle with hhandle | hhandle
    · exact hv handle hhandle
    · exact ih hvs handle hhandle

variable [Scalar α]

theorem Computed.owns {op : Op} {vs : List (Value α)} {v : Value α} (h : g.Computed op vs v) :
    g.Owns v := by
  cases h with
  | node _ names => exact names.owns
  | folded _ _ => exact fun _ h => by cases h

theorem Stands.owns {v : Value α} {i : Nat} (h : g.Stands v i) : g.Owns (.handle (g.handle i)) := by
  obtain ⟨node, hnode⟩ := exists_node? h.lt
  exact Names.owns ⟨i, rfl, hnode⟩

mutual

theorem Bound.owns : ∀ {v w : Value α}, g.Bound v w → g.Owns w
  | _, _, .input _ names => names.owns
  | _, _, .scalar _ stands => stands.owns
  | .list _, _, .list hs => owns_list (Bound.all_owned hs)

theorem Bound.all_owned : ∀ {vs ws : List (Value α)}, List.Forall₂ g.Bound vs ws →
    ∀ w ∈ ws, g.Owns w
  | [], _, .nil => fun _ h => by cases h
  | _ :: _, _, .cons h hs => List.forall_mem_cons.mpr ⟨Bound.owns h, Bound.all_owned hs⟩

end

variable {inputs : Nat → Prop}

theorem lift_scalar_owns (sound : g.Sound inputs) {v : Value α} (known : Value.Known g v)
    (noList : v.isList = false) : (lift v).Keeps inputs g Owns := by
  refine (lift_keeps sound known).mono ?_
  intro g' w lifted
  cases lifted with
  | node stands => exact stands.owns
  | list _ => cases noList

mutual

/-- Lifting refuses the handles of other graphs. -/
theorem lift_owns {g : Graph α} (sound : g.Sound inputs) : ∀ {v : Value α}, Value.Known g v →
    (lift v).Keeps inputs g Owns
  | .list vs, .list known => by
    unfold lift
    refine (liftAll_owns sound known).bind ?_
    intro g' ws sound' _ howned
    exact .pure sound' (owns_list howned)
  | .handle _, known => lift_scalar_owns sound known rfl
  | .number _, known => lift_scalar_owns sound known rfl
  | .integer _, known => lift_scalar_owns sound known rfl
  | .truth _, known => lift_scalar_owns sound known rfl
  | .text _, known => lift_scalar_owns sound known rfl
  | .absent, known => lift_scalar_owns sound known rfl
  | .varying _, known => lift_scalar_owns sound known rfl

theorem liftAll_owns {g : Graph α} (sound : g.Sound inputs) : ∀ {vs : List (Value α)},
    Value.AllKnown g vs → (liftAll vs).Keeps inputs g fun g' ws => ∀ w ∈ ws, g'.Owns w
  | [], _ => .pure sound fun _ h => by cases h
  | v :: vs, .cons known knowns => by
    unfold liftAll
    refine (lift_owns sound known).bind ?_
    intro g' w sound' grows howned
    refine (liftAll_owns sound' (Value.AgreeAll.mono grows.knows knowns)).bind ?_
    intro g'' ws sound'' grows' howns
    exact .pure sound'' (List.forall_mem_cons.mpr ⟨howned.mono grows', howns⟩)

end

end Graph

end DiagramLayout
