import DiagramLayout.Proofs.Graph.Additions
import DiagramLayout.Proofs.Fault
import DiagramLayout.Proofs.Optimizer.History
import DiagramLayout.Scalar.Double

/-!
# Refused problems

A problem that cannot be compiled is refused with a fault of its description, except where a term
hands a number or a handle to the graph that the graph does not take.

* `Recording.fault?`: what a recording fails with, with a rule for each way to build one;
* `Value.liftFault?`, `Value.bindFault?`: what a single value fails with;
  `Graph.bindArguments_fault?`: the first of all arguments that fails;
* `ResolvedTerm.Escapes`: a term that fails with no fault of the description;
* `Energy.Reaches`: the terms that are built, with the graph that those before them leave;
* `Energy.compile_escapes_iff`: which problems are refused with another fault.
-/

namespace DiagramLayout

variable {α β γ δ : Type}

/-! ## What a recording fails with -/

namespace Recording

/-- The fault with which a recording fails on a graph. -/
def fault? (r : Recording α β) (g : Graph α) : Option Fault :=
  match (r.on g).1 with
  | .ok _ => none
  | .error cause => some cause

variable {r : Recording α β} {f : β → Recording α γ} {g g' : Graph α} {b : β} {cause : Fault}

theorem fault?_of_ok (h : r.on g = (.ok b, g')) : r.fault? g = none := by rw [fault?, h]

theorem fault?_of_error (h : r.on g = (.error cause, g')) : r.fault? g = some cause := by
  rw [fault?, h]

theorem fault?_eq_some_iff : r.fault? g = some cause ↔ (r.on g).1 = .error cause := by
  cases h : (r.on g).1 <;> simp [fault?, h]

theorem fault?_bind_of_ok (h : r.on g = (.ok b, g')) : (r >>= f).fault? g = (f b).fault? g' := by
  rw [fault?, on_bind, h, fault?]

theorem fault?_bind_of_error (h : r.on g = (.error cause, g')) :
    (r >>= f).fault? g = some cause := by
  rw [fault?, on_bind, h]

theorem Succeeds.fault? {n : Nat} {P : β → Prop} (h : r.Succeeds n P) (hg : g.number = n) :
    r.fault? g = none := by
  obtain ⟨b, g', hr, _⟩ := h g hg
  exact fault?_of_ok hr

theorem fault?_bind_eq_some_iff : (r >>= f).fault? g = some cause ↔
    r.fault? g = some cause ∨ ∃ b g', r.on g = (.ok b, g') ∧ (f b).fault? g' = some cause := by
  rcases hr : r.on g with ⟨outcome, g'⟩
  cases outcome with
  | ok b =>
    rw [fault?_bind_of_ok hr, fault?_of_ok hr]
    constructor
    · exact fun h => .inr ⟨b, g', rfl, h⟩
    · rintro (h | ⟨_, _, heq, h⟩)
      · cases h
      · cases heq
        exact h
  | error e =>
    rw [fault?_bind_of_error hr, fault?_of_error hr]
    refine (or_iff_left ?_).symm
    rintro ⟨_, _, heq, _⟩
    cases heq

/-- What follows a recording without a fault of its own leaves its fault. -/
theorem fault?_bind (next : ∀ b g', r.on g = (.ok b, g') → (f b).fault? g' = none) :
    (r >>= f).fault? g = r.fault? g := by
  rcases hr : r.on g with ⟨outcome, g'⟩
  cases outcome with
  | ok b => rw [fault?_bind_of_ok hr, fault?_of_ok hr, next b g' hr]
  | error cause => rw [fault?_bind_of_error hr, fault?_of_error hr]

theorem fault?_map {h : β → γ} : (do let b ← r; pure (h b)).fault? g = r.fault? g :=
  fault?_bind fun _ _ _ => rfl

/-- The elements that a traversal comes to, each with the graph that those before it leave. -/
inductive Visits (f : δ → Recording α β) : Graph α → List δ → δ → Graph α → Prop where
  | first {g : Graph α} {d : δ} {ds : List δ} : Visits f g (d :: ds) d g
  | later {g g₁ g' : Graph α} {d e : δ} {ds : List δ} {b : β} : (f d).on g = (.ok b, g₁) →
      Visits f g₁ ds e g' → Visits f g (d :: ds) e g'

/-- A traversal fails with an element that it comes to. -/
theorem mapM_fault?_iff {f : δ → Recording α β} {ds : List δ} :
    (ds.mapM f).fault? g = some cause ↔ ∃ d g', Visits f g ds d g' ∧ (f d).fault? g' = some cause := by
  induction ds generalizing g with
  | nil =>
    constructor
    · intro h
      cases h
    · rintro ⟨_, _, visits, _⟩
      cases visits
  | cons d ds ih =>
    rw [List.mapM_cons, fault?_bind_eq_some_iff]
    simp only [fault?_map, ih]
    constructor
    · rintro (h | ⟨b, g₁, hd, e, g', visits, h⟩)
      · exact ⟨d, g, .first, h⟩
      · exact ⟨e, g', .later hd visits, h⟩
    · rintro ⟨e, g', visits, h⟩
      cases visits with
      | first => exact .inl h
      | later hd visits => exact .inr ⟨_, _, hd, e, g', visits, h⟩

/-- What a recording that ends on a graph with this number gives has a property. -/
def Returns (n : Nat) (r : Recording α β) (result : β → Prop) : Prop :=
  ∀ g b g', g.number = n → r.on g = (.ok b, g') → result b

theorem Returns.mapM {n : Nat} {P : β → Prop} {f : δ → Recording α β} {ds : List δ}
    (h : ∀ d ∈ ds, Returns n (f d) P) (stays : ∀ d ∈ ds, (f d).Preserves (·.number = n)) :
    Returns n (ds.mapM f) fun bs => ∀ b ∈ bs, P b := by
  induction ds with
  | nil =>
    intro g bs g' _ hon
    cases hon
    simp
  | cons d ds ih =>
    obtain ⟨hd, hds⟩ := List.forall_mem_cons.mp h
    obtain ⟨staysd, staysds⟩ := List.forall_mem_cons.mp stays
    intro g bs g' hg hon
    rw [List.mapM_cons] at hon
    obtain ⟨b, g₁, hb, hon⟩ := on_bind_eq_ok hon
    obtain ⟨rest, g₂, hrest, hon⟩ := on_bind_eq_ok hon
    cases hon
    exact List.forall_mem_cons.mpr
      ⟨hd g b g₁ hg hb, ih hds staysds g₁ rest g' (staysd.of_on hb hg) hrest⟩

end Recording

/-! ## What a value fails with -/

variable [Scalar α]

namespace Value

mutual

/-- The parts of a value that are no lists. -/
def leaves : Value α → List (Value α)
  | .list vs => leavesOfAll vs
  | v => [v]

/-- The parts of several values that are no lists, from left to right. -/
def leavesOfAll : List (Value α) → List (Value α)
  | [] => []
  | v :: vs => leaves v ++ leavesOfAll vs

end

/-- Why a value that is no list has no node on a graph with this number. -/
def liftFault? (number : Nat) : Value α → Option Fault
  | .handle h => if h.graph = number then none else some (.violated .ownHandle)
  | .integer n => if (Scalar.ofInt? n : Option α).isSome then none else some .tooLarge
  | .number _ | .truth _ | .list _ => none
  | v => some (.cannotLift v.form)

/-- Why a value that is no list is no argument of a term. -/
def bindFault? (number : Nat) : Value α → Option Fault
  | .varying i => if i < 0 then some (.violated .inputIndex) else none
  | .truth b => some (.unsupportedArgument (toText (.truth b : Value α)))
  | .text s => some (.unsupportedArgument (toText (.text s : Value α)))
  | .absent => some (.unsupportedArgument (toText (.absent : Value α)))
  | v => v.liftFault? number

theorem isOperand_of_liftFault? {number : Nat} {v : Value α} (hlist : v.isList = false)
    (h : v.liftFault? number = none) : Graph.IsOperand number v := by
  cases v with
  | number x => exact .inr ⟨rfl, x, rfl⟩
  | truth b => exact .inr ⟨rfl, _, rfl⟩
  | list vs => cases hlist
  | handle handle =>
    by_cases hown : handle.graph = number
    · exact .inl ⟨handle, rfl, hown⟩
    · simp [liftFault?, hown] at h
  | integer n =>
    cases hx : (Scalar.ofInt? n : Option α) with
    | none => simp [liftFault?, hx] at h
    | some x => exact .inr ⟨rfl, x, by rw [toNumber, ofInteger, hx]⟩
  | _ => cases h

end Value

namespace Graph

variable {g : Graph α}

/-- A value that is no list is lifted exactly if it has no fault. -/
theorem lift_fault? {v : Value α} (hlist : v.isList = false) :
    (lift v).fault? g = v.liftFault? g.number := by
  cases h : v.liftFault? g.number with
  | none => exact (lift_succeeds (Value.isOperand_of_liftFault? hlist h)).fault? rfl
  | some cause =>
    rw [Recording.fault?_eq_some_iff]
    cases v with
    | number _ | truth _ | list _ => cases h
    | text _ | absent | varying _ => cases h; rfl
    | handle handle =>
      by_cases hown : handle.graph = g.number
      · simp [Value.liftFault?, hown] at h
      · simp only [Value.liftFault?, if_neg hown, Option.some.injEq] at h
        rw [lift, Recording.on_bind, on_own, if_neg hown, h]
    | integer n =>
      cases hx : (Scalar.ofInt? n : Option α) with
      | some x => simp [Value.liftFault?, hx] at h
      | none =>
        simp only [Value.liftFault?, hx, Option.isSome_none, Bool.false_eq_true, ↓reduceIte,
          Option.some.injEq] at h
        rw [lift, recordConst, Value.toNumber, Value.ofInteger, hx, ← h]
        rfl

mutual

theorem bindArgument_fault? (g : Graph α) : ∀ v : Value α,
    (bindArgument v).fault? g = (Value.leaves v).findSome? (Value.bindFault? g.number)
  | .list vs => by
    rw [bindArgument, Recording.fault?_map, bindArguments_fault? g vs, Value.leaves]
  | .varying i => by
    have hon := on_recordInput i g
    rw [bindArgument, Value.leaves, List.findSome?_singleton, Value.bindFault?]
    split at hon
    · next hneg => rw [if_pos hneg, Recording.fault?_of_error hon]
    · next hneg => rw [if_neg hneg, Recording.fault?_of_ok hon]
    · exact fun _ h => nomatch h
  | .truth _ | .text _ | .absent => rfl
  | .number _ | .integer _ | .handle _ => by
    rw [Value.leaves, List.findSome?_singleton]
    · exact lift_fault? rfl
    · exact fun _ h => nomatch h

/-- Binding arguments fails with the first part that is no argument. -/
theorem bindArguments_fault? (g : Graph α) : ∀ vs : List (Value α),
    (bindArguments vs).fault? g = (Value.leavesOfAll vs).findSome? (Value.bindFault? g.number)
  | [] => rfl
  | v :: vs => by
    have hv := bindArgument_fault? g v
    rw [bindArguments, Value.leavesOfAll, List.findSome?_append, ← hv]
    rcases hon : (bindArgument v).on g with ⟨outcome, g'⟩
    cases outcome with
    | error cause => rw [Recording.fault?_bind_of_error hon, Recording.fault?_of_error hon]; rfl
    | ok w =>
      have hnumber : g'.number = g.number :=
        (bindArgument_preserves (persists_number (fun _ => True) g.number)
          fun _ _ _ => trivial).of_on hon rfl
      rw [Recording.fault?_bind_of_ok hon, Recording.fault?_of_ok hon, Option.none_or,
        Recording.fault?_map, bindArguments_fault? g' vs, hnumber]

end

end Graph

/-! ## Terms -/

namespace Recording

variable {r : Recording α β} {g g' : Graph α}

omit [Scalar α]

theorem on_building_eq_ok_iff (term : String) {b : β} :
    (building term r).on g = (.ok b, g') ↔ r.on g = (.ok b, g') := by
  obtain ⟨_, hon⟩ := on_building term r g
  rw [hon]
  rcases r.on g with ⟨_ | _, _⟩ <;> simp

/-- Building a term reports every fault as one of the term, except an integer that is too large. -/
theorem on_building_of_error (term : String) {e : Fault} (hr : r.on g = (.error e, g')) :
    (building term r).on g =
      (.error (if e = .tooLarge then .tooLarge else .cannotBuild term e), g') := by
  simp only [on] at hr
  simp only [building, on, ExceptT.run_mk, StateT.run_bind, hr]
  cases e <;> rfl

theorem building_fault?_iff (term : String) {cause : Fault} (hcause : cause.isConfiguration = false) :
    (building term r).fault? g = some cause ↔ cause = .tooLarge ∧ r.fault? g = some .tooLarge := by
  rcases hr : r.on g with ⟨outcome, g'⟩
  cases outcome with
  | ok b => simp [fault?_of_ok ((on_building_eq_ok_iff term).mpr hr), fault?_of_ok hr]
  | error e =>
    have hon := on_building_of_error term hr
    rw [fault?_of_error hon, fault?_of_error hr]
    by_cases he : e = .tooLarge
    · simp [he, eq_comm]
    · simp only [if_neg he, Option.some.injEq]
      constructor
      · rintro rfl
        cases hcause
      · rintro ⟨_, h⟩
        exact absurd h he

end Recording

/-- A term fails on a graph with a fault that is none of the description of a problem. -/
inductive ResolvedTerm.Escapes (g : Graph α) (t : ResolvedTerm α) : Fault → Prop where
  /-- The first part of an argument that fails is an integer beyond every number, or a handle of
  another graph. -/
  | argument {cause : Fault} :
      (Value.leavesOfAll t.term.arguments).findSome? (Value.bindFault? g.number) = some cause →
      cause.isConfiguration = false → Escapes g t cause
  /-- The function meets an integer beyond every number. -/
  | call {ws : List (Value α)} {g₁ : Graph α} :
      (Graph.bindArguments t.term.arguments).on g = (.ok ws, g₁) →
      (t.function.call ws).record.fault? g₁ = some .tooLarge → Escapes g t .tooLarge
  /-- The result of the function is neither a list nor something that has a node. -/
  | result {ws : List (Value α)} {g₁ g₂ : Graph α} {v : Value α} {cause : Fault} :
      (Graph.bindArguments t.term.arguments).on g = (.ok ws, g₁) →
      (t.function.call ws).record.on g₁ = (.ok v, g₂) → v.isList = false →
      v.liftFault? g₂.number = some cause → Escapes g t cause

namespace ResolvedTerm

variable {g : Graph α} {t : ResolvedTerm α} {cause : Fault}

theorem scalar_fault?_iff (term : String) {v : Value α} (hcause : cause.isConfiguration = false) :
    (if v.isList = true then throw (.notScalar term) else Graph.lift v : Recording α (Value α)).fault?
        g = some cause ↔ v.isList = false ∧ v.liftFault? g.number = some cause := by
  cases hlist : v.isList with
  | false => simp [Graph.lift_fault? hlist]
  | true =>
    constructor
    · intro h
      cases h
      cases hcause
    · rintro ⟨h, _⟩
      cases h

theorem fault?_iff_escapes (hcause : cause.isConfiguration = false) :
    t.record.fault? g = some cause ↔ t.Escapes g cause := by
  rw [record_eq, Recording.fault?_bind_eq_some_iff, Graph.bindArguments_fault?]
  constructor
  · rintro (h | ⟨ws, g₁, hws, h⟩)
    · exact .argument h hcause
    obtain h | ⟨v, g₂, hv, h⟩ := Recording.fault?_bind_eq_some_iff.mp h
    · obtain ⟨rfl, hlarge⟩ := (Recording.building_fault?_iff _ hcause).mp h
      exact .call hws hlarge
    · obtain ⟨hlist, hlift⟩ := (scalar_fault?_iff _ hcause).mp h
      exact .result hws ((Recording.on_building_eq_ok_iff _).mp hv) hlist hlift
  · intro h
    cases h with
    | argument h _ => exact .inl h
    | call hws hlarge =>
      have hbuilding := (Recording.building_fault?_iff t.term.text hcause).mpr ⟨rfl, hlarge⟩
      exact .inr ⟨_, _, hws, Recording.fault?_bind_eq_some_iff.mpr (.inl hbuilding)⟩
    | result hws hv hlist hlift =>
      have hbuilding := (Recording.on_building_eq_ok_iff t.term.text).mpr hv
      have hscalar := (scalar_fault?_iff t.term.text hcause).mpr ⟨hlist, hlift⟩
      exact .inr ⟨_, _, hws, Recording.fault?_bind_eq_some_iff.mpr
        (.inr ⟨_, _, hbuilding, hscalar⟩)⟩

/-- A term that is built is a handle of the graph. -/
theorem record_returns (t : ResolvedTerm α) (n : Nat) :
    t.record.Returns n (Graph.IsOperand n) := by
  intro g w g' hg hon
  have persists := Graph.persists_number (α := α) (fun _ => True) n
  rw [record_eq] at hon
  obtain ⟨ws, g₁, hbind, hon⟩ := Recording.on_bind_eq_ok hon
  obtain ⟨v, g₂, hcall, hon⟩ := Recording.on_bind_eq_ok hon
  have hg₁ := (Graph.bindArguments_preserves persists fun _ _ _ => trivial).of_on hbind hg
  have hg₂ := ((Formula.record_preserves persists _).building _).of_on hcall hg₁
  cases hlist : v.isList with
  | true =>
    rw [hlist] at hon
    cases hon
  | false =>
    rw [if_neg (by simp [hlist])] at hon
    have hfault := Recording.fault?_of_ok hon
    rw [Graph.lift_fault? hlist, hg₂] at hfault
    obtain ⟨w', _, hlift, _, hw⟩ :=
      Graph.lift_succeeds (Value.isOperand_of_liftFault? hlist hfault) g₂ hg₂
    cases hon.symm.trans hlift
    exact hw.elim fun handle h => .inl ⟨handle, h⟩

end ResolvedTerm

/-! ## Energies -/

namespace Energy

/-- The default penalty can be built of every operand. -/
theorem defaultPenalty_succeeds {n : Nat} {v : Value α} (h : Graph.IsOperand n v) :
    (defaultPenalty.call [v]).record.Succeeds n (Graph.IsOperand n) := by
  have hzero : Graph.IsOperand n (.number 0.0 : Value α) := .inr ⟨rfl, _, rfl⟩
  refine (Graph.operate_succeeds .max ?_).bind fun m hm =>
    (Graph.operate_succeeds .square ?_).bind fun q hq => .pure hq
  · simp [h, hzero]
  · simpa using hm

/-- A constraint with its penalty on a graph. -/
abbrev penalized (t : ResolvedTerm α) : Recording α (Value α) := do
  (defaultPenalty.call [← t.record]).record

theorem penalized_fault? (t : ResolvedTerm α) (g : Graph α) :
    (penalized t).fault? g = t.record.fault? g := by
  refine Recording.fault?_bind fun w g' hw => ?_
  have hnumber := (t.number_stays defaultPenalty g.number).1.of_on hw rfl
  exact (defaultPenalty_succeeds (t.record_returns g.number g w g' rfl hw)).fault? hnumber

theorem penalized_returns (t : ResolvedTerm α) (n : Nat) :
    (penalized t).Returns n (Graph.IsOperand n) := by
  intro g v g' hg hon
  obtain ⟨w, g₁, hw, hon⟩ := Recording.on_bind_eq_ok hon
  have hnumber := (t.number_stays defaultPenalty n).1.of_on hw hg
  obtain ⟨v', _, hv', _, hv⟩ := defaultPenalty_succeeds (t.record_returns n g w g₁ hg hw) g₁ hnumber
  cases hon.symm.trans hv'
  exact hv

/-- The terms that building an energy comes to, each with the graph that those before it leave. -/
inductive Reaches (number : Nat) (objectives constraints : List (ResolvedTerm α)) :
    ResolvedTerm α → Graph α → Prop where
  | objective {t : ResolvedTerm α} {g : Graph α} :
      Recording.Visits ResolvedTerm.record { number } objectives t g →
      Reaches number objectives constraints t g
  | constraint {energies : List (Value α)} {t : ResolvedTerm α} {g₁ g : Graph α} :
      (objectives.mapM ResolvedTerm.record).on { number } = (.ok energies, g₁) →
      Recording.Visits penalized g₁ constraints t g → Reaches number objectives constraints t g

/-- After the objectives an energy fails with its constraints only. -/
theorem combined_fault? {objectives constraints : List (ResolvedTerm α)} (scale : α) {number : Nat}
    {energies : List (Value α)} {g : Graph α}
    (hobjectives : (objectives.mapM ResolvedTerm.record).on { number } = (.ok energies, g)) :
    (constraints.mapM penalized >>= fun penalties =>
      Recording.node (combine scale energies penalties)).fault? g =
        (constraints.mapM penalized).fault? g := by
  have stays (t : ResolvedTerm α) := t.number_stays defaultPenalty number
  have hnumber : g.number = number :=
    (Recording.Preserves.mapM fun t _ => (stays t).1).of_on hobjectives rfl
  have henergies := Recording.Returns.mapM (fun t _ => t.record_returns number)
    (fun t _ => (stays t).1) _ _ _ rfl hobjectives
  refine Recording.fault?_bind fun penalties g' hpenalties => ?_
  have hpenalty := Recording.Returns.mapM (fun t _ => penalized_returns t number)
    (fun t _ => (stays t).2) _ _ _ hnumber hpenalties
  have hnumber' := (Recording.Preserves.mapM fun t _ => (stays t).2).of_on hpenalties hnumber
  exact (combine_succeeds scale henergies hpenalty).node.fault? hnumber'

/-- Building an energy fails with a term that it comes to. -/
theorem build_fault?_iff {objectives constraints : List (ResolvedTerm α)} {scale : α} {number : Nat}
    {cause : Fault} :
    (build objectives constraints scale defaultPenalty).fault? { number } = some cause ↔
      ∃ t g, Reaches number objectives constraints t g ∧ t.record.fault? g = some cause := by
  unfold build
  rw [Recording.fault?_bind_eq_some_iff, Recording.mapM_fault?_iff]
  constructor
  · rintro (⟨t, g, visits, h⟩ | ⟨energies, g₁, hobjectives, h⟩)
    · exact ⟨t, g, .objective visits, h⟩
    · rw [combined_fault? scale hobjectives, Recording.mapM_fault?_iff] at h
      obtain ⟨t, g, visits, h⟩ := h
      exact ⟨t, g, .constraint hobjectives visits, (penalized_fault? t g).symm.trans h⟩
  · rintro ⟨t, g, reaches, h⟩
    cases reaches with
    | objective visits => exact .inl ⟨t, g, visits, h⟩
    | constraint hobjectives visits =>
      refine .inr ⟨_, _, hobjectives, ?_⟩
      rw [combined_fault? scale hobjectives, Recording.mapM_fault?_iff]
      exact ⟨t, g, visits, (penalized_fault? t g).trans h⟩

end Energy

/-- Terms that cannot be resolved are a fault of the description. -/
theorem Problem.resolve_faultsIn (p : Problem α) (library : Library α) :
    FaultsIn (fun cause => cause.isConfiguration = true) (p.resolve library) := by
  have hterm (t : Term α) (kind : TermKind) (functions : Dictionary α) :
      FaultsIn (fun cause => cause.isConfiguration = true) (t.resolve kind functions p.count) := by
    unfold Term.resolve
    split
    · exact .error rfl
    · split
      · exact .error rfl
      · split
        · exact .error rfl
        · exact .ok _
  exact .bind (.mapM (fun _ => hterm _ _ _) _) fun _ _ =>
    .bind (.mapM (fun _ => hterm _ _ _) _) fun _ _ => .pure _

namespace Energy

theorem compile_eq_error_iff {p : Problem α} {library : Library α} {scale : α}
    (hcount : 0 ≤ p.count) (hscale : Scalar.less 0.0 scale = true) {cause : Fault}
    (hcause : cause.isConfiguration = false) :
    compile p library scale defaultPenalty = .error cause ↔
      ∃ objectives constraints, p.resolve library = .ok (objectives, constraints) ∧
        (build objectives constraints scale defaultPenalty).fault? { number := p.nextGraph } =
          some cause := by
  have hcount' : require (0 ≤ p.count) .variableCount = .ok () := require_eq_ok_iff.mpr (by simpa)
  have hscale' : require (Scalar.less 0.0 scale) .constraintScale = .ok () :=
    require_eq_ok_iff.mpr hscale
  simp only [compile, hcount', hscale', ok_bind]
  constructor
  · intro h
    obtain h | ⟨⟨objectives, constraints⟩, hresolve, h⟩ := bind_eq_error_iff.mp h
    · rw [p.resolve_faultsIn library _ h] at hcause
      cases hcause
    · have hbuild := (bind_eq_error_iff_of_ok fun _ => ⟨_, rfl⟩).mp h
      exact ⟨objectives, constraints, hresolve, Recording.fault?_eq_some_iff.mpr hbuild⟩
  · rintro ⟨objectives, constraints, hresolve, hfault⟩
    have hbuild := Recording.fault?_eq_some_iff.mp hfault
    rw [hresolve, ok_bind]
    exact (bind_eq_error_iff_of_ok fun _ => ⟨_, rfl⟩).mpr hbuild

end Energy

/-! ## A target beyond every double -/

/-- The variable is to be an integer that no double comes near to. -/
def farTarget : Problem Float where
  objectives := [⟨"equal", [.varying 0, .integer (10 ^ 400)], .objective⟩]
  constraints := []
  count := 1

theorem farTarget_compile : Energy.compile farTarget Catalog.library Energy.defaultScale
    Energy.defaultPenalty = .error .tooLarge := by
  have h : (match Energy.compile farTarget Catalog.library Energy.defaultScale
    Energy.defaultPenalty with
    | .error cause => decide (cause = .tooLarge)
    | .ok _ => false) = true := by decide +kernel
  split at h
  · next heq => rw [heq, of_decide_eq_true h]
  · cases h

end DiagramLayout
