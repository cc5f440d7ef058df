import DiagramLayout.Energy.Terms
import DiagramLayout.Proofs.Energy.Refused

/-!
# Terms that cannot be resolved

Before anything is built, every term of a problem is resolved. The first term that cannot be, with the
objectives before the constraints, decides what a problem is refused with, whatever building the terms
would have met, and it is the same for the energy and for the report of single terms.

* `Value.Mentions`, `Value.FirstOutside`: the variables that a value refers to at any depth, and the first
  of them that does not exist;
* `TermFunction.Fits`, `TermFunction.Misfits`: which arguments fit a parameter list, and why others do not;
* `Term.Unresolvable`, `Term.Unresolved`: the terms that cannot be resolved, and what they fail with;
* `Problem.Unresolved`: what the first such term of a problem fails with;
* `Problem.refused_first`: both ways to compile a problem.
-/

namespace DiagramLayout

variable {α : Type}

/-! ## References to variables -/

/-- The position of one of so many variables. -/
def InRange (count index : Int) : Prop := 0 ≤ index ∧ index < count

instance (count index : Int) : Decidable (InRange count index) :=
  inferInstanceAs (Decidable (_ ∧ _))

namespace Value

/-- A value refers to a variable, itself or in one of its elements. -/
inductive Mentions : Value α → Int → Prop where
  | varying (i : Int) : Mentions (.varying i) i
  | element {vs : List (Value α)} {v : Value α} {i : Int} : v ∈ vs → Mentions v i →
      Mentions (.list vs) i

/-- The first reference of a value, from left to right, to a variable that does not exist. -/
inductive FirstOutside (count : Int) : Value α → Int → Prop where
  | varying {i : Int} : ¬ InRange count i → FirstOutside count (.varying i) i
  | element {before after : List (Value α)} {v : Value α} {i : Int} :
      (∀ w ∈ before, ∀ j, w.Mentions j → InRange count j) → FirstOutside count v i →
      FirstOutside count (.list (before ++ v :: after)) i

theorem mentions_list {vs : List (Value α)} {i : Int} :
    (list vs).Mentions i ↔ ∃ v ∈ vs, v.Mentions i := by
  constructor
  · rintro (_ | ⟨hv, h⟩)
    exact ⟨_, hv, h⟩
  · rintro ⟨v, hv, h⟩
    exact .element hv h

theorem firstOutside_list {count : Int} {vs : List (Value α)} {i : Int} :
    (list vs).FirstOutside count i ↔ ∃ before v after, vs = before ++ v :: after ∧
      (∀ w ∈ before, ∀ j, w.Mentions j → InRange count j) ∧ v.FirstOutside count i := by
  constructor
  · intro h
    cases h with
    | element hbefore hv => exact ⟨_, _, _, rfl, hbefore, hv⟩
  · rintro ⟨before, v, after, rfl, hbefore, hv⟩
    exact .element hbefore hv

mutual

/-- The variables that a value is said to refer to are those that it mentions. -/
theorem mem_indices_iff {i : Int} : ∀ {v : Value α}, i ∈ v.indices ↔ v.Mentions i
  | .varying j => by
    rw [indices, List.mem_singleton]
    constructor
    · rintro rfl
      exact .varying i
    · intro h
      cases h
      rfl
  | .list vs => by rw [indices, mem_indicesOfAll_iff, mentions_list]
  | .number _ | .integer _ | .text _ | .truth _ | .absent | .handle _ => by
    constructor <;> intro h <;> cases h

theorem mem_indicesOfAll_iff {i : Int} : ∀ {vs : List (Value α)},
    i ∈ indicesOfAll vs ↔ ∃ v ∈ vs, v.Mentions i
  | [] => by simp [indicesOfAll]
  | v :: vs => by
    rw [indicesOfAll, List.mem_append, mem_indices_iff, mem_indicesOfAll_iff]
    simp

end

/-- No reference of a value is out of range. -/
theorem find?_indices_eq_none {count : Int} {v : Value α} :
    v.indices.find? (¬ InRange count ·) = none ↔ ∀ i, v.Mentions i → InRange count i := by
  simp [List.find?_eq_none, mem_indices_iff]

mutual

/-- The first of the variables of a value that is out of range. -/
theorem find?_indices_eq_some {count i : Int} : ∀ {v : Value α},
    v.indices.find? (¬ InRange count ·) = some i ↔ v.FirstOutside count i
  | .varying j => by
    rw [indices, List.find?_singleton]
    constructor
    · intro h
      obtain ⟨houtside, rfl⟩ : ¬ InRange count j ∧ j = i := by simpa using h
      exact .varying houtside
    · rintro ⟨houtside⟩
      simp [houtside]
  | .list vs => by rw [indices, find?_indicesOfAll_eq_some, firstOutside_list]
  | .number _ | .integer _ | .text _ | .truth _ | .absent | .handle _ => by
    constructor <;> intro h <;> cases h

theorem find?_indicesOfAll_eq_some {count i : Int} : ∀ {vs : List (Value α)},
    (indicesOfAll vs).find? (¬ InRange count ·) = some i ↔
      ∃ before v after, vs = before ++ v :: after ∧
        (∀ w ∈ before, ∀ j, w.Mentions j → InRange count j) ∧ v.FirstOutside count i
  | [] => by simp [indicesOfAll]
  | v :: vs => by
    rw [indicesOfAll, List.find?_append, Option.or_eq_some_iff, find?_indices_eq_some,
      find?_indices_eq_none, find?_indicesOfAll_eq_some]
    constructor
    · rintro (hv | ⟨hv, before, w, after, rfl, hbefore, hw⟩)
      · exact ⟨[], v, vs, rfl, by simp, hv⟩
      · exact ⟨v :: before, w, after, rfl, List.forall_mem_cons.mpr ⟨hv, hbefore⟩, hw⟩
    · rintro ⟨before, w, after, hsplit, hbefore, hw⟩
      cases before with
      | nil =>
        obtain ⟨rfl, rfl⟩ := List.cons.inj hsplit
        exact .inl hw
      | cons _ before =>
        obtain ⟨rfl, rfl⟩ := List.cons.inj hsplit
        obtain ⟨hv, hbefore⟩ := List.forall_mem_cons.mp hbefore
        exact .inr ⟨hv, before, w, after, rfl, hbefore, hw⟩

end

end Value

/-! ## Parameters -/

namespace TermFunction

/-- Arguments fit a parameter list: there are no more of them than parameters, and every parameter
without an argument has a default. -/
def Fits (parameters : List (Parameter α)) (arguments : List (Value α)) : Prop :=
  arguments.length ≤ parameters.length ∧
    ∀ p ∈ parameters.drop arguments.length, p.default.isSome = true

/-- Why arguments do not fit a parameter list: there are too many, or the first parameter that has
neither an argument nor a default is missing. -/
inductive Misfits (parameters : List (Parameter α)) (arguments : List (Value α)) :
    Misbinding → Prop where
  | tooMany : parameters.length < arguments.length → Misfits parameters arguments .tooMany
  | missing {supplied rest : List (Parameter α)} {p : Parameter α} :
      parameters.drop arguments.length = supplied ++ p :: rest →
      (∀ q ∈ supplied, q.default.isSome = true) → p.default = none →
      Misfits parameters arguments (.missing (Text.quoted p.name))

theorem defaults_eq_error_iff {parameters : List (Parameter α)} {cause : Misbinding} :
    Parameter.defaults parameters = .error cause ↔ ∃ supplied p rest,
      parameters = supplied ++ p :: rest ∧ (∀ q ∈ supplied, q.default.isSome = true) ∧
        p.default = none ∧ cause = .missing (Text.quoted p.name) := by
  induction parameters with
  | nil => simp [Parameter.defaults]
  | cons p ps ih =>
    cases hdefault : p.default with
    | none =>
      simp only [Parameter.defaults, hdefault, Except.error.injEq]
      constructor
      · rintro rfl
        exact ⟨[], p, ps, rfl, by simp, hdefault, rfl⟩
      · rintro ⟨supplied, q, rest, hsplit, hsupplied, -, rfl⟩
        cases supplied with
        | nil => rw [(List.cons.inj hsplit).1]
        | cons _ supplied =>
          obtain ⟨rfl, rfl⟩ := List.cons.inj hsplit
          simp [hdefault] at hsupplied
    | some v =>
      simp only [Parameter.defaults, hdefault]
      constructor
      · intro h
        have hrest : Parameter.defaults ps = .error cause := by
          cases hps : Parameter.defaults ps <;> simp_all [Except.map]
        obtain ⟨supplied, q, rest, rfl, hsupplied, hq⟩ := ih.mp hrest
        exact ⟨p :: supplied, q, rest, rfl,
          List.forall_mem_cons.mpr ⟨by simp [hdefault], hsupplied⟩, hq⟩
      · rintro ⟨supplied, q, rest, hsplit, hsupplied, hq, hcause⟩
        cases supplied with
        | nil =>
          rw [(List.cons.inj hsplit).1, hq] at hdefault
          cases hdefault
        | cons _ supplied =>
          obtain ⟨rfl, rfl⟩ := List.cons.inj hsplit
          have hrest := ih.mpr ⟨supplied, q, rest, rfl, fun q' h => hsupplied q' (by simp [h]), hq,
            hcause⟩
          rw [hrest]
          rfl

theorem bind_eq_error_iff_misfits {parameters : List (Parameter α)} {arguments : List (Value α)}
    {cause : Misbinding} :
    bind parameters arguments = .error cause ↔ Misfits parameters arguments cause := by
  unfold bind
  split
  · next hmany =>
    constructor
    · rintro ⟨⟩
      exact .tooMany hmany
    · intro h
      cases h with
      | tooMany => rfl
      | missing hsplit _ _ =>
        rw [List.drop_eq_nil_of_le hmany.le] at hsplit
        simp at hsplit
  · next hmany =>
    have hmap : (Parameter.defaults (parameters.drop arguments.length)).map (arguments ++ ·) =
        .error cause ↔ Parameter.defaults (parameters.drop arguments.length) = .error cause := by
      cases Parameter.defaults (parameters.drop arguments.length) <;> simp [Except.map]
    rw [hmap, defaults_eq_error_iff]
    constructor
    · rintro ⟨supplied, p, rest, hsplit, hsupplied, hp, rfl⟩
      exact .missing hsplit hsupplied hp
    · intro h
      cases h with
      | tooMany h => exact absurd h hmany
      | missing hsplit hsupplied hp => exact ⟨_, _, _, hsplit, hsupplied, hp, rfl⟩

/-- Arguments that do not fit have a reason. -/
theorem not_fits_iff {parameters : List (Parameter α)} {arguments : List (Value α)} :
    ¬ Fits parameters arguments ↔ ∃ cause, Misfits parameters arguments cause := by
  constructor
  · intro h
    by_cases hmany : parameters.length < arguments.length
    · exact ⟨_, .tooMany hmany⟩
    · have hmissing : ∃ p ∈ parameters.drop arguments.length, p.default.isSome = false := by
        by_contra hnone
        refine h ⟨by omega, fun p hp => ?_⟩
        by_contra hp'
        exact hnone ⟨p, hp, by simpa using hp'⟩
      cases hfind : (parameters.drop arguments.length).find? (·.default.isNone) with
      | none =>
        obtain ⟨p, hp, hp'⟩ := hmissing
        have := List.find?_eq_none.mp hfind p hp
        simp_all
      | some p =>
        obtain ⟨hp, supplied, rest, hsplit, hsupplied⟩ := List.find?_eq_some_iff_append.mp hfind
        exact ⟨_, .missing hsplit (by simpa [Option.isSome_iff_ne_none] using hsupplied)
          (by simpa using hp)⟩
  · rintro ⟨cause, hcause⟩ ⟨hlength, hdefaults⟩
    cases hcause with
    | tooMany h => omega
    | @missing supplied rest p hsplit _ hp =>
      have hdefault := hdefaults p (by rw [hsplit]; simp)
      rw [hp] at hdefault
      cases hdefault

end TermFunction

/-! ## Terms -/

namespace Term

/-- A term cannot be resolved: its function is unknown, it refers to a variable that does not exist, or
its arguments do not fit its function. -/
def Unresolvable (functions : Dictionary α) (count : Int) (t : Term α) : Prop :=
  functions.lookup t.name = none ∨
    (∃ i, (Value.list t.arguments).Mentions i ∧ ¬ InRange count i) ∨
    ∃ f, functions.lookup t.name = some f ∧ ¬ TermFunction.Fits f.parameters t.arguments

variable {t : Term α} {kind : TermKind} {functions : Dictionary α} {count : Int} {cause : Fault}

theorem find?_outside (t : Term α) (count : Int) :
    (t.indices.find? fun i => i < 0 || count ≤ i) =
      (Value.list t.arguments).indices.find? (¬ InRange count ·) := by
  refine congrArg (fun p => t.indices.find? p) (funext fun i => ?_)
  rw [Bool.eq_iff_iff, Bool.or_eq_true, decide_eq_true_eq, decide_eq_true_eq, decide_eq_true_eq]
  unfold InRange
  omega

variable [Scalar α]

/-- What a term fails with that cannot be resolved. An unknown function comes before a variable that
does not exist, and that before arguments that do not fit. -/
inductive Unresolved (kind : TermKind) (functions : Dictionary α) (count : Int) (t : Term α) :
    Fault → Prop where
  | unknown : functions.lookup t.name = none →
      Unresolved kind functions count t (.unresolved kind t.name)
  | outside {f : TermFunction α} {i : Int} : functions.lookup t.name = some f →
      (Value.list t.arguments).FirstOutside count i →
      Unresolved kind functions count t (.variableOutside kind t.text i count)
  | misfit {f : TermFunction α} {cause : Misbinding} : functions.lookup t.name = some f →
      (∀ i, (Value.list t.arguments).Mentions i → InRange count i) →
      TermFunction.Misfits f.parameters t.arguments cause →
      Unresolved kind functions count t (.badArity kind t.text cause)

theorem resolve_eq_error_iff :
    t.resolve kind functions count = .error cause ↔ t.Unresolved kind functions count cause := by
  unfold resolve
  rw [find?_outside]
  split
  · next hname =>
    constructor
    · rintro ⟨⟩
      exact .unknown hname
    · rintro (_ | ⟨hf, _⟩ | ⟨hf, _⟩)
      · rfl
      · cases hname.symm.trans hf
      · cases hname.symm.trans hf
  · next f hf =>
    split
    · next i hi =>
      have houtside := Value.find?_indices_eq_some.mp hi
      constructor
      · rintro ⟨⟩
        exact .outside hf houtside
      · rintro (hname | ⟨_, hi'⟩ | ⟨_, hrange, _⟩)
        · cases hname.symm.trans hf
        · cases hi.symm.trans (Value.find?_indices_eq_some.mpr hi')
          rfl
        · cases hi.symm.trans (Value.find?_indices_eq_none.mpr hrange)
    · next hnone =>
      have hrange := Value.find?_indices_eq_none.mp hnone
      constructor
      · intro h
        split at h
        · next hbind =>
          cases h
          exact .misfit hf hrange (TermFunction.bind_eq_error_iff_misfits.mp hbind)
        · cases h
      · rintro (hname | ⟨_, hi⟩ | ⟨hf', _, hmisfits⟩)
        · cases hname.symm.trans hf
        · cases hnone.symm.trans (Value.find?_indices_eq_some.mpr hi)
        · cases hf.symm.trans hf'
          rw [TermFunction.bind_eq_error_iff_misfits.mpr hmisfits]

/-- The terms that fail are those that cannot be resolved. -/
theorem unresolvable_iff (kind : TermKind) :
    t.Unresolvable functions count ↔ ∃ cause, t.Unresolved kind functions count cause := by
  constructor
  · intro h
    cases hname : functions.lookup t.name with
    | none => exact ⟨_, .unknown hname⟩
    | some f =>
      cases hfirst : (Value.list t.arguments).indices.find? (¬ InRange count ·) with
      | some i => exact ⟨_, .outside hname (Value.find?_indices_eq_some.mp hfirst)⟩
      | none =>
        have hrange := Value.find?_indices_eq_none.mp hfirst
        rcases h with hnone | ⟨i, hi, houtside⟩ | ⟨f', hf', hfits⟩
        · cases hname.symm.trans hnone
        · exact absurd (hrange i hi) houtside
        · cases hname.symm.trans hf'
          obtain ⟨cause, hcause⟩ := TermFunction.not_fits_iff.mp hfits
          exact ⟨_, .misfit hname hrange hcause⟩
  · rintro ⟨cause, hname | ⟨_, hi⟩ | ⟨hf, _, hmisfits⟩⟩
    · exact .inl hname
    · have hsome := Value.find?_indices_eq_some.mpr hi
      have hmem := Value.mem_indices_iff.mp (List.mem_of_find?_eq_some hsome)
      exact .inr (.inl ⟨_, hmem, by simpa using List.find?_some hsome⟩)
    · exact .inr (.inr ⟨_, hf, TermFunction.not_fits_iff.mpr ⟨_, hmisfits⟩⟩)

theorem resolve_eq_ok_iff : (∃ r, t.resolve kind functions count = .ok r) ↔
    ¬ t.Unresolvable functions count := by
  rw [unresolvable_iff kind]
  simp only [← resolve_eq_error_iff]
  cases t.resolve kind functions count <;> simp

end Term

/-! ## Problems -/

variable [Scalar α]

namespace Problem

variable {p : Problem α} {library : Library α} {cause : Fault}

/-- A problem has a term that cannot be resolved. -/
def Unresolvable (p : Problem α) (library : Library α) : Prop :=
  (∃ t ∈ p.objectives, t.Unresolvable library.objectives p.count) ∨
    ∃ t ∈ p.constraints, t.Unresolvable library.constraints p.count

/-- What the first term of a problem fails with that cannot be resolved, the objectives before the
constraints. -/
inductive Unresolved (p : Problem α) (library : Library α) : Fault → Prop where
  | objective {before after : List (Term α)} {t : Term α} {cause : Fault} :
      p.objectives = before ++ t :: after →
      (∀ t' ∈ before, ¬ t'.Unresolvable library.objectives p.count) →
      t.Unresolved .objective library.objectives p.count cause → Unresolved p library cause
  | constraint {before after : List (Term α)} {t : Term α} {cause : Fault} :
      (∀ t' ∈ p.objectives, ¬ t'.Unresolvable library.objectives p.count) →
      p.constraints = before ++ t :: after →
      (∀ t' ∈ before, ¬ t'.Unresolvable library.constraints p.count) →
      t.Unresolved .constraint library.constraints p.count cause → Unresolved p library cause

theorem resolve_eq_error_iff : p.resolve library = .error cause ↔ p.Unresolved library cause := by
  have hobjectives : (∃ rs, p.objectives.mapM
      (fun t => t.resolve .objective library.objectives p.count) = .ok rs) ↔
        ∀ t ∈ p.objectives, ¬ t.Unresolvable library.objectives p.count := by
    simp only [exists_mapM_eq_ok_iff, Term.resolve_eq_ok_iff]
  unfold resolve
  rw [bind_eq_error_iff, mapM_eq_error_iff]
  simp only [Term.resolve_eq_ok_iff, Term.resolve_eq_error_iff]
  constructor
  · rintro (⟨before, t, after, hsplit, hbefore, ht⟩ | ⟨rs, hrs, h⟩)
    · exact .objective hsplit hbefore ht
    · have hconstraints := (bind_eq_error_iff_of_ok fun _ => ⟨_, rfl⟩).mp h
      obtain ⟨before, t, after, hsplit, hbefore, ht⟩ := mapM_eq_error_iff.mp hconstraints
      simp only [Term.resolve_eq_ok_iff, Term.resolve_eq_error_iff] at hbefore ht
      exact .constraint (hobjectives.mp ⟨rs, hrs⟩) hsplit hbefore ht
  · intro h
    cases h with
    | objective hsplit hbefore ht => exact .inl ⟨_, _, _, hsplit, hbefore, ht⟩
    | constraint hall hsplit hbefore ht =>
      obtain ⟨rs, hrs⟩ := hobjectives.mpr hall
      refine .inr ⟨rs, hrs, (bind_eq_error_iff_of_ok fun _ => ⟨_, rfl⟩).mpr ?_⟩
      refine mapM_eq_error_iff.mpr ⟨_, _, _, hsplit, ?_, Term.resolve_eq_error_iff.mpr ht⟩
      simpa only [Term.resolve_eq_ok_iff] using hbefore

/-- A problem is refused before anything is built exactly if it has a term that cannot be resolved. -/
theorem unresolvable_iff : p.Unresolvable library ↔ ∃ cause, p.resolve library = .error cause := by
  constructor
  · intro h
    cases hresolve : p.resolve library with
    | error cause => exact ⟨cause, rfl⟩
    | ok resolved =>
      obtain ⟨hobjectives, hconstraints⟩ := resolve_eq_ok hresolve
      rcases h with ⟨t, ht, h⟩ | ⟨t, ht, h⟩
      · obtain ⟨r, _, hr⟩ := exists_left_of_forall₂ hobjectives.flip ht
        exact absurd h (Term.resolve_eq_ok_iff.mp ⟨r, hr⟩)
      · obtain ⟨r, _, hr⟩ := exists_left_of_forall₂ hconstraints.flip ht
        exact absurd h (Term.resolve_eq_ok_iff.mp ⟨r, hr⟩)
  · rintro ⟨cause, h⟩
    cases resolve_eq_error_iff.mp h with
    | @objective _ _ t _ hsplit _ ht =>
      exact .inl ⟨t, by simp [hsplit], (Term.unresolvable_iff _).mpr ⟨_, ht⟩⟩
    | @constraint _ _ t _ _ hsplit _ ht =>
      exact .inr ⟨t, by simp [hsplit], (Term.unresolvable_iff _).mpr ⟨_, ht⟩⟩

end Problem

/-! ## Faults of building -/

/-- A fault of resolving a term. -/
def Fault.isUnresolved : Fault → Bool
  | .unresolved .. | .variableOutside .. | .badArity .. => true
  | _ => false

namespace Value

theorem liftFault?_not_unresolved {number : Nat} {v : Value α} {cause : Fault}
    (h : v.liftFault? number = some cause) : cause.isUnresolved = false := by
  cases v with
  | number _ | truth _ | list _ => cases h
  | text _ | absent | varying _ =>
    cases h
    rfl
  | integer n =>
    rw [liftFault?] at h
    split at h <;> cases h
    rfl
  | handle target =>
    rw [liftFault?] at h
    split at h <;> cases h
    rfl

theorem bindFault?_not_unresolved {number : Nat} {v : Value α} {cause : Fault}
    (h : v.bindFault? number = some cause) : cause.isUnresolved = false := by
  cases v with
  | number _ | integer _ | list _ | handle _ =>
    simp only [bindFault?] at h
    exact liftFault?_not_unresolved h
  | text _ | truth _ | absent =>
    cases h
    rfl
  | varying i =>
    rw [bindFault?] at h
    split at h <;> cases h
    rfl

end Value

namespace ResolvedTerm

variable {t : ResolvedTerm α} {g : Graph α} {cause : Fault}

/-- Building a term fails with no fault of resolving, whatever its function fails with. -/
theorem record_not_unresolved (h : t.record.fault? g = some cause) : cause.isUnresolved = false := by
  rw [record_eq, Recording.fault?_bind_eq_some_iff, Graph.bindArguments_fault?] at h
  rcases h with harguments | ⟨ws, g₁, _, h⟩
  · obtain ⟨v, _, hv⟩ := List.exists_of_findSome?_eq_some harguments
    exact Value.bindFault?_not_unresolved hv
  rcases Recording.fault?_bind_eq_some_iff.mp h with hcall | ⟨v, g₂, _, hresult⟩
  · rcases hr : (t.function.call ws).record.on g₁ with ⟨outcome, g₂⟩
    cases outcome with
    | ok v =>
      rw [Recording.fault?_of_ok ((Recording.on_building_eq_ok_iff _).mpr hr)] at hcall
      cases hcall
    | error e =>
      rw [Recording.fault?_of_error (Recording.on_building_of_error _ hr)] at hcall
      cases hcall
      split <;> rfl
  · cases hlist : v.isList with
    | true =>
      rw [hlist] at hresult
      cases hresult
      rfl
    | false =>
      rw [hlist, if_neg Bool.false_ne_true, Graph.lift_fault? hlist] at hresult
      exact Value.liftFault?_not_unresolved hresult

theorem node_not_unresolved (h : t.record.node.fault? g = some cause) : cause.isUnresolved = false := by
  rcases Recording.fault?_bind_eq_some_iff.mp h with h | ⟨v, g', _, h⟩
  · exact record_not_unresolved h
  · cases v <;> cases h
    all_goals rfl

end ResolvedTerm

namespace Problem

variable {p : Problem α} {library : Library α} {scale : α} {cause : Fault}

theorem compile_of_unresolved (hcount : 0 ≤ p.count) (hscale : Scalar.less 0.0 scale = true)
    (penalty : TermFunction α) (h : p.resolve library = .error cause) :
    Energy.compile p library scale penalty = .error cause ∧ p.compileTerms library = .error cause := by
  have hcount' : require (0 ≤ p.count) .variableCount = .ok () := require_eq_ok_iff.mpr (by simpa)
  have hscale' : require (Scalar.less 0.0 scale) .constraintScale = .ok () :=
    require_eq_ok_iff.mpr hscale
  constructor
  · simp only [Energy.compile, hcount', hscale', ok_bind, h]
    rfl
  · rw [compileTerms, h]
    rfl

/-- Where every term can be resolved, the energy fails with no fault of resolving. -/
theorem compile_not_unresolved (hcount : 0 ≤ p.count) (hscale : Scalar.less 0.0 scale = true)
    (hresolvable : ¬ p.Unresolvable library)
    (h : Energy.compile p library scale Energy.defaultPenalty = .error cause) :
    cause.isUnresolved = false := by
  have hcount' : require (0 ≤ p.count) .variableCount = .ok () := require_eq_ok_iff.mpr (by simpa)
  have hscale' : require (Scalar.less 0.0 scale) .constraintScale = .ok () :=
    require_eq_ok_iff.mpr hscale
  simp only [Energy.compile, hcount', hscale', ok_bind] at h
  rcases bind_eq_error_iff.mp h with h | ⟨⟨objectives, constraints⟩, _, h⟩
  · exact absurd (unresolvable_iff.mpr ⟨cause, h⟩) hresolvable
  · have hbuild := Recording.fault?_eq_some_iff.mpr ((bind_eq_error_iff_of_ok fun _ => ⟨_, rfl⟩).mp h)
    obtain ⟨t, g, _, hfault⟩ := Energy.build_fault?_iff.mp hbuild
    exact ResolvedTerm.record_not_unresolved hfault

/-- Where every term can be resolved, the report fails with no fault of resolving. -/
theorem compileTerms_not_unresolved (hresolvable : ¬ p.Unresolvable library)
    (h : p.compileTerms library = .error cause) : cause.isUnresolved = false := by
  have hentry {kind : TermKind} {terms : List (ResolvedTerm α)}
      (h : terms.mapM (TermEnergy.entry kind) = .error cause) : cause.isUnresolved = false := by
    obtain ⟨_, t, _, _, _, ht⟩ := mapM_eq_error_iff.mp h
    have hcompile := (bind_eq_error_iff_of_ok fun _ => ⟨_, rfl⟩).mp ht
    have hnode := (bind_eq_error_iff_of_ok fun _ => ⟨_, rfl⟩).mp hcompile
    exact ResolvedTerm.node_not_unresolved (Recording.fault?_eq_some_iff.mpr hnode)
  rcases bind_eq_error_iff.mp h with h | ⟨⟨objectives, constraints⟩, _, h⟩
  · exact absurd (unresolvable_iff.mpr ⟨cause, h⟩) hresolvable
  rcases bind_eq_error_iff.mp h with h | ⟨_, _, h⟩
  · exact hentry h
  · exact hentry ((bind_eq_error_iff_of_ok fun _ => ⟨_, rfl⟩).mp h)

end Problem

/-- The target of the objective is a text, the center of the first circle refers to a variable that does
not exist, the second circle has no radius, and the last constraint is unknown. -/
def strayCenter : Problem Float where
  objectives := [⟨"equal", [.varying 0, .text "left"], .objective⟩]
  constraints := [⟨"disjoint", [.list [.varying 0, .varying 5], .varying 1, .varying 1], .constraint⟩,
    ⟨"overlapping", [.varying 0], .constraint⟩]
  count := 2

end DiagramLayout
