import DiagramLayout.Energy.Compile
import DiagramLayout.Formula.Call
import DiagramLayout.Proofs.Formula.Uniform

namespace DiagramLayout

variable {α : Type} {k : Counterpart} {R : Correspondence α}

open Formula Value

namespace Body

/-- Values under the same names, which agree. -/
abbrev EnvironmentAgrees (k : Counterpart) (R : Correspondence α) :
    List (String × Value α) → List (String × Value α) → Prop :=
  List.Forall₂ fun p q => p.1 = q.1 ∧ Value.Agrees k R p.2 q.2

theorem EnvironmentAgrees.mono {S : Correspondence α} (le : R ≤ S)
    {values values' : List (String × Value α)} (h : EnvironmentAgrees k R values values') :
    EnvironmentAgrees k S values values' :=
  h.imp fun _ _ h => ⟨h.1, h.2.mono le⟩

theorem EnvironmentAgrees.lookup {values values' : List (String × Value α)}
    (h : EnvironmentAgrees k R values values') (name : String) :
    (∃ v w, values.lookup name = some v ∧ values'.lookup name = some w ∧ Value.Agrees k R v w) ∨
      (values.lookup name = none ∧ values'.lookup name = none) := by
  induction h with
  | nil => exact .inr ⟨rfl, rfl⟩
  | @cons p q _ _ hpq _ ih =>
    obtain ⟨key, v⟩ := p
    obtain ⟨key', w⟩ := q
    obtain ⟨rfl, hvw⟩ : key = key' ∧ Value.Agrees k R v w := hpq
    by_cases hkey : name = key
    · exact .inl ⟨v, w, by simp [hkey], by simp [hkey], hvw⟩
    · simpa [List.lookup_cons, beq_false_of_ne hkey] using ih

end Body

variable [Scalar α]

theorem VectorFunction.call_agrees (f : VectorFunction) {vs ws : List (Value α)}
    (hs : AgreeAll k R vs ws) : ValueAgrees k R (f.call vs) (f.call ws) := by
  rcases hs with _ | ⟨ha, _ | ⟨hb, _ | _⟩⟩
  · cases f <;> exact .fault _
  · cases f with
    | sum => exact vectorSum_agrees ha
    | normSquared => exact normSquared_agrees ha
    | norm => exact norm_agrees ha
    | normalize => exact normalize_agrees ha
    | quarterTurn => exact quarterTurn_agrees ha
    | _ => exact .fault _
  · cases f with
    | add => exact addVectors_agrees ha hb
    | sub => exact subVectors_agrees ha hb
    | scale => exact scaleVector_agrees ha hb
    | dot => exact dotProduct_agrees ha hb
    | distance => exact distance_agrees ha hb
    | _ => exact .fault _
  · cases f <;> exact .fault _

/-- A call treats handles alike; a power only where handles stand for handles. -/
theorem Function.call_agrees (f : Function) (hpower : k = .number → f ≠ .power)
    {vs ws : List (Value α)} (hs : AgreeAll k R vs ws) :
    ValueAgrees k R (f.call vs) (f.call ws) := by
  cases f with
  | operation op =>
    simp only [call, hs.length_eq]
    split
    · next h => exact .apply (by simp [Op.Takes, h, hs.length_eq]) hs
    · exact .fault _
  | total =>
    rcases hs with _ | ⟨h, _ | _⟩
    case cons.nil => exact (itemsOf_agrees h).bind fun _ _ _ _ hs => total_agrees hs
    all_goals exact .fault _
  | vector f => exact f.call_agrees hs
  | power =>
    cases k with
    | number => exact absurd rfl (hpower rfl)
    | handle =>
      rcases hs with _ | ⟨hb, _ | ⟨he, _ | _⟩⟩
      case cons.cons.nil => exact power_agrees hb he
      all_goals exact .fault _
  | penalty =>
    rcases hs with _ | ⟨h, _ | _⟩
    case cons.nil => exact penalty_agrees h
    all_goals exact .fault _
  | objective o => exact o.call_agrees hs
  | constraint c => exact c.call_agrees hs

namespace Body

mutual

/-- Whether a body calls only allowed functions and no handle occurs in its constants. -/
def isComposed (allowed : Function → Bool) : Body α → Bool
  | constant v => v.isPlain
  | parameter _ => true
  | list bs => areComposed allowed bs
  | item b _ => isComposed allowed b
  | call f arguments => allowed f && areComposed allowed arguments

/-- Whether several bodies call only allowed functions and hold no handle. -/
def areComposed (allowed : Function → Bool) : List (Body α) → Bool
  | [] => true
  | b :: bs => isComposed allowed b && areComposed allowed bs

end

mutual

/-- A body treats handles alike, by induction over it. -/
theorem formula_agrees {allowed : Function → Bool}
    (hpower : k = .number → allowed .power = false) {R : Correspondence α}
    {values values' : List (String × Value α)} (henv : EnvironmentAgrees k R values values') :
    ∀ b : Body α, b.isComposed allowed = true →
      ValueAgrees k R (b.formula values) (b.formula values')
  | constant v, h => .done (.of_isPlain h)
  | parameter name, _ => by
    unfold formula
    rcases henv.lookup name with ⟨v, w, hv, hw, hvw⟩ | ⟨hv, hw⟩
    · rw [hv, hw]; exact .done hvw
    · rw [hv, hw]; exact .fault _
  | list bs, h => by
    unfold formula
    exact (formulas_agree hpower henv bs h).bind fun _ _ _ _ hs => .done (.list hs)
  | item b position, h => by
    unfold formula
    exact (formula_agrees hpower henv b h).bind fun _ _ _ _ h => .ofExcept (h.item position)
  | call f arguments, h => by
    obtain ⟨hf, harguments⟩ := Bool.and_eq_true_iff.mp h
    unfold formula
    refine (formulas_agree hpower henv arguments harguments).bind ?_
    intro S vs ws _ hs
    refine f.call_agrees (fun hk hfp => ?_) hs
    rw [hfp, hpower hk] at hf
    cases hf

theorem formulas_agree {allowed : Function → Bool}
    (hpower : k = .number → allowed .power = false) {R : Correspondence α}
    {values values' : List (String × Value α)} (henv : EnvironmentAgrees k R values values') :
    ∀ bs : List (Body α), areComposed allowed bs = true →
      Formula.Agrees k (AgreeAll k) R (formulas values bs) (formulas values' bs)
  | [], _ => .done .nil
  | b :: bs, h => by
    obtain ⟨hb, hbs⟩ := Bool.and_eq_true_iff.mp h
    unfold formulas
    refine (formula_agrees hpower henv b hb).bind ?_
    intro S v w le hvw
    refine (formulas_agree hpower (henv.mono le) bs hbs).bind ?_
    intro T vs ws le' hs
    exact .done (.cons (hvw.mono le') hs)

end

end Body

/-- A function of the catalog, the penalty, or a function whose body is made of allowed calls. -/
inductive TermFunction.Composed (allowed : Function → Bool) : TermFunction α → Prop where
  | objective (o : Objective) : Composed allowed o.function
  | constraint (c : Constraint) : Composed allowed c.function
  | penalty : Composed allowed Energy.defaultPenalty
  | body (parameters : List (Parameter α)) (b : Body α) :
      parameters.all Parameter.hasPlainDefault = true → b.isComposed allowed = true →
      Composed allowed (b.toFunction parameters)

theorem TermFunction.Composed.call_agrees {allowed : Function → Bool} {f : TermFunction α}
    (h : f.Composed allowed) (hpower : k = .number → allowed .power = false)
    {vs ws : List (Value α)} (hs : AgreeAll k R vs ws) :
    ValueAgrees k R (f.call vs) (f.call ws) := by
  cases h with
  | objective o => exact o.call_agrees hs
  | constraint c => exact c.call_agrees hs
  | penalty =>
    refine call_agrees_of_body rfl (fun {vs ws} hs => ?_) hs
    rcases hs with _ | ⟨hc, _ | _⟩
    case cons.nil => exact penalty_agrees hc
    all_goals exact .fault _
  | body parameters b plain hb =>
    refine call_agrees_of_body plain (fun {vs ws} hs => Body.formula_agrees hpower ?_ b hb) hs
    generalize parameters.map (·.name) = names
    clear hpower plain
    induction hs generalizing names with
    | nil => simp
    | cons h _ ih =>
      cases names with
      | nil => exact .nil
      | cons name names => exact .cons ⟨rfl, h⟩ (ih names)

/-- Every function of a library is composed of allowed functions. -/
def Library.Composed (allowed : Function → Bool) (library : Library α) : Prop :=
  (∀ entry ∈ library.objectives, entry.2.Composed allowed) ∧
    ∀ entry ∈ library.constraints, entry.2.Composed allowed

end DiagramLayout
