import DiagramLayout.Formula.Call

/-!
# Formulas on numbers

What is called with numbers and nested lists of numbers asks for operations on such values only,
and ends with one. A text could be read as a number, but none ever turns up.
-/

namespace DiagramLayout

variable {α β γ δ : Type}

/-! ## Values -/

/-- A number or a nested list of numbers. -/
inductive Value.IsNumeric : Value α → Prop where
  | number (x : α) : IsNumeric (.number x)
  | list {vs : List (Value α)} : (∀ v ∈ vs, IsNumeric v) → IsNumeric (.list vs)

/-- Each of the values is a number or a nested list of numbers. -/
def Value.AreNumeric (vs : List (Value α)) : Prop := ∀ v ∈ vs, v.IsNumeric

namespace Value

@[simp] theorem isNumeric_number (x : α) : (number x).IsNumeric := .number x

@[simp] theorem isNumeric_list {vs : List (Value α)} : (list vs).IsNumeric ↔ AreNumeric vs :=
  ⟨fun | .list h => h, .list⟩

@[simp] theorem areNumeric_nil : AreNumeric ([] : List (Value α)) := by simp [AreNumeric]

@[simp] theorem areNumeric_cons {v : Value α} {vs : List (Value α)} :
    AreNumeric (v :: vs) ↔ v.IsNumeric ∧ AreNumeric vs := List.forall_mem_cons

theorem IsNumeric.items {v : Value α} (h : v.IsNumeric) {vs : List (Value α)}
    (hitems : v.items = .ok vs) : AreNumeric vs := by
  cases h with
  | number x => cases hitems
  | list h => cases hitems; exact h

theorem IsNumeric.item {v w : Value α} (h : v.IsNumeric) {position : Int}
    (hitem : v.item position = .ok w) : w.IsNumeric := by
  cases h with
  | number x => cases hitem
  | @list vs h =>
    simp only [Value.item, Value.items, bind, Except.bind, pure, Except.pure, throw,
      throwThe, MonadExceptOf.throw] at hitem
    generalize (if position < 0 then _ else position) = i at hitem
    by_cases hi : i < 0
    · simp [hi] at hitem
    · simp only [hi, ↓reduceIte] at hitem
      split at hitem
      · next hw => cases hitem; exact h _ (List.mem_of_getElem? hw)
      · cases hitem

theorem IsNumeric.eq_number [Scalar α] {v : Value α} (h : v.IsNumeric) {x : α}
    (hx : v.toNumber = .ok x) : v = .number x := by
  cases h with
  | number y => cases hx; rfl
  | list _ => cases hx

end Value

/-! ## Formulas -/

namespace Formula

open Value

/-- Whatever numbers its operations give, a formula asks for operations on numeric values only, and
a result has the property `P`. -/
def Numeric (P : β → Prop) : Formula α β → Prop
  | done b => P b
  | fault _ => True
  | operate _ operands next => AreNumeric operands ∧ ∀ x, Numeric P (next (.number x))

variable {P Q : β → Prop}

@[simp] theorem numeric_pure (b : β) : (pure b : Formula α β).Numeric P ↔ P b := Iff.rfl

@[simp] theorem numeric_bind {m : Formula α β} {f : β → Formula α γ} {P : γ → Prop} :
    (m >>= f).Numeric P ↔ m.Numeric fun b => (f b).Numeric P := by
  change (m.bind f).Numeric P ↔ _
  induction m with
  | done b => rfl
  | fault e => rfl
  | operate op operands next ih => simp only [bind, Numeric, ih]

@[simp] theorem numeric_apply (op : Op) (vs : List (Value α)) {P : Value α → Prop} :
    (apply op vs).Numeric P ↔ AreNumeric vs ∧ ∀ x, P (.number x) := Iff.rfl

theorem Numeric.mono {m : Formula α β} (h : m.Numeric P) (weaker : ∀ b, P b → Q b) :
    m.Numeric Q := by
  induction m with
  | done b => exact weaker b h
  | fault e => trivial
  | operate op operands next ih => exact ⟨h.1, fun x => ih _ (h.2 x)⟩

theorem numeric_ofExcept {r : Except Fault β} (h : ∀ b, r = .ok b → P b) :
    (ofExcept r : Formula α β).Numeric P := by
  cases r with
  | ok b => exact h b rfl
  | error e => trivial

theorem numeric_itemsOf {v : Value α} {P : List (Value α) → Prop} (hv : v.IsNumeric)
    (h : ∀ vs, AreNumeric vs → P vs) : (itemsOf v).Numeric P :=
  numeric_ofExcept fun vs hvs => h vs (hv.items hvs)

/-- One operation for each element of a list. -/
theorem numeric_mapM (op : Op) {f : δ → List (Value α)} {ds : List δ}
    {P : List (Value α) → Prop} (hf : ∀ d ∈ ds, AreNumeric (f d)) (h : ∀ vs, AreNumeric vs → P vs) :
    (ds.mapM fun d => apply op (f d)).Numeric P := by
  induction ds generalizing P with
  | nil => exact h [] areNumeric_nil
  | cons d ds ih =>
    obtain ⟨hd, hds⟩ := List.forall_mem_cons.mp hf
    simp only [List.mapM_cons, numeric_bind, numeric_apply, numeric_pure]
    exact ⟨hd, fun x => ih hds fun vs hvs => h _ (by simp [hvs])⟩

theorem numeric_pairsOf {u v : Value α} {P : List (Value α × Value α) → Prop} (hu : u.IsNumeric)
    (hv : v.IsNumeric) (h : ∀ ps : List (Value α × Value α),
      (∀ p ∈ ps, AreNumeric [p.1, p.2]) → P ps) : (pairsOf u v).Numeric P := by
  simp only [pairsOf, numeric_bind, numeric_pure]
  refine numeric_itemsOf hu fun us hus => numeric_itemsOf hv fun vs hvs => ?_
  refine numeric_ofExcept fun _ _ => h _ fun p hp => ?_
  obtain ⟨hp₁, hp₂⟩ := List.of_mem_zip hp
  simp [hus _ hp₁, hvs _ hp₂]

/-! ## Vectors -/

theorem addVectors_numeric {u v : Value α} (hu : u.IsNumeric) (hv : v.IsNumeric) :
    (addVectors u v).Numeric IsNumeric :=
  numeric_bind.mpr <| numeric_pairsOf hu hv fun _ hps =>
    numeric_bind.mpr <| numeric_mapM .add hps fun _ => .list

theorem subVectors_numeric {u v : Value α} (hu : u.IsNumeric) (hv : v.IsNumeric) :
    (subVectors u v).Numeric IsNumeric :=
  numeric_bind.mpr <| numeric_pairsOf hu hv fun _ hps =>
    numeric_bind.mpr <| numeric_mapM .sub hps fun _ => .list

theorem scaleVector_numeric {c v : Value α} (hc : c.IsNumeric) (hv : v.IsNumeric) :
    (scaleVector c v).Numeric IsNumeric :=
  numeric_bind.mpr <| numeric_itemsOf hv fun _ hvs =>
    numeric_bind.mpr <| numeric_mapM .mul (fun a ha => by simp [hc, hvs a ha]) fun _ => .list

theorem quarterTurn_numeric {v : Value α} (hv : v.IsNumeric) :
    (quarterTurn v).Numeric IsNumeric := by
  refine numeric_bind.mpr (numeric_itemsOf hv fun vs hvs => ?_)
  rcases vs with _ | ⟨a, _ | ⟨b, _ | _⟩⟩
  case cons.cons.nil =>
    simp only [areNumeric_cons] at hvs
    exact numeric_bind.mpr ⟨by simp [hvs], fun x => isNumeric_list.mpr (by simp [hvs])⟩
  all_goals trivial

variable [Scalar α]

theorem total_numeric {vs : List (Value α)} (h : AreNumeric vs) :
    (total vs).Numeric IsNumeric := by
  rcases vs with _ | ⟨v, _ | ⟨w, vs⟩⟩
  · exact .number _
  · exact h v List.mem_cons_self
  · exact ⟨h, .number⟩

theorem vectorSum_numeric {v : Value α} (hv : v.IsNumeric) :
    (vectorSum v).Numeric IsNumeric :=
  numeric_bind.mpr (numeric_itemsOf hv fun _ => total_numeric)

theorem dotProduct_numeric {u v : Value α} (hu : u.IsNumeric) (hv : v.IsNumeric) :
    (dotProduct u v).Numeric IsNumeric :=
  numeric_bind.mpr <| numeric_pairsOf hu hv fun _ hps =>
    numeric_bind.mpr <| numeric_mapM .mul hps fun _ => total_numeric

theorem normSquared_numeric {v : Value α} (hv : v.IsNumeric) :
    (normSquared v).Numeric IsNumeric :=
  numeric_bind.mpr <| numeric_itemsOf hv fun _ hvs =>
    numeric_bind.mpr <| numeric_mapM .square (fun a ha => by simp [hvs a ha]) fun _ =>
      total_numeric

theorem norm_numeric {v : Value α} (hv : v.IsNumeric) : (norm v).Numeric IsNumeric :=
  numeric_bind.mpr <| (normSquared_numeric hv).mono fun _ hn => by simp [hn]

theorem distance_numeric {u v : Value α} (hu : u.IsNumeric) (hv : v.IsNumeric) :
    (distance u v).Numeric IsNumeric :=
  numeric_bind.mpr <| (subVectors_numeric hu hv).mono fun _ => norm_numeric

theorem normalize_numeric {v : Value α} (hv : v.IsNumeric) :
    (normalize v).Numeric IsNumeric := by
  simp only [normalize, numeric_bind, numeric_apply, numeric_pure]
  refine (norm_numeric hv).mono fun n hn => ⟨by simp [hn], fun x => ?_⟩
  exact numeric_itemsOf hv fun vs hvs =>
    numeric_mapM .div (fun a ha => by simp [hvs a ha]) fun _ => .list

end Formula

/-! ## Calls -/

open Formula Value

variable [Scalar α]

theorem VectorFunction.call_numeric (f : VectorFunction) {vs : List (Value α)}
    (h : AreNumeric vs) : (f.call vs).Numeric IsNumeric := by
  rcases vs with _ | ⟨u, _ | ⟨v, _ | _⟩⟩
  · cases f <;> trivial
  · have hu := h u List.mem_cons_self
    cases f with
    | sum => exact vectorSum_numeric hu
    | normSquared => exact normSquared_numeric hu
    | norm => exact norm_numeric hu
    | normalize => exact normalize_numeric hu
    | quarterTurn => exact quarterTurn_numeric hu
    | _ => trivial
  · have hu := h u List.mem_cons_self
    have hv := h v (by simp)
    cases f with
    | add => exact addVectors_numeric hu hv
    | sub => exact subVectors_numeric hu hv
    | scale => exact scaleVector_numeric hu hv
    | dot => exact dotProduct_numeric hu hv
    | distance => exact distance_numeric hu hv
    | _ => trivial
  · cases f <;> trivial

/-- Whether a parameter has a number as its default, or none. -/
def Parameter.hasNumberDefault (q : Parameter α) : Bool :=
  match q.default with
  | none | some (.number _) => true
  | _ => false

omit [Scalar α] in
theorem Parameter.areNumeric_defaults {parameters : List (Parameter α)} {vs : List (Value α)}
    (h : parameters.all hasNumberDefault = true) (hvs : defaults parameters = .ok vs) :
    AreNumeric vs := by
  induction parameters generalizing vs with
  | nil => cases hvs; exact areNumeric_nil
  | cons q qs ih =>
    obtain ⟨hq, hqs⟩ : q.hasNumberDefault = true ∧ qs.all hasNumberDefault = true := by
      simpa using h
    unfold defaults at hvs
    split at hvs
    · next v hv =>
      cases hrest : defaults qs with
      | error e => rw [hrest] at hvs; cases hvs
      | ok rest =>
        rw [hrest] at hvs
        cases hvs
        have hnumber : v.IsNumeric := by
          unfold hasNumberDefault at hq
          rw [hv] at hq
          cases v with
          | number x => exact .number x
          | _ => cases hq
        exact areNumeric_cons.mpr ⟨hnumber, ih hqs hrest⟩
    · cases hvs

omit [Scalar α] in
/-- A call asks for what the body asks for, as defaults fill the parameters without an argument. -/
theorem TermFunction.call_numeric_of_body {f : TermFunction α}
    (defaults : f.parameters.all Parameter.hasNumberDefault = true) {P : Value α → Prop}
    (body : ∀ vs, AreNumeric vs → (f.body vs).Numeric P) {vs : List (Value α)}
    (h : AreNumeric vs) : (f.call vs).Numeric P := by
  unfold call
  split
  · next values hvalues =>
    unfold bind at hvalues
    split at hvalues
    · cases hvalues
    · cases hrest : Parameter.defaults (f.parameters.drop vs.length) with
      | error cause => rw [hrest] at hvalues; cases hvalues
      | ok rest =>
        rw [hrest] at hvalues
        cases hvalues
        have hdrop : (f.parameters.drop vs.length).all Parameter.hasNumberDefault = true :=
          List.all_eq_true.mpr fun q hq =>
            List.all_eq_true.mp defaults q (List.mem_of_mem_drop hq)
        exact body _ (List.forall_mem_append.mpr ⟨h, Parameter.areNumeric_defaults hdrop hrest⟩)
  · trivial

theorem penalty_numeric {c : Value α} (hc : c.IsNumeric) : (penalty c).Numeric IsNumeric := by
  simp [penalty, hc]

theorem distanceSquared_numeric {u v : Value α} (hu : u.IsNumeric) (hv : v.IsNumeric) :
    (subVectors u v >>= normSquared).Numeric IsNumeric :=
  numeric_bind.mpr <| (subVectors_numeric hu hv).mono fun _ => normSquared_numeric

theorem Objective.call_numeric (o : Objective) {vs : List (Value α)} (h : AreNumeric vs) :
    (o.function.call vs).Numeric IsNumeric := by
  refine TermFunction.call_numeric_of_body (by cases o <;> rfl) (fun vs h => ?_) h
  cases o with
  | equal =>
    rcases vs with _ | ⟨a, _ | ⟨b, _ | _⟩⟩
    case cons.cons.nil => simpa [function] using h
    all_goals trivial
  | minimal =>
    rcases vs with _ | ⟨x, _ | _⟩
    case cons.nil => exact h x List.mem_cons_self
    all_goals trivial
  | maximal =>
    rcases vs with _ | ⟨x, _ | _⟩
    case cons.nil => exact ⟨h, .number⟩
    all_goals trivial
  | near =>
    rcases vs with _ | ⟨p, _ | ⟨q, _ | ⟨offset, _ | _⟩⟩⟩
    case cons.cons.cons.nil =>
      simp only [areNumeric_cons] at h
      exact numeric_bind.mpr <| (distanceSquared_numeric h.1 h.2.1).mono fun d hd => by
        simp [h, hd]
    all_goals trivial
  | sameCenter =>
    rcases vs with _ | ⟨p, _ | ⟨q, _ | _⟩⟩
    case cons.cons.nil =>
      simp only [areNumeric_cons] at h
      exact distanceSquared_numeric h.1 h.2.1
    all_goals trivial
  | repel =>
    rcases vs with _ | ⟨p, _ | ⟨q, _ | ⟨weight, _ | _⟩⟩⟩
    case cons.cons.cons.nil =>
      simp only [areNumeric_cons] at h
      exact numeric_bind.mpr <| (distanceSquared_numeric h.1 h.2.1).mono fun d hd => by
        simp [h, hd]
    all_goals trivial

theorem Constraint.call_numeric (c : Constraint) {vs : List (Value α)} (h : AreNumeric vs) :
    (c.function.call vs).Numeric IsNumeric := by
  refine TermFunction.call_numeric_of_body (by cases c <;> rfl) (fun vs h => ?_) h
  cases c with
  | equal =>
    rcases vs with _ | ⟨a, _ | ⟨b, _ | _⟩⟩
    case cons.cons.nil => simpa [function] using h
    all_goals trivial
  | lessThan | greaterThan =>
    rcases vs with _ | ⟨a, _ | ⟨b, _ | ⟨padding, _ | _⟩⟩⟩
    case cons.cons.cons.nil =>
      simp only [areNumeric_cons] at h
      simp [function, h]
    all_goals trivial
  | contains =>
    rcases vs with _ | ⟨p, _ | ⟨r, _ | ⟨q, _ | ⟨s, _ | ⟨padding, _ | _⟩⟩⟩⟩⟩
    case cons.cons.cons.cons.cons.nil =>
      simp only [areNumeric_cons] at h
      exact numeric_bind.mpr <| (distance_numeric h.1 h.2.2.1).mono fun d hd => by
        simp [h, hd]
    all_goals trivial
  | disjoint =>
    rcases vs with _ | ⟨p, _ | ⟨r, _ | ⟨q, _ | ⟨s, _ | ⟨padding, _ | _⟩⟩⟩⟩⟩
    case cons.cons.cons.cons.cons.nil =>
      simp only [areNumeric_cons] at h
      simp only [function, numeric_bind, numeric_apply]
      refine ⟨by simp [h], fun x => (distance_numeric h.1 h.2.2.1).mono fun d hd => by
        simp [h, hd]⟩
    all_goals trivial
  | atDist =>
    rcases vs with _ | ⟨p, _ | ⟨q, _ | ⟨length, _ | _⟩⟩⟩
    case cons.cons.cons.nil =>
      simp only [areNumeric_cons] at h
      exact numeric_bind.mpr <| (distance_numeric h.1 h.2.1).mono fun d hd => by
        simp [h, hd]
    all_goals trivial

/-- A call with numbers asks for operations on numbers only. A power is none, as its base would have
to be a handle. -/
theorem Function.call_numeric (f : Function) {vs : List (Value α)} (h : AreNumeric vs) :
    (f.call vs).Numeric IsNumeric := by
  cases f with
  | operation op =>
    simp only [call]
    split
    · exact ⟨h, .number⟩
    · trivial
  | total =>
    rcases vs with _ | ⟨v, _ | _⟩
    case cons.nil =>
      exact numeric_bind.mpr (numeric_itemsOf (h v List.mem_cons_self) fun _ => total_numeric)
    all_goals trivial
  | vector f => exact f.call_numeric h
  | power =>
    rcases vs with _ | ⟨base, _ | ⟨exponent, _ | _⟩⟩
    case cons.cons.nil =>
      have hbase := h base List.mem_cons_self
      cases hbase <;> trivial
    all_goals trivial
  | penalty =>
    rcases vs with _ | ⟨c, _ | _⟩
    case cons.nil => exact penalty_numeric (h c List.mem_cons_self)
    all_goals trivial
  | objective o => exact o.call_numeric h
  | constraint c => exact c.call_numeric h

/-! ## Bodies -/

namespace Body

/-- A body made of parameters, number literals, lists, elements and calls. -/
inductive IsArithmetic : Body α → Prop where
  | literal (x : α) : IsArithmetic (.constant (.number x))
  | parameter (name : String) : IsArithmetic (.parameter name)
  | list {bs : List (Body α)} : (∀ b ∈ bs, IsArithmetic b) → IsArithmetic (.list bs)
  | item {b : Body α} (position : Int) : IsArithmetic b → IsArithmetic (.item b position)
  | call {f : Function} {arguments : List (Body α)} : f ≠ .power →
      (∀ b ∈ arguments, IsArithmetic b) → IsArithmetic (.call f arguments)

theorem formulas_numeric {values : List (String × Value α)} {bs : List (Body α)}
    (h : ∀ b ∈ bs, (b.formula values).Numeric IsNumeric) :
    (formulas values bs).Numeric AreNumeric := by
  induction bs with
  | nil => exact areNumeric_nil
  | cons b bs ih =>
    obtain ⟨hb, hbs⟩ := List.forall_mem_cons.mp h
    simp only [formulas, numeric_bind, numeric_pure]
    exact hb.mono fun v hv => (ih hbs).mono fun vs hvs => areNumeric_cons.mpr ⟨hv, hvs⟩

/-- With numeric values for its parameters a body asks for operations on numeric values only. -/
theorem formula_numeric {values : List (String × Value α)} (hvalues : ∀ e ∈ values, e.2.IsNumeric)
    {b : Body α} (h : b.IsArithmetic) : (b.formula values).Numeric IsNumeric := by
  induction h with
  | literal x => exact .number x
  | parameter name =>
    unfold formula
    split
    · next v hv =>
      obtain ⟨before, after, rfl, _⟩ := List.lookup_eq_some_iff.mp hv
      exact hvalues (name, v) (by simp)
    · trivial
  | list _ ih =>
    unfold formula
    exact numeric_bind.mpr ((formulas_numeric ih).mono fun _ => .list)
  | item position _ ih =>
    unfold formula
    exact numeric_bind.mpr (ih.mono fun _ hv => numeric_ofExcept fun _ => hv.item)
  | call _ _ ih =>
    unfold formula
    exact numeric_bind.mpr ((formulas_numeric ih).mono fun _ => Function.call_numeric _)

end Body

end DiagramLayout
