import DiagramLayout.Proofs.Shapes.Store

/-!
# The scalars of a store

The numbers that a store holds, each under one place: as a property, or as a component of one.
-/

namespace DiagramLayout

variable {α : Type}

/-! ## Places -/

namespace Value

/-- The number that a value is. -/
def number? : Value α → Option α
  | number x => some x
  | _ => none

/-- The number that a property is, or that is its component. -/
def scalar? : Value α → Option Nat → Option α
  | number x, none => some x
  | list vs, some i => vs[i]?.bind number?
  | _, _ => none

theorem number?_eq_some {v : Value α} {x : α} (h : v.number? = some x) : v = number x := by
  cases v with
  | number y => rw [Option.some.inj h]
  | _ => cases h

theorem item_eq_ok_iff {v w : Value α} {i : Nat} :
    v.item i = .ok w ↔ ∃ vs, v.items = .ok vs ∧ vs[i]? = some w := by
  have hnonneg : ¬(i : Int) < 0 := by omega
  rw [item, bind_eq_ok_iff]
  refine exists_congr fun vs => and_congr_right fun _ => ?_
  cases h : vs[i]? <;> simp [hnonneg, h, pure, Except.pure]

theorem item_list {vs : List (Value α)} {i : Nat} {v : Value α} (h : vs[i]? = some v) :
    (list vs).item i = .ok v := item_eq_ok_iff.mpr ⟨vs, rfl, h⟩

/-- A list in which one element is replaced by a number. -/
theorem scalar?_list_set {vs : List (Value α)} {i : Nat} (hi : i < vs.length) (y : α)
    (component : Option Nat) : (list (vs.set i (number y))).scalar? component =
      if component = some i then some y else (list vs).scalar? component := by
  cases component with
  | none => rfl
  | some j =>
    simp only [scalar?, Option.some.injEq, List.getElem?_set]
    by_cases hj : j = i
    · subst hj
      simp [hi, number?]
    · simp [hj, Ne.symm hj]

end Value

namespace Shapes

theorem Path.eq_iff {p q : Path} :
    q = p ↔ (q.shape = p.shape ∧ q.property = p.property) ∧ q.component = p.component := by
  cases p
  cases q
  simp [and_assoc]

namespace Store

variable {s : Store α} {p : Path} {path : String} {x : α}

/-- The number at a place. -/
def scalar? (s : Store α) (p : Path) : Option α :=
  (s.property? p).bind fun v => v.scalar? p.component

theorem scalar?_put (s : Store α) (p q : Path) (v : Value α) :
    (s.put p v).scalar? q =
      if q.shape = p.shape ∧ q.property = p.property then v.scalar? q.component else s.scalar? q := by
  rw [scalar?, property?_put]
  split <;> rfl

/-- A scalar is a property, or an element of one. -/
theorem scalar?_eq_some (h : s.scalar? p = some x) :
    (s.property? p = some (.number x) ∧ p.component = none) ∨
      ∃ vs i, s.property? p = some (.list vs) ∧ p.component = some i ∧ vs[i]? = some (.number x) := by
  obtain ⟨v, hv, hx⟩ := Option.bind_eq_some_iff.mp h
  cases hcomponent : p.component with
  | none =>
    rw [hcomponent] at hx
    cases v with
    | number y =>
      cases hx
      exact .inl ⟨hv, rfl⟩
    | _ => cases hx
  | some i =>
    rw [hcomponent] at hx
    cases v with
    | list vs =>
      obtain ⟨w, hw, hx⟩ := Option.bind_eq_some_iff.mp hx
      obtain rfl := Value.number?_eq_some hx
      exact .inr ⟨vs, i, hv, rfl, hw⟩
    | _ => cases hx

theorem scalar?_component {vs : List (Value α)} {i : Nat} (h : s.property? p = some (.list vs)) :
    s.scalar? ⟨p.shape, p.property, some i⟩ = some x ↔ vs[i]? = some (.number x) := by
  have hproperty : s.property? ⟨p.shape, p.property, some i⟩ = some (.list vs) := h
  rw [scalar?, hproperty, Option.bind_some, Value.scalar?, Option.bind_eq_some_iff]
  constructor
  · rintro ⟨v, hv, hx⟩
    rw [hv, Value.number?_eq_some hx]
  · exact fun hv => ⟨_, hv, rfl⟩

/-- A number is read at the path of its place. -/
theorem get_scalar (hread : Path.read path = .ok p) (h : s.scalar? p = some x) :
    s.get path = .ok (.number x) := by
  rcases scalar?_eq_some h with ⟨hproperty, hwhole⟩ | ⟨vs, i, hproperty, hcomponent, hi⟩
  · simp [get, hread, hproperty, hwhole, bind, Except.bind, pure, Except.pure]
  · simp [get, hread, hproperty, hcomponent, Value.item_list hi, bind, Except.bind, pure, Except.pure]

/-- **Writing a number changes the scalar at its place** and no other. -/
theorem set_scalar (hread : Path.read path = .ok p) (h : s.scalar? p = some x) (y : α) :
    ∃ s', s.set path y = .ok s' ∧ s'.varying = s.varying ∧
      ∀ q, s'.scalar? q = if q = p then some y else s.scalar? q := by
  -- Places of other properties are not touched.
  have hput {v w : Value α} (hproperty : s.property? p = some v)
      (hscalar : ∀ component, w.scalar? component =
        if component = p.component then some y else v.scalar? component) (q : Path) :
      (s.put p w).scalar? q = if q = p then some y else s.scalar? q := by
    simp only [scalar?_put, Path.eq_iff]
    by_cases hsame : q.shape = p.shape ∧ q.property = p.property
    · have hold : s.scalar? q = v.scalar? q.component := by
        have hq : s.property? q = some v := by
          rw [← hproperty, property?, property?, hsame.1, hsame.2]
        rw [scalar?, hq, Option.bind_some]
      simp [hsame, hscalar, hold]
    · simp [hsame]
  rcases scalar?_eq_some h with ⟨hproperty, hwhole⟩ | ⟨vs, i, hproperty, hcomponent, hi⟩
  · refine ⟨_, set_property hread hwhole, rfl, hput hproperty ?_⟩
    rw [hwhole]
    rintro (_ | i) <;> rfl
  · have hlength : i < vs.length := (List.getElem?_eq_some_iff.mp hi).1
    refine ⟨s.put p (.list (vs.set i (.number y))), ?_, rfl, hput hproperty ?_⟩
    · rw [set_component hread hcomponent hproperty, if_pos hlength]
    · rw [hcomponent]
      exact Value.scalar?_list_set hlength y

/-! ## Several places -/

/-- The numbers at several places. -/
def Holds (s : Store α) (places : List Path) (xs : List α) : Prop :=
  List.Forall₂ (fun p x => s.scalar? p = some x) places xs

theorem Holds.congr {s' : Store α} {places : List Path} {xs : List α} (h : s.Holds places xs)
    (hsame : ∀ p ∈ places, s'.scalar? p = s.scalar? p) : s'.Holds places xs := by
  induction h with
  | nil => exact .nil
  | cons hx _ ih =>
    obtain ⟨hp, hplaces⟩ := List.forall_mem_cons.mp hsame
    exact .cons (hp.trans hx) (ih hplaces)

/-- Where there are numbers at several places the store holds some. -/
theorem exists_holds {places : List Path} (h : ∀ p ∈ places, (s.scalar? p).isSome = true) :
    ∃ xs, s.Holds places xs := by
  induction places with
  | nil => exact ⟨[], .nil⟩
  | cons p places ih =>
    obtain ⟨hp, hplaces⟩ := List.forall_mem_cons.mp h
    obtain ⟨x, hx⟩ := Option.isSome_iff_exists.mp hp
    obtain ⟨xs, hxs⟩ := ih hplaces
    exact ⟨x :: xs, .cons hx hxs⟩

/-- Paths and the places that they name. -/
def Names (names : List String) (places : List Path) : Prop :=
  List.Forall₂ (fun path p => Path.read path = .ok p) names places

theorem Names.nodup {names : List String} {places : List Path} (h : Names names places)
    (nodup : places.Nodup) : names.Nodup := by
  induction h with
  | nil => exact .nil
  | @cons path p names places hread hnames ih =>
    obtain ⟨hp, hplaces⟩ := List.nodup_cons.mp nodup
    refine List.nodup_cons.mpr ⟨fun hmem => hp ?_, ih hplaces⟩
    obtain ⟨q, hq, hread'⟩ := exists_left_of_forall₂ hnames.flip hmem
    obtain rfl : p = q := Except.ok.inj (hread.symm.trans hread')
    exact hq

/-- Numbers written at different places are there afterwards, and no other place has changed. -/
theorem insert_holds {names : List String} {places : List Path} {xs ys : List α}
    (hnames : Names names places) (nodup : places.Nodup) (holds : s.Holds places xs)
    (hlength : ys.length = xs.length) :
    ∃ s', s.insert (names.zip ys) = (.ok (), s') ∧ s'.varying = s.varying ∧ s'.Holds places ys ∧
      ∀ q, q ∉ places → s'.scalar? q = s.scalar? q := by
  unfold insert
  induction hnames generalizing s xs ys with
  | nil =>
    cases holds
    obtain rfl := List.eq_nil_of_length_eq_zero hlength
    exact ⟨s, rfl, rfl, .nil, fun _ _ => rfl⟩
  | @cons path p names places hread hnames ih =>
    cases holds with
    | @cons _ x _ xs hx holds =>
      cases ys with
      | nil => cases hlength
      | cons y ys =>
        obtain ⟨hp, hplaces⟩ := List.nodup_cons.mp nodup
        obtain ⟨s₁, hset, hvarying, hscalar⟩ := set_scalar hread hx y
        have holds₁ : s₁.Holds places xs := Holds.congr holds fun q hq => by
          have hne : q ≠ p := fun heq => hp (heq ▸ hq)
          rw [hscalar, if_neg hne]
        obtain ⟨s', hrest, hvarying', holds', hothers⟩ := ih hplaces holds₁ (Nat.succ.inj hlength)
        refine ⟨s', ?_, hvarying'.trans hvarying, .cons ?_ holds', fun q hq => ?_⟩
        · rw [List.zip_cons_cons, each]
          simp only [hset]
          exact hrest
        · rw [hothers p hp, hscalar, if_pos rfl]
        · obtain ⟨hqp, hqs⟩ := not_or.mp (List.mem_cons.not.mp hq)
          rw [hothers q hqs, hscalar, if_neg hqp]

/-- The values of the variables are the numbers at their places. -/
theorem Holds.values [Scalar α] {places : List Path} {xs : List α} (h : s.Holds places xs)
    (hnames : Names s.varying places) : s.values = .ok xs := by
  rw [Store.values, mapM_eq_ok_iff]
  generalize s.varying = names at hnames
  induction hnames generalizing xs with
  | nil =>
    cases h
    exact .nil
  | cons hread _ ih =>
    cases h with
    | cons hx h => exact .cons (bind_eq_ok_iff.mpr ⟨_, get_scalar hread hx, rfl⟩) (ih h)

end Store

end Shapes

end DiagramLayout
