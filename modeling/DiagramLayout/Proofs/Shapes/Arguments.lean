import DiagramLayout.Proofs.Energy.OnNumbers
import DiagramLayout.Proofs.Shapes.Declared

/-!
# Arguments and what is stored

Terms see a scene through the arguments that paths are, everything else sees it through the store. Where
the properties are numbers and lists of numbers and the paths are plain, the two agree: an argument with
numbers in place of its variables is what is read once the numbers have been written.
-/

namespace DiagramLayout

variable {α : Type}

theorem Value.substituteAll_eq_map [Scalar α] (xs : List α) (vs : List (Value α)) :
    Value.substituteAll xs vs = vs.map (Value.substitute xs) := by
  induction vs with
  | nil => rfl
  | cons v vs ih => rw [Value.substituteAll, ih, List.map_cons]

/-- A number, or a list of numbers that is not too long for its components to have paths. -/
def Value.IsFlat : Value α → Prop
  | .number _ => True
  | .list vs => vs.length ≤ 10 ^ Text.digitLimit ∧ ∀ v ∈ vs, ∃ x, v = .number x
  | _ => False

namespace Shapes.Store

variable {shapes : List (String × List (String × Value α))} {s s' t : Store α} {path : String}
  {p : Path} {x : α} {xs : List α} {vs : List (Value α)}

/-! ## Flat stores -/

/-- All properties are numbers or lists of numbers. -/
def Flat (s : Store α) : Prop := ∀ p v, s.property? p = some v → v.IsFlat

theorem flat_of_forall (h : ∀ shape ∈ s.shapes, ∀ property ∈ shape.2, property.2.IsFlat) : s.Flat := by
  intro p v hv
  obtain ⟨properties, hshape, hproperty⟩ := Option.bind_eq_some_iff.mp hv
  obtain ⟨_, _, hshapes, _⟩ := List.lookup_eq_some_iff.mp hshape
  obtain ⟨_, _, hproperties, _⟩ := List.lookup_eq_some_iff.mp hproperty
  exact h (p.shape, properties) (by simp [hshapes]) (p.property, v) (by simp [hproperties])

/-- What is read is a scalar or a whole list. -/
theorem Flat.get_eq_ok (h : s.Flat) (hread : Path.read path = .ok p) {v : Value α}
    (hget : s.get path = .ok v) : (∃ x, v = .number x ∧ s.scalar? p = some x) ∨
      ∃ vs, v = .list vs ∧ p.component = none ∧ s.property? p = some (.list vs) := by
  obtain ⟨q, w, hq, hw, hv⟩ := get_eq_ok_iff.mp hget
  cases hread.symm.trans hq
  have hflat := h p w hw
  cases w with
  | number x =>
    rcases hv with ⟨hwhole, rfl⟩ | ⟨i, _, hitem⟩
    · exact .inl ⟨x, rfl, by simp [scalar?, hw, hwhole, Value.scalar?]⟩
    · obtain ⟨_, hitems, _⟩ := Value.item_eq_ok_iff.mp hitem
      cases hitems
  | list vs =>
    rcases hv with ⟨hwhole, rfl⟩ | ⟨i, hcomponent, hitem⟩
    · exact .inr ⟨vs, rfl, hwhole, hw⟩
    · obtain ⟨_, ⟨⟩, hi⟩ := Value.item_eq_ok_iff.mp hitem
      obtain ⟨x, rfl⟩ := hflat.2 v (List.mem_of_getElem? hi)
      exact .inl ⟨x, rfl, by simp [scalar?, hw, hcomponent, Value.scalar?, hi, Value.number?]⟩
  | _ => cases hflat

theorem Flat.put (h : s.Flat) {v : Value α} (hv : v.IsFlat) : (s.put p v).Flat := by
  intro q w hw
  rw [property?_put] at hw
  split at hw
  · cases hw
    exact hv
  · exact h q w hw

theorem Flat.set (h : s.Flat) (hset : s.set path x = .ok s') : s'.Flat := by
  obtain ⟨p, hread, -⟩ := bind_eq_ok_iff.mp hset
  cases hcomponent : p.component with
  | none =>
    rw [set_property hread hcomponent] at hset
    cases hset
    exact h.put trivial
  | some i =>
    cases hroom : s.room? p with
    | none =>
      rw [set_no_list hread hcomponent hroom] at hset
      cases hset
    | some n =>
      obtain ⟨vs, hvs, -⟩ := room?_eq_some hroom
      obtain ⟨hlength, hnumbers⟩ := h p _ hvs
      rw [set_component hread hcomponent hvs] at hset
      split at hset
      · cases hset
        refine h.put ⟨by simpa using hlength, fun v hv => ?_⟩
        rcases List.mem_or_eq_of_mem_set hv with hv | rfl
        · exact hnumbers v hv
        · exact ⟨x, rfl⟩
      · cases hset

theorem Flat.insert (h : s.Flat) (values : List (String × α)) : (s.insert values).2.Flat :=
  each_keeps (fun _ _ _ hs hset => hs.set hset) h values

/-! ## Writing what is there -/

theorem put_same {v : Value α} (h : s.property? p = some v) : s.put p v = s := by
  obtain ⟨properties, hshape, hproperty⟩ := Option.bind_eq_some_iff.mp h
  have hsame : (s.put p v).shapes = s.shapes := by
    change Keyed.put p.shape (Keyed.put p.property v ((s.shapes.lookup p.shape).getD [])) s.shapes = _
    rw [hshape, Option.getD_some, Keyed.put_of_lookup hproperty, Keyed.put_of_lookup hshape]
  cases s
  exact congrArg (Store.mk · _) hsame

/-- Writing the number that is at a place changes nothing. -/
theorem set_same (hread : Path.read path = .ok p) (h : s.scalar? p = some x) :
    s.set path x = .ok s := by
  rcases scalar?_eq_some h with ⟨hproperty, hwhole⟩ | ⟨vs, i, hproperty, hcomponent, hi⟩
  · rw [set_property hread hwhole, put_same hproperty]
  · obtain ⟨hlength, hvalue⟩ := List.getElem?_eq_some_iff.mp hi
    have hlist : vs.set i (.number x) = vs := by rw [← hvalue, List.set_getElem_self]
    rw [set_component hread hcomponent hproperty, if_pos hlength, hlist, put_same hproperty]

/-- Writing the numbers that are at several places changes nothing. -/
theorem insert_same {names : List String} {places : List Path} (hnames : Names names places)
    (holds : s.Holds places xs) : s.insert (names.zip xs) = (.ok (), s) := by
  unfold insert
  induction hnames generalizing xs with
  | nil => rfl
  | cons hread _ ih =>
    cases holds with
    | cons hx holds =>
      rw [List.zip_cons_cons, each]
      simp only [set_same hread hx]
      exact ih holds

/-! ## Declared paths -/

theorem Names.nodup_places {names : List String} {places : List Path} (h : Names names places)
    (nodup : names.Nodup) (hplain : ∀ path ∈ names, Path.Plain path) : places.Nodup := by
  induction h with
  | nil => exact .nil
  | @cons path p names places hread hnames ih =>
    obtain ⟨hnew, nodup⟩ := List.nodup_cons.mp nodup
    obtain ⟨hpath, hplain⟩ := List.forall_mem_cons.mp hplain
    refine List.nodup_cons.mpr ⟨fun hmem => hnew ?_, ih nodup hplain⟩
    obtain ⟨path', hpath', hread'⟩ := exists_left_of_forall₂ hnames hmem
    rw [hpath.eq (hplain path' hpath') hread hread']
    exact hpath'

theorem Names.getElem? {names : List String} {places : List Path} (h : Names names places) {i : Nat}
    (hpath : names[i]? = some path) : ∃ p, places[i]? = some p ∧ Path.read path = .ok p := by
  obtain ⟨hi, rfl⟩ := List.getElem?_eq_some_iff.mp hpath
  have hi' : i < places.length := h.length_eq ▸ hi
  exact ⟨places[i], List.getElem?_eq_getElem hi', (List.forall₂_iff_get.mp h).2 i hi hi'⟩

theorem Holds.getElem? {places : List Path} (h : s.Holds places xs) {i : Nat}
    (hp : places[i]? = some p) : ∃ x, xs[i]? = some x ∧ s.scalar? p = some x := by
  obtain ⟨hi, rfl⟩ := List.getElem?_eq_some_iff.mp hp
  have hi' : i < xs.length := h.length_eq ▸ hi
  exact ⟨xs[i], List.getElem?_eq_getElem hi', (List.forall₂_iff_get.mp h).2 i hi hi'⟩

namespace Declared

/-- Plain paths that are declared name different places. -/
theorem exists_names (h : Declared shapes s) (hplain : ∀ path ∈ s.varying, Path.Plain path) :
    ∃ places, Names s.varying places ∧ places.Nodup := by
  obtain ⟨places, hplaces⟩ := exists_mapM_eq_ok_iff.mpr fun path hpath => h.exists_read hpath
  have hnames : Names s.varying places := mapM_eq_ok_iff.mp hplaces
  exact ⟨places, hnames, hnames.nodup_places h.varies.nodup hplain⟩

/-- In a flat store declared paths name scalars. -/
theorem isSome_scalar? (h : Declared shapes s) (hflat : s.Flat) (hpath : path ∈ s.varying)
    (hread : Path.read path = .ok p) : (s.scalar? p).isSome = true := by
  obtain ⟨v, hv, hlist⟩ := h.varies.readable path hpath
  rcases hflat.get_eq_ok hread hv with ⟨x, -, hx⟩ | ⟨vs, rfl, -⟩
  · exact Option.isSome_iff_exists.mpr ⟨x, hx⟩
  · cases hlist

end Declared

variable [Scalar α]

/-- A store to which numbers have been written at the places of the variables of another. -/
structure Written (s : Store α) (places : List Path) (xs : List α) (t : Store α) : Prop where
  alike : s.Alike t
  holds : t.Holds places xs
  others : ∀ p, p ∉ places → t.scalar? p = s.scalar? p

namespace Written

variable {places : List Path} (w : s.Written places xs t) (h : Declared shapes s)
  (hnames : Names s.varying places) (hplain : ∀ path ∈ s.varying, Path.Plain path)
include w h hnames hplain

/-- The plain path of a scalar is a variable or a number. -/
theorem scalar_argument (hread : Path.read path = .ok p) (hpath : Path.Plain path)
    (hx : s.scalar? p = some x) : ∃ a y, s.argument path = .ok a ∧
      s.componentArgument path = .ok a ∧ a.substitute xs = .number y ∧ t.scalar? p = some y := by
  by_cases hdeclared : path ∈ s.varying
  · obtain ⟨i, hi⟩ := List.mem_iff_getElem?.mp hdeclared
    obtain ⟨q, hq, hread'⟩ := hnames.getElem? hi
    cases hread.symm.trans hread'
    obtain ⟨y, hy, hscalar⟩ := w.holds.getElem? hq
    obtain ⟨hargument, hcomponent⟩ := argument_varying h.varies.nodup hi
    refine ⟨_, y, hargument, hcomponent, ?_, hscalar⟩
    simp [Value.substitute, List.getD_eq_getElem?_getD, hy]
  · -- No other path of the place is declared, as those are plain too.
    have hother : p ∉ places := by
      intro hmem
      obtain ⟨path', hpath', hread'⟩ := exists_left_of_forall₂ hnames hmem
      rw [hpath.eq (hplain path' hpath') hread hread'] at hdeclared
      exact hdeclared hpath'
    obtain ⟨hargument, hcomponent⟩ := argument_constant hdeclared (get_scalar hread hx) rfl
    exact ⟨_, x, hargument, hcomponent, by simp [Value.substitute], (w.others p hother).trans hx⟩

/-- The path of a list of numbers is a list of variables and numbers. -/
theorem vector_argument (hread : Path.read path = .ok p) (hwhole : p.component = none)
    (hvs : s.property? p = some (.list vs)) (hlength : vs.length ≤ 10 ^ Text.digitLimit)
    (hnumbers : ∀ v ∈ vs, ∃ x, v = .number x) :
    ∃ a, s.argument path = .ok a ∧ t.get path = .ok (a.substitute xs) := by
  have hget : s.get path = .ok (.list vs) := get_eq_ok_iff.mpr ⟨p, _, hread, hvs, .inl ⟨hwhole, rfl⟩⟩
  have hnew : path ∉ s.varying := fun hmem => h.get_ne_list hmem vs hget
  obtain ⟨as, has⟩ := exists_argument_list h.varies.nodup hnew hread hwhole hvs hnumbers hlength
  obtain ⟨hcount, hcomponents⟩ := argument_list hnew hget has
  obtain ⟨ws, hws, hcount'⟩ : ∃ ws, t.property? p = some (.list ws) ∧ ws.length = vs.length :=
    room?_eq_some ((w.alike p).symm.trans (room?_of_property hvs))
  refine ⟨.list as, has, get_eq_ok_iff.mpr ⟨p, _, hread, hws, .inl ⟨hwhole, ?_⟩⟩⟩
  rw [Value.substitute, Value.substituteAll_eq_map, Value.list.injEq]
  refine List.ext_getElem? fun i => ?_
  rw [List.getElem?_map]
  by_cases hi : i < vs.length
  · obtain ⟨x, hx⟩ := hnumbers _ (List.getElem_mem hi)
    have hscalar := (scalar?_component hvs).mpr (hx ▸ List.getElem?_eq_getElem hi)
    have hread' := Path.read_componentPath hread hwhole (Nat.lt_of_lt_of_le hi hlength)
    have hplain' := Path.plain_componentPath hread hwhole (Nat.lt_of_lt_of_le hi hlength)
    obtain ⟨a, y, -, ha, hsubstitute, hy⟩ := w.scalar_argument h hnames hplain hread' hplain' hscalar
    obtain ⟨b, hasi, hb⟩ := hcomponents i hi
    cases hb.symm.trans ha
    rw [(scalar?_component hws).mp hy, hasi, Option.map_some, hsubstitute]
  · rw [List.getElem?_eq_none (by omega), List.getElem?_eq_none (by omega), Option.map_none]

end Written

/-- A circle that can be moved sideways and can grow. -/
def slidingGrowingCircle : Store ℚ :=
  (({ shapes := [("A", [("center", .list [.number 0, .number 1]), ("r", .number 5)])] } :
    Store ℚ).declare ["A.center.0", "A.r"]).2

end Shapes.Store

end DiagramLayout
