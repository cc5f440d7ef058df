import DiagramLayout.Proofs.Scalar.Exact
import DiagramLayout.Proofs.Shapes.Paths
import DiagramLayout.Proofs.Shapes.Scalars
import Mathlib.Data.List.Nodup

/-!
# Declared paths

Paths that are declared are different texts, each of which names something that is no list. Whether a path
is declared is decided by its text, so a scalar may become a variable twice, under two ways to write the
number of a component. Under plain paths it becomes one variable, which every argument refers to.

* `Store.get_eq_ok_iff`, `Store.declareOne_eq_ok_iff`: what can be read, and what can be declared;
* `Store.Declared`: stores that calls which declare paths lead to; `Store.Varies`: what is known of them;
* `Store.argument_varying`, `Store.argument_constant`, `Store.argument_list`: a path as an argument;
* `Store.Declared.variables_distinct`: which paths are different variables.
-/

namespace DiagramLayout.Shapes.Store

variable {α : Type} {shapes : List (String × List (String × Value α))} {s s' t : Store α}
  {path path' : String} {p : Path}

/-! ## Reading -/

theorem get_eq_ok_iff {v : Value α} : s.get path = .ok v ↔ ∃ p w, Path.read path = .ok p ∧
    s.property? p = some w ∧
      ((p.component = none ∧ w = v) ∨ ∃ i : Nat, p.component = some i ∧ w.item i = .ok v) := by
  unfold get
  rw [bind_eq_ok_iff]
  constructor
  · rintro ⟨p, hp, h⟩
    cases hw : s.property? p with
    | none =>
      rw [hw] at h
      cases h
    | some w =>
      refine ⟨p, w, hp, hw, ?_⟩
      rw [hw] at h
      cases hcomponent : p.component with
      | none =>
        simp only [hcomponent] at h
        cases h
        exact .inl ⟨rfl, rfl⟩
      | some i =>
        cases hitem : w.item i with
        | ok x =>
          simp only [hcomponent, hitem] at h
          cases h
          exact .inr ⟨i, rfl, hitem⟩
        | error e =>
          simp only [hcomponent, hitem] at h
          cases h
  · rintro ⟨p, w, hp, hw, ⟨hcomponent, rfl⟩ | ⟨i, hcomponent, hitem⟩⟩
    · refine ⟨p, hp, ?_⟩
      rw [hw]
      simp only [hcomponent]
      rfl
    · refine ⟨p, hp, ?_⟩
      rw [hw]
      simp only [hcomponent, hitem]
      rfl

/-- What is read of a list is one of its elements. -/
theorem getElem?_of_get {vs : List (Value α)} {v : Value α} {i : Nat} (hread : Path.read path = .ok p)
    (hcomponent : p.component = some i) (hvs : s.property? p = some (.list vs))
    (h : s.get path = .ok v) : vs[i]? = some v := by
  obtain ⟨q, w, hq, hw, hv⟩ := get_eq_ok_iff.mp h
  cases hread.symm.trans hq
  cases hvs.symm.trans hw
  rcases hv with ⟨hwhole, _⟩ | ⟨j, hj, hitem⟩
  · cases hcomponent.symm.trans hwhole
  · cases hcomponent.symm.trans hj
    obtain ⟨_, ⟨⟩, hi⟩ := Value.item_eq_ok_iff.mp hitem
    exact hi

/-- What is read depends on the shapes and on the place only. -/
theorem get_congr (hshapes : t.shapes = s.shapes) (hread : Path.read path' = Path.read path)
    {v : Value α} (h : s.get path = .ok v) : t.get path' = .ok v := by
  obtain ⟨p, w, hp, hw, hv⟩ := get_eq_ok_iff.mp h
  have hw' : t.property? p = some w := by rw [property?, hshapes]; exact hw
  exact get_eq_ok_iff.mpr ⟨p, w, hread.trans hp, hw', hv⟩

/-! ## Declarations -/

theorem declareOne_eq_ok_iff : s.declareOne path = .ok s' ↔ path ∉ s.varying ∧
    (∃ v, s.get path = .ok v ∧ v.isList = false) ∧
      s' = { s with varying := s.varying ++ [path] } := by
  unfold declareOne
  by_cases hdeclared : path ∈ s.varying
  · simp only [hdeclared, ↓reduceIte, not_true_eq_false, false_and, iff_false]
    intro h
    cases h
  · cases hget : s.get path with
    | error cause =>
      simp only [hdeclared, ↓reduceIte, not_false_eq_true, reduceCtorEq, false_and, exists_false,
        and_false, iff_false]
      intro h
      cases h
    | ok v =>
      cases hlist : v.isList with
      | true =>
        simp [hdeclared, hlist, bind, Except.bind, throw, throwThe, MonadExceptOf.throw]
      | false =>
        simp only [hdeclared, ↓reduceIte, not_false_eq_true, true_and, Except.ok.injEq,
          exists_eq_left', hlist, bind, Except.bind, pure, Except.pure, Bool.false_eq_true]
        exact eq_comm

/-- What every step keeps, steps in a row keep, however they end. -/
theorem each_keeps {β : Type} {step : Store α → β → Except Fault (Store α)} {P : Store α → Prop}
    (hstep : ∀ s b s', P s → step s b = .ok s' → P s') (h : P s) (bs : List β) :
    P (s.each step bs).2 := by
  induction bs generalizing s with
  | nil => exact h
  | cons b bs ih =>
    unfold each
    split
    · next s' hs' => exact ih (hstep s b s' h hs')
    · exact h

/-- The stores that calls lead to which declare paths. A call that is refused keeps the paths that it
declared before. -/
inductive Declared (shapes : List (String × List (String × Value α))) : Store α → Prop where
  | start : Declared shapes { shapes }
  | call {s : Store α} (paths : List String) : Declared shapes s → Declared shapes (s.declare paths).2

/-- What is known of a store whose paths were declared: its shapes are the ones that were there at first,
its paths are different texts, and each names something that is no list. -/
structure Varies (shapes : List (String × List (String × Value α))) (s : Store α) : Prop where
  shapes_eq : s.shapes = shapes
  nodup : s.varying.Nodup
  readable : ∀ path ∈ s.varying, ∃ v, s.get path = .ok v ∧ v.isList = false

theorem Varies.declareOne (h : s.Varies shapes) (hs' : s.declareOne path = .ok s') :
    s'.Varies shapes := by
  obtain ⟨hnew, ⟨v, hv, hlist⟩, rfl⟩ := declareOne_eq_ok_iff.mp hs'
  refine ⟨h.shapes_eq, ?_, fun path' hpath' => ?_⟩
  · exact List.nodup_append'.mpr ⟨h.nodup, List.nodup_singleton path, by simpa using hnew⟩
  · rcases List.mem_append.mp hpath' with hpath' | hpath'
    · obtain ⟨v', hv', hlist'⟩ := h.readable path' hpath'
      exact ⟨v', get_congr rfl rfl hv', hlist'⟩
    · obtain rfl := List.mem_singleton.mp hpath'
      exact ⟨v, get_congr rfl rfl hv, hlist⟩

namespace Declared

theorem varies (h : Declared shapes s) : s.Varies shapes := by
  induction h with
  | start => exact ⟨rfl, List.nodup_nil, by simp⟩
  | call paths _ ih => exact each_keeps (fun _ _ _ hs hs' => hs.declareOne hs') ih paths

/-- A declared path names a place. -/
theorem exists_read (h : Declared shapes s) (hpath : path ∈ s.varying) :
    ∃ p, Path.read path = .ok p := by
  obtain ⟨v, hv, _⟩ := h.varies.readable path hpath
  obtain ⟨p, _, hp, _⟩ := get_eq_ok_iff.mp hv
  exact ⟨p, hp⟩

/-- Values for the declared paths are one entry for each. -/
theorem entries_eq (h : Declared shapes s) {xs : List α} (hlength : xs.length = s.varying.length) :
    Keyed.ofList (s.varying.zip xs) = s.varying.zip xs := by
  refine Keyed.ofList_of_nodup ?_
  rw [List.map_fst_zip hlength.ge]
  exact h.varies.nodup

/-- A list is not declared itself. -/
theorem get_ne_list (h : Declared shapes s) (hpath : path ∈ s.varying) (vs : List (Value α)) :
    s.get path ≠ .ok (.list vs) := by
  obtain ⟨v, hv, hlist⟩ := h.varies.readable path hpath
  intro hvs
  cases hvs.symm.trans hv
  cases hlist

theorem room?_whole (h : Declared shapes s) (hpath : path ∈ s.varying)
    (hread : Path.read path = .ok p) (hwhole : p.component = none) : s.room? p = none :=
  room?_of_get hread hwhole (h.get_ne_list hpath)

/-- Whatever has been written at the declared paths, the lists are those that were there. -/
theorem alike_insert (h : Declared shapes s) (halike : s.Alike t) (xs : List α) :
    s.Alike (t.insert (s.varying.zip xs)).2 := by
  have hkept := @insert_keeps _ t (s.varying.zip xs) fun path hpath p hread hwhole => by
    obtain ⟨⟨_, x⟩, hx, rfl⟩ := List.mem_map.mp hpath
    exact (halike p).symm.trans (h.room?_whole (List.of_mem_zip hx).1 hread hwhole)
  exact fun p => (halike p).trans (hkept p)

/-- A place that has been declared can be declared again under each path that has not been used. -/
theorem declareOne_again (h : Declared shapes s) (hpath : path ∈ s.varying)
    (hread : Path.read path' = Path.read path) :
    (∃ s', s.declareOne path' = .ok s') ↔ path' ∉ s.varying := by
  obtain ⟨v, hv, hlist⟩ := h.varies.readable path hpath
  simp [declareOne_eq_ok_iff, get_congr rfl hread hv, hlist]

end Declared

/-! ## Arguments -/

theorem position?_eq_some {i : Nat} (nodup : s.varying.Nodup) :
    s.position? path = some i ↔ s.varying[i]? = some path := by
  rw [position?, List.idxOf?_eq_some_iff, List.getElem?_eq_some_iff]
  refine exists_congr fun hi => and_iff_left_of_imp fun heq j hj hj' => ?_
  have := nodup.getElem_inj_iff.mp (heq.trans hj'.symm)
  omega

variable [Scalar α]

theorem argument_varying {i : Nat} (nodup : s.varying.Nodup) (h : s.varying[i]? = some path) :
    s.argument path = .ok (.varying i) ∧ s.componentArgument path = .ok (.varying i) := by
  have hposition := (position?_eq_some nodup).mpr h
  rw [argument, componentArgument, hposition]
  exact ⟨rfl, rfl⟩

/-- A path that is not declared and names no list is a number. -/
theorem argument_constant {v : Value α} (hnew : path ∉ s.varying) (h : s.get path = .ok v)
    (hlist : v.isList = false) :
    s.argument path = v.toNumber.map .number ∧ s.componentArgument path = v.toNumber.map .number := by
  have hposition : s.position? path = none := List.idxOf?_eq_none_iff.mpr hnew
  rw [argument, componentArgument, hposition, h]
  cases v with
  | list _ => cases hlist
  | _ => exact ⟨rfl, rfl⟩

theorem argument_eq_list {vs as : List (Value α)} (hnew : path ∉ s.varying)
    (h : s.get path = .ok (.list vs)) : s.argument path = .ok (.list as) ↔
      (List.range vs.length).mapM (fun i => s.componentArgument (componentPath path i)) = .ok as := by
  have hposition : s.position? path = none := List.idxOf?_eq_none_iff.mpr hnew
  rw [argument, hposition, h]
  change ((List.range vs.length).mapM (fun i => s.componentArgument (componentPath path i)) >>=
    fun as => .ok (Value.list as)) = .ok (Value.list as) ↔ _
  rw [bind_eq_ok_iff]
  simp

/-- A path that is not declared and names a list is a list of arguments, one for each component. -/
theorem argument_list {vs as : List (Value α)} (hnew : path ∉ s.varying)
    (h : s.get path = .ok (.list vs)) (has : s.argument path = .ok (.list as)) :
    as.length = vs.length ∧ ∀ i < vs.length, ∃ a, as[i]? = some a ∧
      s.componentArgument (componentPath path i) = .ok a := by
  have hall := List.forall₂_iff_get.mp (mapM_eq_ok_iff.mp ((argument_eq_list hnew h).mp has))
  simp only [List.length_range, List.get_eq_getElem, List.getElem_range] at hall
  obtain ⟨hlength, hget⟩ := hall
  have hbound {i : Nat} (hi : i < vs.length) : i < as.length := hlength ▸ hi
  exact ⟨hlength.symm, fun i hi =>
    ⟨_, List.getElem?_eq_getElem (hbound hi), hget i hi (hbound hi)⟩⟩

/-- A list of numbers is an argument, unless it is too long for its components to have paths. -/
theorem exists_argument_list {vs : List (Value α)} (nodup : s.varying.Nodup) (hnew : path ∉ s.varying)
    (hread : Path.read path = .ok p) (hwhole : p.component = none)
    (h : s.property? p = some (.list vs)) (hnumbers : ∀ v ∈ vs, ∃ x, v = .number x)
    (hlength : vs.length ≤ 10 ^ Text.digitLimit) : ∃ as, s.argument path = .ok (.list as) := by
  have hget : s.get path = .ok (.list vs) := get_eq_ok_iff.mpr ⟨p, _, hread, h, .inl ⟨hwhole, rfl⟩⟩
  have hcomponents : ∀ i ∈ List.range vs.length,
      ∃ a, s.componentArgument (componentPath path i) = .ok a := by
    intro i hi
    have hi := List.mem_range.mp hi
    by_cases hdeclared : componentPath path i ∈ s.varying
    · obtain ⟨j, hj⟩ := List.mem_iff_getElem?.mp hdeclared
      exact ⟨_, (argument_varying nodup hj).2⟩
    · obtain ⟨x, hx⟩ := hnumbers _ (List.getElem_mem hi)
      have hread' := Path.read_componentPath hread hwhole (Nat.lt_of_lt_of_le hi hlength)
      have hscalar := (scalar?_component h).mpr (hx ▸ List.getElem?_eq_getElem hi)
      exact ⟨_, (argument_constant hdeclared (get_scalar hread' hscalar) rfl).2⟩
  obtain ⟨as, has⟩ := exists_mapM_eq_ok_iff.mpr hcomponents
  exact ⟨as, (argument_eq_list hnew hget).mpr has⟩

/-- **A place is one variable under its plain path.** Paths are told apart by their texts, so only a place
with a component can be declared twice, and not under plain paths alone. A place that is declared can be
declared again under each of its paths that is new. It is a variable under the paths that were declared and
a constant under the others. In the list that it belongs to it is a variable if its plain path was
declared. -/
theorem Declared.variables_distinct (h : Declared shapes s) (hpath : path ∈ s.varying)
    (hread : Path.read path = .ok p) : ∃ v, s.get path = .ok v ∧
      (∀ path' ∈ s.varying, Path.read path' = .ok p → path' ≠ path →
        p.component ≠ none ∧ ¬(Path.Plain path ∧ Path.Plain path')) ∧
      (∀ path', Path.read path' = .ok p →
        ((∃ s', s.declareOne path' = .ok s') ↔ path' ∉ s.varying) ∧
        (∀ i : Nat, s.varying[i]? = some path' → s.argument path' = .ok (.varying i)) ∧
        (path' ∉ s.varying → s.argument path' = v.toNumber.map .number)) ∧
      ∀ k vs, p.component = some k → s.property? p = some (.list vs) →
        ((∀ w ∈ vs, ∃ x, w = .number x) → vs.length ≤ 10 ^ Text.digitLimit →
          ∃ as, s.argument p.whole = .ok (.list as)) ∧
        ∀ as, s.argument p.whole = .ok (.list as) → ∃ a, as[k]? = some a ∧
          (∀ i : Nat, s.varying[i]? = some p.text → a = .varying i) ∧
          (p.text ∉ s.varying → v.toNumber.map .number = .ok a) := by
  have nodup := h.varies.nodup
  obtain ⟨v, hv, hscalar⟩ := h.varies.readable path hpath
  have hsame {path' : String} (hread' : Path.read path' = .ok p) : s.get path' = .ok v :=
    get_congr rfl (hread'.trans hread.symm) hv
  refine ⟨v, hv, fun path' _ hread' hne => ⟨fun hwhole => hne ?_, fun hplain => hne ?_⟩,
    fun path' hread' => ⟨?_, fun i hi => ?_, fun hnew => ?_⟩, fun k vs hk hvs => ?_⟩
  · exact (Path.eq_whole hread' hwhole).trans (Path.eq_whole hread hwhole).symm
  · exact hplain.2.eq hplain.1 hread' hread
  · exact h.declareOne_again hpath (hread'.trans hread.symm)
  · exact (argument_varying nodup hi).1
  · exact (argument_constant hnew (hsame hread') hscalar).1
  · -- The list itself is no variable, so its argument is made of those of its components.
    have hwhole := Path.read_whole hread
    have hlist : s.get p.whole = .ok (.list vs) :=
      get_eq_ok_iff.mpr ⟨_, _, hwhole, hvs, .inl ⟨rfl, rfl⟩⟩
    have hnew : p.whole ∉ s.varying := fun hmem => h.get_ne_list hmem vs hlist
    refine ⟨exists_argument_list nodup hnew hwhole rfl hvs, fun as has => ?_⟩
    have hbound := (List.getElem?_eq_some_iff.mp (getElem?_of_get hread hk hvs hv)).1
    obtain ⟨a, ha, hcomponent⟩ := (argument_list hnew hlist has).2 k hbound
    have htext : componentPath p.whole k = p.text := by rw [Path.text, hk]
    rw [htext] at hcomponent
    refine ⟨a, ha, fun i hi => ?_, fun hnew' => ?_⟩
    · exact Except.ok.inj (hcomponent.symm.trans (argument_varying nodup hi).2)
    · exact (argument_constant hnew' (hsame (Path.read_text hread)) hscalar).2.symm.trans hcomponent

/-- A circle that can be moved sideways by two variables. -/
def twiceSlidingCircle : Store ℚ :=
  (({ shapes := [("A", [("center", .list [.number 0, .number 1]), ("r", .number 5)])] } :
    Store ℚ).declare ["A.center.0", "A.center.00"]).2

/-- The circle's center has the variable of its plain path. A third path is a constant, and a fourth can
still be declared. -/
theorem twiceSlidingCircle_variables :
    twiceSlidingCircle.argument "A.center.0" = .ok (.varying 0) ∧
      twiceSlidingCircle.argument "A.center.000" = .ok (.number 0) ∧
      (∃ s, twiceSlidingCircle.declareOne "A.center.0000" = .ok s) ∧
      ∃ as, twiceSlidingCircle.argument "A.center" = .ok (.list as) ∧ as[0]? = some (.varying 0) := by
  have declared : Declared _ twiceSlidingCircle := .call _ .start
  have hvarying : twiceSlidingCircle.varying = ["A.center.0", "A.center.00"] := by decide +kernel
  have hfirst : twiceSlidingCircle.varying[0]? = some "A.center.0" := by rw [hvarying]; rfl
  have hpath : "A.center.0" ∈ twiceSlidingCircle.varying := by simp [hvarying]
  have hread : Path.read "A.center.0" = .ok ⟨"A", "center", some 0⟩ := by decide +kernel
  have hzero : twiceSlidingCircle.scalar? ⟨"A", "center", some 0⟩ = some 0 := by decide +kernel
  obtain ⟨v, hv, _, hpaths, hlists⟩ := declared.variables_distinct hpath hread
  cases (get_scalar hread hzero).symm.trans hv
  obtain ⟨hlist, hcomponents⟩ := hlists 0 [.number 0, .number 1] rfl rfl
  obtain ⟨as, has⟩ := hlist (by simp) ((Nat.lt_pow_self (by decide)).le.trans' (by decide))
  obtain ⟨a, ha, hvariable, _⟩ := hcomponents as has
  refine ⟨(hpaths _ hread).2.1 0 hfirst, (hpaths _ (by decide +kernel)).2.2 (by simp [hvarying]),
    (hpaths _ (by decide +kernel)).1.mpr (by simp [hvarying]), as, has, ?_⟩
  rw [ha, hvariable 0 (hfirst.trans (by decide +kernel))]
  rfl

/-- Both variables of the circle are written to one place, which is a constant under a third path. -/
theorem twiceSlidingCircle_one_place :
    twiceSlidingCircle.varying = ["A.center.0", "A.center.00"] ∧
      Path.read "A.center.0" = Path.read "A.center.00" ∧
      (twiceSlidingCircle.insert [("A.center.0", 3), ("A.center.00", 7)]).2.values = .ok [7, 7] ∧
      twiceSlidingCircle.get "A.center.000" = .ok (.number 0) ∧
      twiceSlidingCircle.argument "A.center.000" = .ok (.number 0) := by
  have hread : Path.read "A.center.000" = .ok ⟨"A", "center", some 0⟩ := by decide +kernel
  have hzero : twiceSlidingCircle.scalar? ⟨"A", "center", some 0⟩ = some 0 := by decide +kernel
  have hget := get_scalar hread hzero
  have hnew : "A.center.000" ∉ twiceSlidingCircle.varying := by decide +kernel
  exact ⟨by decide +kernel, by decide +kernel, by decide +kernel, hget, (argument_constant hnew hget rfl).1⟩

end DiagramLayout.Shapes.Store
