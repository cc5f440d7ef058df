import DiagramLayout.Log.Frame
import DiagramLayout.Proofs.Outcome
import Mathlib.Data.List.Nodup
import Mathlib.Data.String.Basic

/-!
# Frames with different columns

Aligning puts two frames below each other. Both take the columns and types that either of them has, in
the order of the names, and no value goes missing. Only a column whose name stands for all columns
cannot be aligned with others.

* `Cell.Fits.cast_aligned`: a value keeps standing in a column that takes another type;
* `Frame.Proper`: columns of one height under different names;
* `Frame.Holds`: a frame that has the rows of two others;
* `Frame.conform_eq`, `Frame.align_eq`: when columns are found, and which;
* `Frame.align_keeps_rows`: what aligning does.
-/

namespace DiagramLayout.Log

/-! ## Cells and types -/

/-- What stands in a column of a type, lists apart. -/
inductive Cell.Fits : ColumnType → Cell → Prop
  | missing (t : ColumnType) : Fits t .missing
  | integer {t : ColumnType} {n : Int} (h : t.holds n = true) : Fits t (.integer n)
  | number (x : Float) : Fits .number (.number x)
  | text (s : String) : Fits .text (.text s)
  | truth (b : Bool) : Fits .truth (.truth b)

namespace Cell

variable {c : Cell} {s t : ColumnType}

theorem cast_missing (t : ColumnType) : cast t missing = missing := by cases t <;> rfl

/-- A cell of a column of its type stays what it is. -/
theorem Fits.cast_self (h : c.Fits t) : c.cast t = c := by
  cases h with
  | missing => exact cast_missing t
  | integer hn =>
    cases t with
    | integer | wide | unsigned => exact if_pos hn
    | empty | truth | number | text | list => cases hn
  | number | text | truth => rfl

/-- A cell goes into the type of an aligned column, and is not missing there unless it was before. -/
theorem Fits.cast_aligned (h : c.Fits s) (t : ColumnType) :
    (c.cast (s.aligned t)).Fits (s.aligned t) ∧ (c.cast (s.aligned t) = .missing → c = .missing) := by
  rw [ColumnType.aligned]
  by_cases hsame : s = t
  · rw [if_pos hsame, h.cast_self]
    exact ⟨h, id⟩
  by_cases htext : s = .text ∨ t = .text
  · rw [if_neg hsame, if_pos htext]
    cases h with
    | missing => exact ⟨.missing _, fun _ => rfl⟩
    | integer | number | text | truth => exact ⟨.text _, fun h => by cases h⟩
  · rw [if_neg hsame, if_neg htext]
    cases h with
    | missing => exact ⟨.missing _, fun _ => rfl⟩
    | integer | number | truth => exact ⟨.number _, fun h => by cases h⟩
    | text => exact absurd (.inl rfl) htext

end Cell

namespace ColumnType

theorem aligned_self (t : ColumnType) : t.aligned t = t := if_pos rfl

theorem aligned_comm (s t : ColumnType) : s.aligned t = t.aligned s := by
  by_cases hsame : s = t
  · rw [hsame]
  · simp only [aligned, if_neg hsame, if_neg (Ne.symm hsame), or_comm]

theorem isList_aligned {s t : ColumnType} (hs : s.isList = false) : (s.aligned t).isList = false := by
  rw [aligned]
  split_ifs
  · exact hs
  · rfl
  · rfl

theorem join?_self {t : ColumnType} (ht : t.isList = false) : t.join? t = some t := by
  cases t with
  | list => cases ht
  | empty | truth | integer | wide | unsigned | number | text => rfl

end ColumnType

/-! ## Columns by name -/

namespace Frame

variable {f g h : Frame} {name : String} {t : ColumnType} {c : Column}

/-- A name that is read as a pattern of names where columns are looked up. -/
def IsPattern (name : String) : Prop :=
  name.toList.head? = some '^' ∧ name.toList.getLast? = some '$'

instance (name : String) : Decidable (IsPattern name) := inferInstanceAs (Decidable (_ ∧ _))

/-- At least one column, the columns of one height, under different names that are no patterns, and
without lists. -/
structure Proper (f : Frame) : Prop where
  nonempty : f.columns ≠ []
  nodup : f.names.Nodup
  plain : ∀ name ∈ f.names, ¬IsPattern name
  flat : ∀ c ∈ f.columns, c.type.isList = false
  length : ∀ c ∈ f.columns, c.cells.length = f.height
  fits : ∀ c ∈ f.columns, ∀ cell ∈ c.cells, cell.Fits c.type

/-- The names and the types of the columns, in order. -/
def schema (f : Frame) : List (String × ColumnType) := f.columns.map fun c => (c.name, c.type)

/-- The cell of a column in a row. -/
def cell? (f : Frame) (name : String) (row : Nat) : Option Cell :=
  (f.column? name).bind fun c => c.cells[row]?

/-- What stands in a row under a name and a type: the cell cast to the type, or nothing if there is no
such column. -/
def castCell (f : Frame) (name : String) (t : ColumnType) (row : Nat) : Cell :=
  ((f.cell? name row).map (Cell.cast t)).getD .missing

theorem column?_mem (hc : f.column? name = some c) : c ∈ f.columns ∧ c.name = name :=
  ⟨List.mem_of_find?_eq_some hc,
    eq_of_beq (List.find?_some (p := fun c : Column => c.name == name) hc)⟩

theorem mem_of_cell? {row : Nat} {cell : Cell} (h : f.cell? name row = some cell) :
    ∃ c, f.column? name = some c ∧ cell ∈ c.cells := by
  obtain ⟨c, hc, hcell⟩ := Option.bind_eq_some_iff.mp h
  exact ⟨c, hc, List.mem_of_getElem? hcell⟩

theorem names_eq_schema (f : Frame) : f.names = f.schema.map Prod.fst := by
  rw [names, schema, List.map_map]
  rfl

/-- Different columns under different names are found by their names. -/
theorem column?_map {targets : List (String × ColumnType)} (hnodup : (targets.map Prod.fst).Nodup)
    {column : String × ColumnType → Column} (hname : ∀ target, (column target).name = target.1)
    {n : Nat} {target : String × ColumnType} (htarget : target ∈ targets) :
    (Frame.mk (targets.map column) n).column? target.1 = some (column target) := by
  induction targets with
  | nil => cases htarget
  | cons first rest ih =>
    rw [List.map_cons, List.nodup_cons] at hnodup
    rw [column?, List.map_cons, List.find?_cons, hname]
    rcases List.mem_cons.mp htarget with rfl | hrest
    · rw [beq_self_eq_true]
    · have hne : first.1 ≠ target.1 := by
        intro heq
        exact hnodup.1 (heq ▸ List.mem_map_of_mem hrest)
      rw [beq_false_of_ne hne]
      exact ih hnodup.2 hrest

/-! ## The columns of both -/

theorem nodup_eraseDups (names : List String) : names.eraseDups.Nodup := by
  induction hlength : names.length using Nat.strong_induction_on generalizing names with
  | _ n ih =>
    cases names with
    | nil => exact List.nodup_nil
    | cons name rest =>
      have hshorter := List.length_filter_le (fun other => !other == name) rest
      rw [List.length_cons] at hlength
      rw [List.eraseDups_cons, List.nodup_cons]
      exact ⟨by simp, ih _ (by omega) _ rfl⟩

theorem mem_allNames : name ∈ allNames f g ↔ name ∈ f.names ∨ name ∈ g.names := by
  rw [allNames, List.mem_mergeSort, List.mem_eraseDups, List.mem_append]

/-- The names stand in strict order. -/
theorem allNames_sorted (f g : Frame) : (allNames f g).Pairwise (· < ·) := by
  have hsorted := @List.pairwise_mergeSort String (fun a b => decide (a ≤ b))
    (fun _ _ _ hab hbc => decide_eq_true (String.le_trans (of_decide_eq_true hab) (of_decide_eq_true hbc)))
    (fun a b => by simpa using String.le_total a b) (f.names ++ g.names).eraseDups
  have hnodup := (List.mergeSort_perm (f.names ++ g.names).eraseDups
    fun a b => decide (a ≤ b)).nodup_iff.mpr (nodup_eraseDups _)
  refine (hsorted.and hnodup).imp ?_
  intro a b hab
  exact lt_of_le_of_ne (of_decide_eq_true hab.1) hab.2

theorem allNames_nodup (f g : Frame) : (allNames f g).Nodup := (allNames_sorted f g).imp fun hab => hab.ne

theorem allNames_comm (f g : Frame) : allNames f g = allNames g f := by
  refine List.Perm.eq_of_pairwise (fun a b _ _ hab hba => (lt_asymm hab hba).elim) (allNames_sorted f g)
    (allNames_sorted g f) ((List.perm_ext_iff_of_nodup (allNames_nodup f g) (allNames_nodup g f)).mpr ?_)
  intro name
  rw [mem_allNames, mem_allNames, or_comm]

theorem targetType_comm (f g : Frame) (name : String) : targetType f g name = targetType g f name := by
  rw [targetType, targetType]
  cases f.column? name <;> cases g.column? name <;> simp [ColumnType.aligned_comm]

/-- The names and the types that two frames take. -/
def targets (f g : Frame) : List (String × ColumnType) :=
  (allNames f g).map fun name => (name, targetType f g name)

theorem targets_comm (f g : Frame) : targets f g = targets g f := by
  simp only [targets, allNames_comm f g, targetType_comm f g]

theorem map_fst_targets (f g : Frame) : (targets f g).map Prod.fst = allNames f g := by
  rw [targets, List.map_map]
  exact List.map_id _

theorem mem_targets : (name, t) ∈ targets f g ↔
    (name ∈ f.names ∨ name ∈ g.names) ∧ t = targetType f g name := by
  rw [targets, List.mem_map, ← mem_allNames]
  constructor
  · rintro ⟨name, hname, h⟩
    cases h
    exact ⟨hname, rfl⟩
  · rintro ⟨hname, rfl⟩
    exact ⟨name, hname, rfl⟩

/-- The type that a column takes is its own type aligned with another. -/
theorem targetType_of_column (hc : f.column? name = some c) (g : Frame) :
    ∃ t, targetType f g name = c.type.aligned t := by
  rw [targetType, hc]
  cases g.column? name with
  | some d => exact ⟨d.type, rfl⟩
  | none => exact ⟨c.type, (ColumnType.aligned_self _).symm⟩

/-- A column takes no type of lists. -/
theorem isList_targetType (hf : f.Proper) (hg : g.Proper) (name : String) :
    (targetType f g name).isList = false := by
  cases hc : f.column? name with
  | some c =>
    obtain ⟨t, ht⟩ := targetType_of_column hc g
    rw [ht]
    exact ColumnType.isList_aligned (hf.flat c (column?_mem hc).1)
  | none =>
    cases hd : g.column? name with
    | some d =>
      obtain ⟨t, ht⟩ := targetType_of_column hd f
      rw [targetType_comm, ht]
      exact ColumnType.isList_aligned (hg.flat d (column?_mem hd).1)
    | none =>
      rw [targetType, hc, hd]
      rfl

/-! ## One frame conformed -/

/-- The column of a frame under a name and a type, all its cells missing if there was none. -/
def conformed (f : Frame) (target : String × ColumnType) : Column where
  name := target.1
  type := target.2
  cells := ((f.column? target.1).map fun c => c.cells.map (Cell.cast target.2)).getD
    (List.replicate f.height .missing)

theorem schema_map_conformed (f : Frame) (targets : List (String × ColumnType)) (n : Nat) :
    (Frame.mk (targets.map f.conformed) n).schema = targets := by
  rw [schema, List.map_map]
  exact List.map_id _

/-- Every row has its cell under a name and a type. -/
theorem conformed_cell (hf : f.Proper) (target : String × ColumnType) {row : Nat} (hrow : row < f.height) :
    (f.conformed target).cells[row]? = some (f.castCell target.1 target.2 row) := by
  cases hc : f.column? target.1 with
  | none => simp [conformed, castCell, cell?, hc, hrow]
  | some c =>
    have hlength := hf.length c (column?_mem hc).1
    simp [conformed, castCell, cell?, hc, List.getElem?_eq_getElem (hlength ▸ hrow)]

theorem conformed_length (hf : f.Proper) (target : String × ColumnType) :
    (f.conformed target).cells.length = f.height := by
  cases hc : f.column? target.1 with
  | none => simp [conformed, hc]
  | some c => simp [conformed, hc, hf.length c (column?_mem hc).1]

/-- The cells of a column go into the type that it takes, and none of them goes missing. -/
theorem cast_targetType (hf : f.Proper) (hc : f.column? name = some c) (g : Frame) {cell : Cell}
    (hcell : cell ∈ c.cells) : (cell.cast (targetType f g name)).Fits (targetType f g name) ∧
      (cell.cast (targetType f g name) = .missing → cell = .missing) := by
  obtain ⟨t, ht⟩ := targetType_of_column hc g
  rw [ht]
  exact (hf.fits c (column?_mem hc).1 cell hcell).cast_aligned t

theorem conformed_fits (hf : f.Proper) (g : Frame) (name : String) :
    ∀ cell ∈ (f.conformed (name, targetType f g name)).cells, cell.Fits (targetType f g name) := by
  intro cell hcell
  cases hc : f.column? name with
  | none =>
    simp only [conformed, hc, Option.map_none, Option.getD_none, List.mem_replicate] at hcell
    exact hcell.2 ▸ .missing _
  | some c =>
    simp only [conformed, hc, Option.map_some, Option.getD_some, List.mem_map] at hcell
    obtain ⟨cell, hcell, rfl⟩ := hcell
    exact (cast_targetType hf hc g hcell).1

/-- Without lists the columns are found one by one. -/
theorem conform_eq (hf : f.Proper) (targets : List (String × ColumnType)) : f.conform targets =
    if everyColumn ∈ targets.map (·.1) ∧ 1 < targets.length then .error (.misfit .ambiguous)
    else .ok ⟨targets.map f.conformed, f.height⟩ := by
  rw [conform, (@mapM_eq_ok_iff _ _ _ _ targets (targets.map f.conformed)).mpr]
  · rw [ok_bind]
    split <;> rfl
  · rw [List.forall₂_map_right_iff, List.forall₂_same]
    intro target _
    cases hc : f.column? target.1 with
    | none => simp [conformed, hc]
    | some c =>
      obtain ⟨hmem, hname⟩ := column?_mem hc
      simp [castColumn?, conformed, hc, hf.flat c hmem, hname]

/-! ## Two frames aligned -/

/-- One of several columns stands for all. -/
def Starred (f g : Frame) : Prop :=
  everyColumn ∈ f.names ++ g.names ∧ ∃ name ∈ f.names ++ g.names, name ≠ everyColumn

instance (f g : Frame) : Decidable (Starred f g) := inferInstanceAs (Decidable (_ ∧ _))

theorem starred_comm : Starred f g ↔ Starred g f := by
  simp only [Starred, List.mem_append, or_comm]

theorem starred_iff : Starred f g ↔ everyColumn ∈ allNames f g ∧ 1 < (allNames f g).length := by
  have hsorted := allNames_sorted f g
  simp only [Starred, List.mem_append, ← mem_allNames]
  generalize allNames f g = names at hsorted
  refine and_congr_right fun hevery => ?_
  rcases names with _ | ⟨first, _ | ⟨second, rest⟩⟩
  · cases hevery
  · have hfirst := List.mem_singleton.mp hevery
    refine iff_of_false ?_ (by simp)
    rintro ⟨name, hname, hne⟩
    exact hne ((List.mem_singleton.mp hname).trans hfirst.symm)
  · have hlt : first < second := (List.pairwise_cons.mp hsorted).1 second List.mem_cons_self
    refine iff_of_true ?_ (by simp)
    by_cases hfirst : first = everyColumn
    · exact ⟨second, by simp, hfirst ▸ hlt.ne'⟩
    · exact ⟨first, by simp, hfirst⟩

/-- Two frames below each other. -/
def below (f g : Frame) : Frame :=
  ⟨(targets f g).map fun target => join (f.conformed target) (g.conformed target), f.height + g.height⟩

theorem conform_targets (hf : f.Proper) (g g' : Frame) : f.conform (targets g g') =
    if Starred g g' then .error (.misfit .ambiguous)
    else .ok ⟨(targets g g').map f.conformed, f.height⟩ := by
  rw [conform_eq hf]
  refine if_congr ?_ rfl rfl
  rw [starred_iff, ← map_fst_targets, List.length_map]

theorem align_eq (hf : f.Proper) (hg : g.Proper) : f.align g =
    if Starred f g then .error (.misfit .ambiguous) else .ok (below f g) := by
  have halign : f.align g = (do
      let f' ← f.conform (targets f g)
      let g' ← g.conform (targets f g)
      return ⟨f'.columns.zipWith join g'.columns, f'.height + g'.height⟩) := rfl
  rw [halign, conform_targets hf, conform_targets hg]
  by_cases hstarred : Starred f g
  · simp only [if_pos hstarred]
    rfl
  · simp only [if_neg hstarred, ok_bind, List.zipWith_map, List.zipWith_self]
    rfl

/-- Below each other two frames have the columns and the types of both. -/
theorem schema_below (f g : Frame) : (below f g).schema = targets f g := by
  rw [schema, below, List.map_map]
  exact List.map_id _

theorem names_below (f g : Frame) : (below f g).names = allNames f g := by
  rw [names_eq_schema, schema_below, map_fst_targets]

theorem column?_below (htarget : (name, t) ∈ targets f g) : (below f g).column? name =
    some (join (f.conformed (name, t)) (g.conformed (name, t))) := by
  have hnodup : ((targets f g).map Prod.fst).Nodup := by
    rw [map_fst_targets]
    exact allNames_nodup f g
  exact column?_map hnodup (fun _ => rfl) htarget

theorem below_proper (hf : f.Proper) (hg : g.Proper) : (below f g).Proper where
  nonempty := by
    obtain ⟨c, hc⟩ := List.exists_mem_of_ne_nil _ hf.nonempty
    have hname : c.name ∈ (below f g).names := by
      rw [names_below, mem_allNames]
      exact .inl (List.mem_map_of_mem hc)
    intro hnil
    rw [names, hnil] at hname
    cases hname
  nodup := by
    rw [names_below]
    exact allNames_nodup f g
  plain := by
    intro name hname
    rw [names_below, mem_allNames] at hname
    exact hname.elim (hf.plain name) (hg.plain name)
  flat := by
    intro c hc
    obtain ⟨⟨name, t⟩, htarget, rfl⟩ := List.mem_map.mp hc
    obtain ⟨_, rfl⟩ := mem_targets.mp htarget
    exact isList_targetType hf hg name
  length := by
    intro c hc
    obtain ⟨target, _, rfl⟩ := List.mem_map.mp hc
    rw [join, List.length_append, conformed_length hf, conformed_length hg, below]
  fits := by
    intro c hc cell hcell
    obtain ⟨⟨name, t⟩, htarget, rfl⟩ := List.mem_map.mp hc
    obtain ⟨_, rfl⟩ := mem_targets.mp htarget
    rcases List.mem_append.mp hcell with hcell | hcell
    · exact conformed_fits hf g name cell hcell
    · rw [targetType_comm] at hcell
      exact targetType_comm f g name ▸ conformed_fits hg f name cell hcell

/-- A column that keeps its type keeps its cells. -/
theorem castColumn?_self (hflat : c.type.isList = false) (hfits : ∀ cell ∈ c.cells, cell.Fits c.type) :
    castColumn? c.type c = some c := by
  have hcells : c.cells.map (Cell.cast c.type) = c.cells := by
    rw [List.map_congr_left fun cell hcell => (hfits cell hcell).cast_self]
    exact List.map_id _
  rw [castColumn?, if_neg (by simp [hflat]), hcells]

theorem castColumn?_conformed (hf : f.Proper) (hg : g.Proper) (name : String) :
    castColumn? (targetType f g name) (f.conformed (name, targetType f g name)) =
      some (f.conformed (name, targetType f g name)) :=
  castColumn?_self (isList_targetType hf hg name) (conformed_fits hf g name)

theorem mapM_eq_some_map {β γ : Type} {F : β → Option γ} {G : β → γ} {bs : List β}
    (h : ∀ b ∈ bs, F b = some (G b)) : bs.mapM F = some (bs.map G) := by
  induction bs with
  | nil => rfl
  | cons b bs ih =>
    obtain ⟨hb, hbs⟩ := List.forall_mem_cons.mp h
    rw [List.mapM_cons, hb, ih hbs]
    rfl

/-- Frames that took the same columns and types go below each other as they are. -/
theorem stack?_conformed (hf : f.Proper) (hg : g.Proper) :
    stack? ⟨(targets f g).map f.conformed, f.height⟩ ⟨(targets f g).map g.conformed, g.height⟩ =
      some (below f g) := by
  rw [stack?, List.zip_map',
    mapM_eq_some_map (G := fun columns : Column × Column => join columns.1 columns.2)]
  · rw [List.map_map]
    rfl
  · intro columns hcolumns
    obtain ⟨⟨name, t⟩, htarget, rfl⟩ := List.mem_map.mp hcolumns
    obtain ⟨_, rfl⟩ := mem_targets.mp htarget
    have hjoin : (f.conformed (name, targetType f g name)).type.join?
        (g.conformed (name, targetType f g name)).type = some (targetType f g name) :=
      ColumnType.join?_self (isList_targetType hf hg name)
    have hsecond := castColumn?_conformed hg hf name
    rw [targetType_comm g f] at hsecond
    simp [hjoin, castColumn?_conformed hf hg, hsecond]

/-- One frame has the rows of two others, the first before the second. -/
structure Holds (h f g : Frame) : Prop where
  proper : h.Proper
  sorted : h.names.Pairwise (· < ·)
  mem_names : ∀ name, name ∈ h.names ↔ name ∈ f.names ∨ name ∈ g.names
  type : ∀ name t, (name, t) ∈ h.schema → t = targetType f g name
  stacked : ∃ f' g', f.conform h.schema = .ok f' ∧ g.conform h.schema = .ok g' ∧
    f'.schema = h.schema ∧ g'.schema = h.schema ∧ f'.stack? g' = some h
  height : h.height = f.height + g.height
  first : ∀ name t, (name, t) ∈ h.schema → ∀ row < f.height,
    h.cell? name row = some (f.castCell name t row)
  second : ∀ name t, (name, t) ∈ h.schema → ∀ row < g.height,
    h.cell? name (f.height + row) = some (g.castCell name t row)
  kept : ∀ name t, (name, t) ∈ h.schema → ∀ row cell,
    f.cell? name row = some cell ∨ g.cell? name row = some cell →
      cell.cast t = .missing → cell = .missing

theorem holds_below (hf : f.Proper) (hg : g.Proper) (hstarred : ¬Starred f g) : (below f g).Holds f g where
  proper := below_proper hf hg
  sorted := by
    rw [names_below]
    exact allNames_sorted f g
  mem_names name := by rw [names_below, mem_allNames]
  type name t h := by
    rw [schema_below] at h
    exact (mem_targets.mp h).2
  stacked := by
    rw [schema_below]
    exact ⟨_, _, (conform_targets hf f g).trans (if_neg hstarred),
      (conform_targets hg f g).trans (if_neg hstarred), schema_map_conformed _ _ _,
      schema_map_conformed _ _ _, stack?_conformed hf hg⟩
  height := rfl
  first := by
    intro name t h row hrow
    rw [schema_below] at h
    rw [cell?, column?_below h, Option.bind_some, join,
      List.getElem?_append_left (by rw [conformed_length hf]; exact hrow)]
    exact conformed_cell hf _ hrow
  second := by
    intro name t h row hrow
    rw [schema_below] at h
    rw [cell?, column?_below h, Option.bind_some, join,
      List.getElem?_append_right (by rw [conformed_length hf]; omega), conformed_length hf,
      Nat.add_sub_cancel_left]
    exact conformed_cell hg _ hrow
  kept := by
    intro name t h row cell hcell
    rw [schema_below] at h
    obtain ⟨_, rfl⟩ := mem_targets.mp h
    rcases hcell with hcell | hcell
    · obtain ⟨c, hc, hcell⟩ := mem_of_cell? hcell
      exact (cast_targetType hf hc g hcell).2
    · obtain ⟨c, hc, hcell⟩ := mem_of_cell? hcell
      rw [targetType_comm]
      exact (cast_targetType hg hc f hcell).2

/-- Aligning keeps the rows of both frames and has no other outcome for the frames in the other order,
except that none of several columns may stand for the others. -/
theorem align_keeps_rows (hf : f.Proper) (hg : g.Proper) :
    (¬Starred f g → ∃ h h', f.align g = .ok h ∧ g.align f = .ok h' ∧ h.Holds f g ∧ h'.Holds g f ∧
      h'.schema = h.schema) ∧
    (Starred f g → (∃ fault, f.align g = .error fault) ∧ ∃ fault, g.align f = .error fault) := by
  constructor
  · intro hstarred
    have hstarred' : ¬Starred g f := fun h => hstarred (starred_comm.mp h)
    refine ⟨below f g, below g f, ?_, ?_, holds_below hf hg hstarred, holds_below hg hf hstarred', ?_⟩
    · rw [align_eq hf hg, if_neg hstarred]
    · rw [align_eq hg hf, if_neg hstarred']
    · rw [schema_below, schema_below, targets_comm]
  · intro hstarred
    have hfirst := (align_eq hf hg).trans (if_pos hstarred)
    have hsecond := (align_eq hg hf).trans (if_pos (starred_comm.mp hstarred))
    exact ⟨⟨_, hfirst⟩, _, hsecond⟩

/-- A count and a note. -/
def counted : Frame where
  columns := [⟨"count", .integer, [.integer 1, .integer 2]⟩, ⟨"note", .text, [.text "x", .missing]⟩]
  height := 2

/-- A note of another type, and a column that is empty so far. -/
def noted : Frame where
  columns := [⟨"note", .truth, [.truth true]⟩, ⟨"late", .empty, [.missing]⟩]
  height := 1

theorem counted_align_noted : counted.Proper ∧ noted.Proper ∧
    ∃ h, counted.align noted = .ok h ∧ h.Holds counted noted := by
  have hcounted : counted.Proper := by
    refine ⟨by decide, by decide, by decide, by decide, by decide, ?_⟩
    simp only [counted, List.forall_mem_cons]
    exact ⟨⟨.integer rfl, .integer rfl, by simp⟩, ⟨.text _, .missing _, by simp⟩, by simp⟩
  have hnoted : noted.Proper := by
    refine ⟨by decide, by decide, by decide, by decide, by decide, ?_⟩
    simp only [noted, List.forall_mem_cons]
    exact ⟨⟨.truth _, by simp⟩, ⟨.missing _, by simp⟩, by simp⟩
  obtain ⟨h, _, halign, _, holds, _⟩ := (align_keeps_rows hcounted hnoted).1 (by decide)
  exact ⟨hcounted, hnoted, h, halign, holds⟩

/-- A row of two integers, one of them under the name that stands for all columns. -/
def marked (name : String) (mark n : Int) : Frame where
  columns := [⟨everyColumn, .integer, [.integer mark]⟩, ⟨name, .integer, [.integer n]⟩]
  height := 1

theorem marked_not_aligned : (marked "a" 1 1).Proper ∧ (marked "b" 2 3).Proper ∧
    ∀ h, (marked "a" 1 1).align (marked "b" 2 3) ≠ .ok h := by
  have hproper : ∀ name, name ≠ everyColumn → ¬IsPattern name → ∀ mark n : Int,
      ColumnType.integer.holds mark = true → ColumnType.integer.holds n = true →
      (marked name mark n).Proper := by
    intro name hname hplain mark n hmark hn
    refine ⟨by simp [marked], by simp [names, marked, hname.symm], ?_, by simp [marked, ColumnType.isList],
      by simp [marked], ?_⟩
    · simp only [names, marked, List.map_cons, List.map_nil, List.forall_mem_cons]
      exact ⟨by decide, hplain, by simp⟩
    · simp only [marked, List.forall_mem_cons]
      exact ⟨⟨.integer hmark, by simp⟩, ⟨.integer hn, by simp⟩, by simp⟩
  have hfirst := hproper "a" (by decide) (by decide) 1 1 rfl rfl
  have hsecond := hproper "b" (by decide) (by decide) 2 3 rfl rfl
  refine ⟨hfirst, hsecond, ?_⟩
  intro h halign
  rw [align_eq hfirst hsecond, if_pos (by decide)] at halign
  cases halign

end Frame

end DiagramLayout.Log
