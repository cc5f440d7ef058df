import DiagramLayout.Keyed
import Mathlib.Data.List.Perm.Subperm

namespace DiagramLayout.Keyed

variable {β : Type}

theorem keys_put (name : String) (entry : β) (table : List (String × β)) :
    (put name entry table).map Prod.fst =
      if name ∈ table.map Prod.fst then table.map Prod.fst else table.map Prod.fst ++ [name] := by
  induction table with
  | nil => simp [put]
  | cons head rest ih =>
    obtain ⟨other, old⟩ := head
    by_cases h : other = name
    · simp [put, h]
    · simp only [put, h, ↓reduceIte, List.map_cons, ih, List.mem_cons, Ne.symm h, false_or]
      split <;> simp

/-- The different ones of several names, in the order in which they come first. -/
def names (all : List String) : List String :=
  all.foldl (fun seen name => if name ∈ seen then seen else seen ++ [name]) []

/-- The names in a list of entries depend on the names that were put only. -/
theorem keys_ofList (entries : List (String × β)) :
    (ofList entries).map Prod.fst = names (entries.map Prod.fst) := by
  have hfold (table : List (String × β)) :
      (entries.foldl (fun table entry => put entry.1 entry.2 table) table).map Prod.fst =
        (entries.map Prod.fst).foldl
          (fun seen name => if name ∈ seen then seen else seen ++ [name]) (table.map Prod.fst) := by
    induction entries generalizing table with
    | nil => rfl
    | cons head rest ih => rw [List.foldl_cons, ih, keys_put, List.map_cons, List.foldl_cons]
  exact hfold []

theorem names_subset (all : List String) : names all ⊆ all := by
  have hfold (seen : List String) :
      all.foldl (fun seen name => if name ∈ seen then seen else seen ++ [name]) seen ⊆
        seen ++ all := by
    induction all generalizing seen with
    | nil => simp
    | cons first rest ih =>
      refine List.Subset.trans (ih _) ?_
      dsimp only
      split
      · exact List.append_subset.mpr ⟨List.subset_append_left _ _,
          List.Subset.trans (List.subset_cons_self first rest) (List.subset_append_right _ _)⟩
      · simp
  exact hfold []

theorem nodup_names (all : List String) : (names all).Nodup := by
  have hfold (seen : List String) (hseen : seen.Nodup) :
      (all.foldl (fun seen name => if name ∈ seen then seen else seen ++ [name]) seen).Nodup := by
    induction all generalizing seen with
    | nil => exact hseen
    | cons first rest ih =>
      refine ih _ ?_
      dsimp only
      split
      · exact hseen
      · next hnew =>
        refine List.nodup_append.mpr ⟨hseen, List.pairwise_singleton _ first, ?_⟩
        intro name hname other hother heq
        rw [List.mem_singleton.mp hother] at heq
        exact hnew (heq ▸ hname)
  exact hfold [] List.nodup_nil

theorem put_of_not_mem {name : String} {entry : β} {table : List (String × β)}
    (h : name ∉ table.map Prod.fst) : put name entry table = table ++ [(name, entry)] := by
  induction table with
  | nil => rfl
  | cons head rest ih =>
    obtain ⟨other, old⟩ := head
    simp only [List.map_cons, List.mem_cons, not_or] at h
    rw [put, if_neg (Ne.symm h.1), ih h.2, List.cons_append]

/-- Putting the entry that a name has changes nothing. -/
theorem put_of_lookup {name : String} {entry : β} {table : List (String × β)}
    (h : table.lookup name = some entry) : put name entry table = table := by
  induction table with
  | nil => cases h
  | cons head rest ih =>
    obtain ⟨other, old⟩ := head
    rw [List.lookup_cons] at h
    by_cases hname : name = other
    · subst hname
      simp only [beq_self_eq_true, Option.some.injEq] at h
      simp [put, h]
    · simp only [beq_eq_false_iff_ne.mpr hname] at h
      simp [put, Ne.symm hname, ih h]

/-- Entries of different names are kept as they are. -/
theorem ofList_of_nodup {entries : List (String × β)} (h : (entries.map Prod.fst).Nodup) :
    ofList entries = entries := by
  have hfold (table rest : List (String × β)) (h : ((table ++ rest).map Prod.fst).Nodup) :
      rest.foldl (fun table entry => put entry.1 entry.2 table) table = table ++ rest := by
    induction rest generalizing table with
    | nil => simp
    | cons head rest ih =>
      have hnew : head.1 ∉ table.map Prod.fst := by
        simp only [List.map_append, List.map_cons, List.nodup_append, List.mem_cons] at h
        exact fun hmem => h.2.2 head.1 hmem head.1 (.inl rfl) rfl
      rw [List.foldl_cons, put_of_not_mem hnew, ih _ (by simpa using h), List.append_assoc,
        List.singleton_append]
  exact hfold [] entries (by simpa using h)

/-- All entries that were put are kept exactly if they have different names. -/
theorem length_ofList_iff {entries : List (String × β)} :
    (ofList entries).length = entries.length ↔ (entries.map Prod.fst).Nodup := by
  constructor
  · intro hlength
    have hkeys := congrArg List.length (keys_ofList entries)
    rw [List.length_map] at hkeys
    have hsub := (nodup_names _).subperm (names_subset (entries.map Prod.fst))
    have hperm := hsub.perm_of_length_le (by rw [List.length_map]; omega)
    exact hperm.nodup_iff.mp (nodup_names _)
  · intro hnodup
    rw [ofList_of_nodup hnodup]

end DiagramLayout.Keyed
