/-!
# Entries by name

A list of named entries in the order in which the names were first put. Putting a name again
replaces its entry in place.
-/

namespace DiagramLayout.Keyed

variable {β : Type}

/-- The entry of a name put or replaced. -/
def put (name : String) (entry : β) : List (String × β) → List (String × β)
  | [] => [(name, entry)]
  | (other, old) :: rest =>
    if other = name then (name, entry) :: rest else (other, old) :: put name entry rest

/-- Entries put one after another. -/
def ofList (entries : List (String × β)) : List (String × β) :=
  entries.foldl (fun table (name, entry) => put name entry table) []

/-- The entry of a name is the one put last. -/
theorem lookup_put_self (name : String) (entry : β) (table : List (String × β)) :
    (put name entry table).lookup name = some entry := by
  induction table with
  | nil => simp [put]
  | cons head rest ih =>
    obtain ⟨other, old⟩ := head
    by_cases h : other = name
    · simp [put, h]
    · simp [put, h, List.lookup_cons, ih, beq_false_of_ne (Ne.symm h)]

/-- Putting one name keeps the entries of the others. -/
theorem lookup_put_of_ne {name other : String} (h : other ≠ name) (entry : β)
    (table : List (String × β)) : (put name entry table).lookup other = table.lookup other := by
  induction table with
  | nil => simp [put, List.lookup_cons, beq_false_of_ne h]
  | cons head rest ih =>
    obtain ⟨key, old⟩ := head
    by_cases hk : key = name
    · subst hk; simp [put, List.lookup_cons, beq_false_of_ne h]
    · by_cases ho : other = key
      · simp [put, hk, ho]
      · simp [put, hk, List.lookup_cons, beq_false_of_ne ho, ih]

variable {name : String} {entry : β} {table entries : List (String × β)}

theorem mem_put {x : String × β} (h : x ∈ put name entry table) : x = (name, entry) ∨ x ∈ table := by
  induction table with
  | nil => exact .inl (List.mem_singleton.mp h)
  | cons head rest ih =>
    rw [put] at h
    split at h
    · exact (List.mem_cons.mp h).imp_right (List.mem_cons_of_mem _)
    · rcases List.mem_cons.mp h with rfl | h
      · exact .inr List.mem_cons_self
      · exact (ih h).imp_right (List.mem_cons_of_mem _)

theorem exists_mem_put (name : String) (entry : β) (table : List (String × β)) {other : String}
    (h : other = name ∨ ∃ x, (other, x) ∈ table) : ∃ x, (other, x) ∈ put name entry table := by
  induction table with
  | nil =>
    obtain rfl | ⟨x, hx⟩ := h
    · exact ⟨entry, List.mem_cons_self⟩
    · cases hx
  | cons head rest ih =>
    rw [put]
    split
    · next hname =>
      obtain rfl | ⟨x, hx⟩ := h
      · exact ⟨entry, List.mem_cons_self⟩
      · rcases List.mem_cons.mp hx with rfl | hx
        · exact ⟨entry, hname ▸ List.mem_cons_self⟩
        · exact ⟨x, List.mem_cons_of_mem _ hx⟩
    · have hrest : (other = name ∨ ∃ x, (other, x) ∈ rest) →
          ∃ x, (other, x) ∈ head :: put name entry rest := fun h =>
        (ih h).imp fun _ => List.mem_cons_of_mem _
      obtain rfl | ⟨x, hx⟩ := h
      · exact hrest (.inl rfl)
      · rcases List.mem_cons.mp hx with rfl | hx
        · exact ⟨x, List.mem_cons_self⟩
        · exact hrest (.inr ⟨x, hx⟩)

/-- Every entry of a table was put. -/
theorem mem_ofList {x : String × β} (h : x ∈ ofList entries) : x ∈ entries := by
  have hfold : ∀ table, x ∈ entries.foldl (fun table (name, entry) => put name entry table) table →
      x ∈ table ∨ x ∈ entries := by
    clear h
    induction entries with
    | nil => exact fun _ => .inl
    | cons head entries ih =>
      intro table hx
      rcases ih _ hx with hx | hx
      · rcases mem_put hx with rfl | hx
        · exact .inr List.mem_cons_self
        · exact .inl hx
      · exact .inr (List.mem_cons_of_mem _ hx)
  exact (hfold [] h).resolve_left (List.not_mem_nil)

/-- Every name that was put has an entry. -/
theorem exists_mem_ofList (h : (name, entry) ∈ entries) : ∃ x, (name, x) ∈ ofList entries := by
  have hfold : ∀ table, ((∃ x, (name, x) ∈ table) ∨ ∃ x, (name, x) ∈ entries) →
      ∃ x, (name, x) ∈ entries.foldl (fun table (name, entry) => put name entry table) table := by
    clear h
    induction entries with
    | nil => exact fun table h => h.resolve_right fun ⟨_, hx⟩ => by cases hx
    | cons head entries ih =>
      intro table h
      refine ih _ ?_
      obtain h | ⟨x, hx⟩ := h
      · exact .inl (exists_mem_put _ _ _ (.inr h))
      · rcases List.mem_cons.mp hx with rfl | hx
        · exact .inl (exists_mem_put _ _ _ (.inl rfl))
        · exact .inr ⟨x, hx⟩
  exact hfold [] (.inr ⟨entry, h⟩)

end DiagramLayout.Keyed
