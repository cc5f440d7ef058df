import DiagramLayout.Proofs.Outcome
import DiagramLayout.Tensor

namespace DiagramLayout.Tensor

variable {α : Type}

theorem flat?_entries (xs : List α) : (array (xs.map entry)).flat? = some xs := by
  induction xs with
  | nil => rfl
  | cons x xs ih =>
    rw [flat?] at ih ⊢
    simp [List.mapM_cons, ih]

theorem lengths?_eq_nil {t : Tensor α} (h : t.lengths? = some []) : ∃ x, t = entry x := by
  cases t with
  | entry x => exact ⟨x, rfl⟩
  | array parts =>
    cases parts with
    | nil => simp [lengths?] at h
    | cons part parts =>
      simp only [lengths?, Option.bind_eq_bind, Option.bind_eq_some_iff] at h
      obtain ⟨_, _, h⟩ := h
      split at h
      · simp at h
      · cases h

theorem entries_of_allHave {parts : List (Tensor α)} (h : allHave [] parts = true) :
    ∃ xs : List α, parts = xs.map entry := by
  induction parts with
  | nil => exact ⟨[], rfl⟩
  | cons part parts ih =>
    simp only [allHave, Bool.and_eq_true, beq_iff_eq] at h
    obtain ⟨x, rfl⟩ := lengths?_eq_nil h.1
    obtain ⟨xs, rfl⟩ := ih h.2
    exact ⟨x :: xs, rfl⟩

/-- An array of one level is made of as many entries as its shape says. -/
theorem exists_entries {t : Tensor α} {n : Nat} (h : t.shape? = some [n]) :
    ∃ xs : List α, t = array (xs.map entry) ∧ xs.length = n := by
  obtain ⟨hlengths, _⟩ := Option.filter_eq_some_iff.mp h
  cases t with
  | entry x => simp [lengths?] at hlengths
  | array parts =>
    cases parts with
    | nil => exact ⟨[], rfl, by simpa [lengths?] using hlengths⟩
    | cons part parts =>
      simp only [lengths?, Option.bind_eq_bind, Option.bind_eq_some_iff] at hlengths
      obtain ⟨lengths, hpart, hlengths⟩ := hlengths
      split at hlengths
      · next hall =>
        obtain ⟨rfl, rfl⟩ : parts.length + 1 = n ∧ lengths = [] := by simpa using hlengths
        obtain ⟨x, rfl⟩ := lengths?_eq_nil hpart
        obtain ⟨xs, rfl⟩ := entries_of_allHave hall
        exact ⟨x :: xs, rfl, by simp⟩
      · cases hlengths

theorem exists_flat {t : Tensor α} {n : Nat} (h : t.shape? = some [n]) :
    ∃ xs, t.flat? = some xs ∧ xs.length = n := by
  obtain ⟨xs, rfl, hlength⟩ := exists_entries h
  exact ⟨xs, flat?_entries xs, hlength⟩

theorem length_of_flat {t : Tensor α} {n : Nat} {xs : List α} (hshape : t.shape? = some [n])
    (hflat : t.flat? = some xs) : xs.length = n := by
  obtain ⟨ys, hys, hlength⟩ := exists_flat hshape
  obtain rfl : xs = ys := Option.some.inj (hflat.symm.trans hys)
  exact hlength

end DiagramLayout.Tensor
