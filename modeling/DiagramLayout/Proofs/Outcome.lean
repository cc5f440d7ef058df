import Mathlib.Data.List.Forall2

namespace DiagramLayout

variable {ε β γ : Type}

theorem bind_eq_ok_iff {m : Except ε β} {f : β → Except ε γ} {c : γ} :
    (m >>= f) = .ok c ↔ ∃ b, m = .ok b ∧ f b = .ok c := by
  cases m <;> simp [bind, Except.bind]

theorem bind_eq_error_iff {m : Except ε β} {f : β → Except ε γ} {e : ε} :
    (m >>= f) = .error e ↔ m = .error e ∨ ∃ b, m = .ok b ∧ f b = .error e := by
  cases m <;> simp [bind, Except.bind]

theorem ok_bind (b : β) (f : β → Except ε γ) : (.ok b >>= f) = f b := rfl

/-- Before a computation that never fails only the first one does. -/
theorem bind_eq_error_iff_of_ok {m : Except ε β} {f : β → Except ε γ} (h : ∀ b, ∃ c, f b = .ok c)
    {e : ε} : (m >>= f) = .error e ↔ m = .error e := by
  rw [bind_eq_error_iff, or_iff_left]
  rintro ⟨b, -, hb⟩
  obtain ⟨c, hc⟩ := h b
  cases hc.symm.trans hb

theorem map_eq_ok_iff {m : Except ε β} {f : β → γ} {c : γ} :
    m.map f = .ok c ↔ ∃ b, m = .ok b ∧ f b = c := by
  cases m <;> simp [Except.map]

theorem map_eq_error_iff {m : Except ε β} {f : β → γ} {e : ε} :
    m.map f = .error e ↔ m = .error e := by
  cases m <;> simp [Except.map]

theorem toOption_eq_some_iff {m : Except ε β} {b : β} : m.toOption = some b ↔ m = .ok b := by
  cases m <;> simp [Except.toOption]

/-- All succeed exactly if each one does. -/
theorem mapM_eq_ok_iff {f : β → Except ε γ} {bs : List β} {cs : List γ} :
    bs.mapM f = .ok cs ↔ List.Forall₂ (fun b c => f b = .ok c) bs cs := by
  induction bs generalizing cs with
  | nil =>
    rw [List.mapM_nil, List.forall₂_nil_left_iff]
    exact ⟨fun h => (Except.ok.inj h).symm, fun h => h ▸ rfl⟩
  | cons b bs ih =>
    rw [List.mapM_cons, bind_eq_ok_iff]
    constructor
    · rintro ⟨c, hc, h⟩
      obtain ⟨rest, hrest, h⟩ := bind_eq_ok_iff.mp h
      cases h
      exact .cons hc (ih.mp hrest)
    · rintro (_ | ⟨hc, hrest⟩)
      exact ⟨_, hc, bind_eq_ok_iff.mpr ⟨_, ih.mpr hrest, rfl⟩⟩

/-- A traversal fails with the first element that fails. -/
theorem mapM_eq_error_iff {f : β → Except ε γ} {bs : List β} {e : ε} :
    bs.mapM f = .error e ↔ ∃ before b after, bs = before ++ b :: after ∧
      (∀ b' ∈ before, ∃ c, f b' = .ok c) ∧ f b = .error e := by
  induction bs with
  | nil => simp [pure, Except.pure]
  | cons b bs ih =>
    rw [List.mapM_cons, bind_eq_error_iff]
    constructor
    · rintro (h | ⟨c, hc, h⟩)
      · exact ⟨[], b, bs, rfl, by simp, h⟩
      · obtain ⟨before, b', after, rfl, hbefore, hb'⟩ :=
          ih.mp ((bind_eq_error_iff_of_ok fun _ => ⟨_, rfl⟩).mp h)
        exact ⟨b :: before, b', after, rfl, List.forall_mem_cons.mpr ⟨⟨c, hc⟩, hbefore⟩, hb'⟩
    · rintro ⟨before, b', after, hsplit, hbefore, hb'⟩
      cases before with
      | nil =>
        obtain ⟨rfl, rfl⟩ := List.cons.inj hsplit
        exact .inl hb'
      | cons _ before =>
        obtain ⟨rfl, rfl⟩ := List.cons.inj hsplit
        obtain ⟨⟨c, hc⟩, hbefore⟩ := List.forall_mem_cons.mp hbefore
        have hrest := ih.mpr ⟨before, b', after, rfl, hbefore, hb'⟩
        exact .inr ⟨c, hc, (bind_eq_error_iff_of_ok fun _ => ⟨_, rfl⟩).mpr hrest⟩

theorem exists_left_of_forall₂ {R : β → γ → Prop} {bs : List β} {cs : List γ}
    (h : List.Forall₂ R bs cs) {c : γ} (hc : c ∈ cs) : ∃ b ∈ bs, R b c := by
  induction h with
  | nil => cases hc
  | cons hbc _ ih =>
    rcases List.mem_cons.mp hc with rfl | hc
    · exact ⟨_, List.mem_cons_self, hbc⟩
    · obtain ⟨b, hb, hbc⟩ := ih hc
      exact ⟨b, List.mem_cons_of_mem _ hb, hbc⟩

/-- A traversal succeeds if every element does. -/
theorem exists_mapM_eq_ok_iff {f : β → Except ε γ} {bs : List β} :
    (∃ cs, bs.mapM f = .ok cs) ↔ ∀ b ∈ bs, ∃ c, f b = .ok c := by
  constructor
  · rintro ⟨cs, hcs⟩ b hb
    obtain ⟨c, _, hc⟩ := exists_left_of_forall₂ (mapM_eq_ok_iff.mp hcs).flip hb
    exact ⟨c, hc⟩
  · intro h
    cases hbs : bs.mapM f with
    | ok cs => exact ⟨cs, rfl⟩
    | error e =>
      obtain ⟨_, b, _, rfl, _, hb⟩ := mapM_eq_error_iff.mp hbs
      obtain ⟨c, hc⟩ := h b (by simp)
      cases hb.symm.trans hc

/-- What every partner has, every element on the right has. -/
theorem forall_right_of_forall₂ {R : β → γ → Prop} {P : γ → Prop} {bs : List β} {cs : List γ}
    (h : List.Forall₂ R bs cs) (hP : ∀ b c, R b c → P c) : ∀ c ∈ cs, P c := by
  intro c hc
  obtain ⟨b, _, hbc⟩ := exists_left_of_forall₂ h hc
  exact hP b c hbc

/-- What is said of one list and each of two others relates the two. -/
theorem forall₂_of_common {δ : Type} {R : β → γ → Prop} {S : β → δ → Prop} {T : γ → δ → Prop}
    (h : ∀ b c d, R b c → S b d → T c d) {bs : List β} {cs : List γ} {ds : List δ}
    (hR : List.Forall₂ R bs cs) (hS : List.Forall₂ S bs ds) : List.Forall₂ T cs ds := by
  induction hR generalizing ds with
  | nil => cases hS; exact .nil
  | cons hbc _ ih =>
    cases hS with
    | cons hbd hS => exact .cons (h _ _ _ hbc hbd) (ih hS)

/-- Elements with a result each have a list of results. -/
theorem exists_of_forall₂_exists {δ : Type} {P : β → δ → Prop} {Q : γ → δ → Prop} {bs : List β}
    {cs : List γ} (h : List.Forall₂ (fun b c => ∃ d, P b d ∧ Q c d) bs cs) :
    ∃ ds, List.Forall₂ P bs ds ∧ List.Forall₂ Q cs ds := by
  induction h with
  | nil => exact ⟨[], .nil, .nil⟩
  | cons hbc _ ih =>
    obtain ⟨d, hP, hQ⟩ := hbc
    obtain ⟨ds, hPs, hQs⟩ := ih
    exact ⟨d :: ds, .cons hP hPs, .cons hQ hQs⟩

end DiagramLayout
