import DiagramLayout.Proofs.LineSearch

namespace DiagramLayout.LineSearch

variable {α : Type}

/-- The trials of one search: there is one at least, they are numbered from zero, only the last one may
have passed both tests, and none has passed the second test alone. -/
structure Searched (trials : List (Trial α)) : Prop where
  nonempty : trials ≠ []
  numbered : trials.map Trial.number = (List.range trials.length).map Int.ofNat
  last : ∀ t ∈ trials.dropLast, ¬(t.decreases = true ∧ t.flattens = true)
  ordered : ∀ t ∈ trials, t.flattens = true → t.decreases = true

/-- Only the first trial of a search has the number zero. -/
theorem Searched.eq_cons {trials : List (Trial α)} (h : Searched trials) :
    ∃ first rest, trials = first :: rest ∧ first.number = 0 ∧ ∀ t ∈ rest, t.number ≠ 0 := by
  cases trials with
  | nil => exact absurd rfl h.nonempty
  | cons first rest =>
    have hnumbers := h.numbered
    rw [List.length_cons, List.range_succ_eq_map, List.map_cons, List.map_cons, List.map_map] at hnumbers
    obtain ⟨hfirst, hrest⟩ := List.cons.inj hnumbers
    refine ⟨first, rest, rfl, hfirst, fun t ht hzero => ?_⟩
    have hmem := List.mem_map_of_mem (f := Trial.number) ht
    rw [hrest] at hmem
    obtain ⟨n, _, hn⟩ := List.mem_map.mp hmem
    simp only [Function.comp_apply, Int.ofNat_eq_natCast, hzero] at hn
    omega

variable [Scalar α] {l : Line α} {p : Params α} {left number : Nat} {lower : α} {upper : Option α}
  {step : α} {found : Result α}

/-- The trials are numbered on. -/
theorem Searches.numbered (h : Searches l p left number lower upper step found) :
    found.trials.map Trial.number = (List.range' number found.trials.length).map Int.ofNat := by
  induction h with
  | spent | collapsed | accepted => rfl
  | shortened _ _ _ ih | lengthened _ _ _ ih =>
    rw [List.map_cons, ih, List.length_cons, List.range'_succ, List.map_cons]
    rfl

/-- A search goes on only after a trial that failed one of the tests. -/
theorem Searches.not_accepted (h : Searches l p left number lower upper step found) :
    ∀ t ∈ found.trials.dropLast, ¬(t.decreases = true ∧ t.flattens = true) := by
  induction h with
  | spent | collapsed | accepted => simp
  | @shortened _ _ _ _ _ _ rest _ _ _ ih | @lengthened _ _ _ _ _ rest _ _ _ ih =>
    cases htrials : rest.trials with
    | nil => simp
    | cons t ts =>
      rw [htrials] at ih
      rw [List.dropLast_cons_of_ne_nil (List.cons_ne_nil t ts)]
      exact List.forall_mem_cons.mpr ⟨by simp, ih⟩

theorem Params.maxSteps_nonneg (h : p.check = .ok ()) : 0 ≤ p.maxSteps := by
  obtain ⟨_, _, h⟩ := bind_eq_ok_iff.mp h
  obtain ⟨_, _, h⟩ := bind_eq_ok_iff.mp h
  obtain ⟨_, hlimit, _⟩ := bind_eq_ok_iff.mp h
  exact of_decide_eq_true (require_eq_ok_iff.mp hlimit)

/-- A search with checked constants makes a trial: at first the bracket is infinite. -/
theorem search_searched (hcheck : p.check = .ok ()) (h : search l p p.maxSteps = .ok found) :
    Searched found.trials := by
  have hlimit := p.maxSteps_nonneg hcheck
  obtain ⟨left, hleft⟩ : ∃ left, (p.maxSteps + 1).toNat = left + 1 := ⟨p.maxSteps.toNat, by omega⟩
  unfold search at h
  rw [hleft] at h
  have searches : Searches l p (left + 1) 0 0.0 none p.initialStep found := resume_searches h
  refine ⟨searches.trials_ne_nil, ?_, searches.not_accepted, ?_⟩
  · rw [searches.numbered, List.range_eq_range']
  · intro t ht hflattens
    obtain ⟨_, htest⟩ := searches.tried t ht
    by_contra hdecreases
    simp [hdecreases, hflattens] at htest

end DiagramLayout.LineSearch
