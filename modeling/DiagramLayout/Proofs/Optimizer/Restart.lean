import DiagramLayout.Proofs.Optimizer.Weight

namespace DiagramLayout

variable {α : Type} [Scalar α]

namespace Optimizer

variable {o : Optimizer α} {s s₀ : State α} {log : List (Event α)}
  {objectives constraints : List (Term α)} {paths : Option (List String)}

/-! ## Starts -/

omit [Scalar α] in
/-- Paths fit as many values as those that they fitted before. -/
theorem startValues_eq {initial v : Tensor α} {before values : List α} {names : List String}
    (h : startValues initial paths = .ok (before, names)) (hshape : v.shape? = some [before.length])
    (hflat : v.flat? = some values) (hlength : values.length = before.length) :
    startValues v paths = .ok (values, names) := by
  unfold startValues at h ⊢
  rw [hshape, hflat]
  split at h
  · cases h
  · cases paths with
    | none =>
      cases h
      rfl
    | some ps =>
      simp only at h
      split at h
      · next hps =>
        cases h
        exact if_pos (hps.trans hlength.symm)
      · cases h
  · cases h

/-- A start from variables and paths that fit, of a problem that can be compiled. -/
theorem start_eq {initial : Tensor α} {values : List α} {names : List String} {energy : Energy α}
    (hvalues : startValues initial paths = .ok (values, names))
    (hcompile : Energy.compile ⟨objectives, constraints, values.length⟩ o.library o.scale
      Energy.defaultPenalty = .ok energy) (hsize : 0 ≤ o.historySize) :
    (o.start objectives constraints initial paths).result = .ok
      { values, objectives, constraints, paths := names, energy := some energy, status := .fresh,
        weight := o.initialWeight, memory := { capacity := o.historySize.toNat } } := by
  have hmemory : Lbfgs.Memory.fresh o.historySize =
      .ok ({ capacity := o.historySize.toNat } : Lbfgs.Memory α) :=
    Lbfgs.Memory.fresh_eq_ok_iff.mpr ⟨hsize, rfl⟩
  simp only [start, hvalues, compile, hcompile, hmemory, bind, Except.bind, pure, Except.pure]

/-! ## New starts -/

omit [Scalar α] in
theorem resample_eq {v : Tensor α} {values : List α} (hshape : v.shape? = some [s.count])
    (hflat : v.flat? = some values) :
    (o.resample s v).result = .ok
      { values, objectives := s.objectives, constraints := s.constraints, paths := s.paths,
        energy := s.energy, status := .fresh, weight := o.initialWeight,
        memory := { capacity := s.memory.capacity } } := by
  simp only [resample, hshape, hflat, ↓reduceIte, Lbfgs.Memory.reset]

omit [Scalar α] in
/-- Variables of another shape are refused. -/
theorem resample_refused {v : Tensor α} {shape : List Nat} (hshape : v.shape? = some shape)
    (hother : shape ≠ [s.count]) :
    (o.resample s v).result = .error (.resampleShape s.count shape) := by
  unfold resample
  rw [hshape]
  cases v.flat? with
  | none => rfl
  | some values => simp only [if_neg hother]

omit [Scalar α] in
/-- Variables without a shape are refused. -/
theorem resample_unshaped {v : Tensor α} (hshape : v.shape? = none) :
    (o.resample s v).result = .error .badShape := by
  unfold resample
  rw [hshape]

/-- **A new start forgets the run.** Whatever state a run has come to, a new start from variables of the
same number gives the very state that a start from them gives: no field keeps anything of the run, so
nothing that follows tells the two apart. Variables of another shape are refused, as a fault of the
description. -/
theorem History.resample_fresh {initial : Tensor α} (h : o.History s₀ log s)
    (hstart : (o.start objectives constraints initial paths).result = .ok s₀) (v : Tensor α) :
    (v.shape? = some [s₀.count] → ∃ s', (o.resample s v).result = .ok s' ∧
      (o.start objectives constraints v paths).result = .ok s' ∧ v.flat? = some s'.values) ∧
    (∀ shape, v.shape? = some shape → shape ≠ [s₀.count] → ∃ cause,
      (o.resample s v).result = .error cause ∧ cause.isConfiguration = true) ∧
    (v.shape? = none → (o.resample s v).result = .error .badShape) := by
  have c := h.coherent
  refine ⟨fun hshape => ?_, fun shape hshape hother => ?_, fun hshape => ?_⟩
  · obtain ⟨values, hflat, hlength⟩ := Tensor.exists_flat hshape
    obtain ⟨before, names, energy, hvalues, hcompile, hsize, hs₀⟩ := start_eq_ok hstart
    have hcount : s₀.count = before.length := by rw [hs₀]; rfl
    have hlength' : values.length = before.length := hlength.trans hcount
    rw [hcount] at hshape
    have hvalues' := startValues_eq hvalues hshape hflat hlength'
    rw [← hlength'] at hcompile
    refine ⟨_, resample_eq (by rw [c.count, hcount, hshape]) hflat, ?_, hflat⟩
    rw [start_eq hvalues' hcompile hsize, c.objectives, c.constraints, c.paths, c.energy, c.capacity,
      hs₀]
  · rw [← c.count] at hother
    exact ⟨_, resample_refused hshape hother, rfl⟩
  · exact resample_unshaped hshape

/-- After a run to three, a new start from five. -/
theorem straightToThree_resample_fresh : ∃ s₀ log s, exactly.History s₀ log s ∧
    s.status = .converged ∧ (∃ s', (exactly.resample s (.array [.entry 5])).result = .ok s' ∧
      (exactly.start [⟨"equal", [.varying 0, .number 3], .objective⟩] [] (.array [.entry 5])
        none).result = .ok s' ∧ s'.values = [5]) ∧
    ∃ cause, (exactly.resample s (.array [])).result = .error cause ∧ cause.isConfiguration = true := by
  obtain ⟨s₀, s, hstart, hrun, htest⟩ := @exists_start_of_run ℚ _ exactly none
    [⟨"equal", [.varying 0, .number 3], .objective⟩] [] (.array [.entry 0]) none 5 20
    (fun _ s => decide (s.status = .converged)) (by decide +kernel)
  have history := (History.start hstart).run none 5 20 hrun
  have hcount : s₀.count = 1 := by
    obtain ⟨values, names, _, hvalues, _, _, rfl⟩ := start_eq_ok hstart
    cases hvalues
    rfl
  obtain ⟨hsame, -, -⟩ := history.resample_fresh hstart (.array [.entry 5])
  obtain ⟨-, hother, -⟩ := history.resample_fresh hstart (.array [])
  obtain ⟨s', hresult, hfresh, hflat⟩ := hsame (by rw [hcount]; rfl)
  refine ⟨s₀, _, s, history, by simpa using htest, ⟨s', hresult, hfresh, ?_⟩,
    hother [0] rfl (by rw [hcount]; decide)⟩
  simpa [Tensor.flat?, eq_comm] using hflat

end Optimizer

end DiagramLayout
