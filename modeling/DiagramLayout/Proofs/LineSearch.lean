import DiagramLayout.LineSearch
import DiagramLayout.Proofs.Fault
import DiagramLayout.Proofs.Outcome
import DiagramLayout.Proofs.Scalar.Exact

namespace DiagramLayout.LineSearch

variable {α : Type} [Scalar α] {P : Fault → Prop} {l : Line α} {p : Params α}

/-- One trial: its tests, of which the second is made only of a step that passes the first, and the
search from the bracket that they leave. -/
theorem resume_succ (left number : Nat) (lower : α) (upper : Option α) (step : α) :
    resume l p (left + 1) number lower upper step =
      if collapsed p lower upper then .ok ⟨step, []⟩
      else l.decreases p step >>= fun decreases =>
        (if decreases then l.flattens p step else .ok false) >>= fun flattens =>
          let trial : Trial α := { number, lower, upper, step, decreases, flattens }
          let lower' := if decreases then step else lower
          let upper' := if decreases then upper else if Scalar.isFinite step then some step else none
          if flattens then .ok ⟨step, [trial]⟩
          else (resume l p left (number + 1) lower' upper' (nextStep lower' upper')).map fun rest =>
            ⟨rest.step, trial :: rest.trials⟩ := by
  rw [resume]
  split
  · rfl
  · refine congrArg _ (funext fun decreases => ?_)
    cases decreases with
    | true => rfl
    | false => rfl

/-! ## Faults -/

theorem Line.point_faultsIn (hshape : P .badShape) (l : Line α) (t : α) :
    FaultsIn P (l.point t) := by
  unfold point
  split
  · exact .ok _
  · exact .error hshape

theorem innerProduct_faultsIn (hshape : P .badShape) (u v : List α) :
    FaultsIn P (innerProduct u v) := by
  unfold innerProduct
  split
  · exact .ok _
  · exact .error hshape

/-- A search fails like the functions along its line, or because vectors do not fit. -/
theorem search_faultsIn (hshape : P .badShape) (hvalue : ∀ xs, FaultsIn P (l.value xs))
    (hgradient : ∀ xs, FaultsIn P (l.gradient xs)) (limit : Int) :
    FaultsIn P (search l p limit) := by
  have hpoint := Line.point_faultsIn hshape l
  have hresume (left number : Nat) (lower : α) (upper : Option α) (step : α) :
      FaultsIn P (resume l p left number lower upper step) := by
    induction left generalizing number lower upper step with
    | zero => exact .ok _
    | succ left ih =>
      rw [resume_succ]
      split
      · exact .ok _
      · refine .bind (.bind (hpoint _) fun _ _ => .bind (hvalue _) fun _ _ => .pure _) ?_
        intro decreases _
        refine .bind ?_ ?_
        · split
          · exact .bind (hpoint _) fun _ _ => .bind (hgradient _) fun _ _ =>
              .bind (innerProduct_faultsIn hshape _ _) fun _ _ => .pure _
          · exact .ok false
        · intro flattens _
          simp only
          split
          · exact .ok _
          · exact .map (ih _ _ _ _) _
  exact hresume _ _ _ _ _

/-! ## Tests -/

theorem innerProduct_eq_ok {u v : List α} {c : α} (h : innerProduct u v = .ok c) :
    u.length = v.length ∧ Vec.dot u v = c := by
  unfold innerProduct Vec.dot? at h
  split at h
  · next hdot =>
    split at hdot
    · next hlength =>
      cases hdot
      exact ⟨hlength, Except.ok.inj h⟩
    · cases hdot
  · cases h

/-- What the first test compares. -/
theorem Line.decreases_eq_ok (l : Line α) {t : α} {passes : Bool}
    (h : l.decreases p t = .ok passes) : ∃ xs y, l.point t = .ok xs ∧ l.value xs = .ok y ∧
      Scalar.atMost y (l.startValue + p.decrease * t * l.startSlope) = passes := by
  obtain ⟨xs, hpoint, h⟩ := bind_eq_ok_iff.mp h
  obtain ⟨y, hvalue, h⟩ := bind_eq_ok_iff.mp h
  exact ⟨xs, y, hpoint, hvalue, Except.ok.inj h⟩

/-- What the second test compares. -/
theorem Line.flattens_eq_ok (l : Line α) {t : α} {passes : Bool}
    (h : l.flattens p t = .ok passes) : ∃ xs g, l.point t = .ok xs ∧ l.gradient xs = .ok g ∧
      l.direction.length = g.length ∧
      Scalar.atMost (p.curvature * l.startSlope) (Vec.dot l.direction g) = passes := by
  obtain ⟨xs, hpoint, h⟩ := bind_eq_ok_iff.mp h
  obtain ⟨g, hgradient, h⟩ := bind_eq_ok_iff.mp h
  obtain ⟨slope, hslope, h⟩ := bind_eq_ok_iff.mp h
  obtain ⟨hlength, rfl⟩ := innerProduct_eq_ok hslope
  exact ⟨xs, g, hpoint, hgradient, hlength, Except.ok.inj h⟩

/-! ## Lines with values -/

/-- A line of points with `n` entries, where the functions along it have values. -/
structure Line.Total (l : Line α) (n : Nat) : Prop where
  start : l.start.length = n
  direction : l.direction.length = n
  value : ∀ xs : List α, xs.length = n → ∃ y, l.value xs = .ok y
  gradient : ∀ xs : List α, xs.length = n → ∃ g, l.gradient xs = .ok g ∧ g.length = n

namespace Line.Total

variable {n : Nat}

theorem point (h : l.Total n) (t : α) : ∃ xs, l.point t = .ok xs ∧ xs.length = n := by
  have hlength : l.start.length = (Vec.scale t l.direction).length := by
    simp [Vec.scale, h.start, h.direction]
  refine ⟨l.start.zipWith (· + ·) (Vec.scale t l.direction), ?_, ?_⟩
  · simp [Line.point, Vec.pairwise?, hlength]
  · simp [← hlength, h.start]

theorem decreases (h : l.Total n) (t : α) : ∃ b, l.decreases p t = .ok b := by
  obtain ⟨xs, hpoint, hxs⟩ := h.point t
  obtain ⟨y, hy⟩ := h.value xs hxs
  exact ⟨_, bind_eq_ok_iff.mpr ⟨xs, hpoint, bind_eq_ok_iff.mpr ⟨y, hy, rfl⟩⟩⟩

theorem flattens (h : l.Total n) (t : α) : ∃ b, l.flattens p t = .ok b := by
  obtain ⟨xs, hpoint, hxs⟩ := h.point t
  obtain ⟨g, hg, hlength⟩ := h.gradient xs hxs
  have hslope : innerProduct l.direction g = .ok (Vec.dot l.direction g) := by
    simp [innerProduct, Vec.dot?, h.direction, hlength]
  exact ⟨_, bind_eq_ok_iff.mpr ⟨xs, hpoint, bind_eq_ok_iff.mpr ⟨g, hg,
    bind_eq_ok_iff.mpr ⟨_, hslope, rfl⟩⟩⟩⟩

/-- A search along such a line finds a step. -/
theorem search (h : l.Total n) (limit : Int) : ∃ found, search l p limit = .ok found := by
  have hresume (left number : Nat) (lower : α) (upper : Option α) (step : α) :
      ∃ found, resume l p left number lower upper step = .ok found := by
    induction left generalizing number lower upper step with
    | zero => exact ⟨_, rfl⟩
    | succ left ih =>
      rw [resume_succ]
      obtain ⟨decreases, hdecreases⟩ := h.decreases (p := p) step
      obtain ⟨flattens, hflattens⟩ :
          ∃ b, (if decreases then l.flattens p step else .ok false) = .ok b := by
        cases decreases with
        | true => exact h.flattens step
        | false => exact ⟨false, rfl⟩
      split
      · exact ⟨_, rfl⟩
      · simp only [hdecreases, hflattens, bind, Except.bind]
        split
        · exact ⟨_, rfl⟩
        · obtain ⟨rest, hrest⟩ := ih (number + 1) _ _ _
          exact ⟨_, map_eq_ok_iff.mpr ⟨rest, hrest, rfl⟩⟩
  exact hresume _ _ _ _ _

end Line.Total

/-! ## Steps -/

/-- How a search from a bracket and a trial ends. -/
inductive Searches (l : Line α) (p : Params α) :
    (left number : Nat) → (lower : α) → (upper : Option α) → (step : α) → Result α → Prop where
  | spent {number : Nat} {lower : α} {upper : Option α} {step : α} :
      Searches l p 0 number lower upper step ⟨step, []⟩
  | collapsed {left number : Nat} {lower : α} {upper : Option α} {step : α} :
      collapsed p lower upper = true → Searches l p (left + 1) number lower upper step ⟨step, []⟩
  | accepted {left number : Nat} {lower : α} {upper : Option α} {step : α} :
      l.decreases p step = .ok true → l.flattens p step = .ok true →
      Searches l p (left + 1) number lower upper step
        ⟨step, [{ number, lower, upper, step, decreases := true, flattens := true }]⟩
  | shortened {left number : Nat} {lower : α} {upper upper' : Option α} {step : α} {rest : Result α} :
      l.decreases p step = .ok false → upper' = (if Scalar.isFinite step then some step else none) →
      Searches l p left (number + 1) lower upper' (nextStep lower upper') rest →
      Searches l p (left + 1) number lower upper step
        ⟨rest.step, { number, lower, upper, step, decreases := false, flattens := false } ::
          rest.trials⟩
  | lengthened {left number : Nat} {lower : α} {upper : Option α} {step : α} {rest : Result α} :
      l.decreases p step = .ok true → l.flattens p step = .ok false →
      Searches l p left (number + 1) step upper (nextStep step upper) rest →
      Searches l p (left + 1) number lower upper step
        ⟨rest.step, { number, lower, upper, step, decreases := true, flattens := false } ::
          rest.trials⟩

theorem resume_searches {left number : Nat} {lower : α} {upper : Option α} {step : α}
    {found : Result α} (h : resume l p left number lower upper step = .ok found) :
    Searches l p left number lower upper step found := by
  induction left generalizing number lower upper step found with
  | zero => cases h; exact .spent
  | succ left ih =>
    rw [resume_succ] at h
    split at h
    · next hcollapsed => cases h; exact .collapsed hcollapsed
    · obtain ⟨decreases, hdecreases, h⟩ := bind_eq_ok_iff.mp h
      obtain ⟨flattens, hflattens, h⟩ := bind_eq_ok_iff.mp h
      cases decreases with
      | false =>
        cases hflattens
        obtain ⟨rest, hrest, rfl⟩ := map_eq_ok_iff.mp h
        exact .shortened hdecreases rfl (ih hrest)
      | true =>
        cases flattens with
        | true => cases h; exact .accepted hdecreases hflattens
        | false =>
          obtain ⟨rest, hrest, rfl⟩ := map_eq_ok_iff.mp h
          exact .lengthened hdecreases hflattens (ih hrest)

/-- A trial as a search makes it: the outcomes of its tests, of which the second is made only of a
step that passes the first. -/
def Line.Tried (l : Line α) (p : Params α) (t : Trial α) : Prop :=
  l.decreases p t.step = .ok t.decreases ∧
    (if t.decreases then l.flattens p t.step else .ok false) = .ok t.flattens

theorem Searches.tried {left number : Nat} {lower : α} {upper : Option α} {step : α}
    {found : Result α} (h : Searches l p left number lower upper step found) :
    ∀ t ∈ found.trials, l.Tried p t := by
  induction h with
  | spent | collapsed => simp
  | accepted hdecreases hflattens => simp [Line.Tried, hdecreases, hflattens]
  | shortened hdecreases _ _ ih =>
    exact List.forall_mem_cons.mpr ⟨⟨hdecreases, rfl⟩, ih⟩
  | lengthened hdecreases hflattens _ ih =>
    exact List.forall_mem_cons.mpr ⟨⟨hdecreases, hflattens⟩, ih⟩

/-- A trial that passed both tests. -/
def Trial.accepted (t : Trial α) : Bool := t.decreases && t.flattens

/-- When the last trial passed both tests, so does the step that is found. -/
theorem Searches.passes {left number : Nat} {lower : α} {upper : Option α} {step : α}
    {found : Result α} (h : Searches l p left number lower upper step found) {t : Trial α}
    (hlast : found.trials.getLast? = some t) (haccepted : t.accepted = true) :
    l.decreases p found.step = .ok true ∧ l.flattens p found.step = .ok true := by
  induction h with
  | spent | collapsed => cases hlast
  | accepted hdecreases hflattens => exact ⟨hdecreases, hflattens⟩
  | @shortened _ _ _ _ _ _ rest _ _ _ ih | @lengthened _ _ _ _ _ rest _ _ _ ih =>
    cases htrials : rest.trials with
    | nil =>
      -- The only trial failed one of the tests.
      simp only [htrials, List.getLast?_singleton, Option.some.injEq] at hlast
      simp [Trial.accepted, ← hlast] at haccepted
    | cons t' ts => exact ih (by simpa [htrials] using hlast)

theorem Searches.trials_ne_nil {left number : Nat} {lower step : α} {found : Result α}
    (h : Searches l p (left + 1) number lower none step found) : found.trials ≠ [] := by
  cases h with
  | collapsed hcollapsed => cases hcollapsed
  | accepted | shortened | lengthened => exact List.cons_ne_nil _ _

theorem Params.check_eq_ok {α : Type} [FieldScalar α] {p : Params α} (h : p.check = .ok ()) :
    (0 < p.decrease ∧ p.decrease < p.curvature ∧ p.curvature < 1) ∧ 0 < p.minInterval ∧
      0 ≤ p.maxSteps ∧ 0 < p.initialStep := by
  obtain ⟨_, hconstants, h⟩ := bind_eq_ok_iff.mp h
  obtain ⟨_, hinterval, h⟩ := bind_eq_ok_iff.mp h
  obtain ⟨_, hlimit, hstart⟩ := bind_eq_ok_iff.mp h
  rw [require_eq_ok_iff] at hconstants hinterval hlimit hstart
  simp only [Bool.and_eq_true, FieldScalar.less_iff, RingScalar.zero_literal, RingScalar.one_literal,
    decide_eq_true_eq] at hconstants hinterval hlimit hstart
  exact ⟨⟨hconstants.1.1, hconstants.1.2, hconstants.2⟩, hinterval, hlimit, hstart⟩

end DiagramLayout.LineSearch
