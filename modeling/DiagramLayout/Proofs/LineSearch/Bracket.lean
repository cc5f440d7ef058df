import DiagramLayout.Proofs.LineSearch
import Mathlib.Tactic.Linarith

/-!
# The bracket of a search

In an ordered field the trials of a search close in on their next step, whatever the functions along the
line are: every trial is made strictly inside of the bracket that those before it left.

* `LineSearch.bracket`, `LineSearch.stepAfter`: the bracket that trials leave, and the step after them;
* `LineSearch.Course`, `LineSearch.Searches.course`: trials in the order in which a search makes them,
  and how a search ends;
* `LineSearch.Course.inside`, `LineSearch.Course.nested`, `LineSearch.Course.lower_eq`,
  `LineSearch.Course.upper_eq`: the bracket along a course;
* `LineSearch.Searches.step_pos`, `LineSearch.search_brackets`: every search.
-/

namespace DiagramLayout.LineSearch

variable {α : Type} [FieldScalar α] {l : Line α} {p : Params α}

/-! ## Brackets -/

/-- The bracket after a trial: a step that does not decrease is its upper end, any other its lower
end. -/
def Trial.narrow (t : Trial α) (b : α × Option α) : α × Option α :=
  if t.decreases then (t.step, b.2) else (b.1, some t.step)

/-- The bracket that trials leave of all positive steps. -/
def bracket (trials : List (Trial α)) : α × Option α :=
  trials.foldl (fun b t => t.narrow b) (0, none)

@[simp] theorem bracket_nil : bracket ([] : List (Trial α)) = (0, none) := rfl

@[simp] theorem bracket_append_singleton (trials : List (Trial α)) (t : Trial α) :
    bracket (trials ++ [t]) = t.narrow (bracket trials) := by simp [bracket]

/-- The step that is tried after trials, none of which was accepted. -/
def stepAfter (p : Params α) (trials : List (Trial α)) : α :=
  if trials = [] then p.initialStep else nextStep (bracket trials).1 (bracket trials).2

theorem stepAfter_append_singleton (trials : List (Trial α)) (t : Trial α) :
    stepAfter p (trials ++ [t]) =
      nextStep (t.narrow (bracket trials)).1 (t.narrow (bracket trials)).2 := by simp [stepAfter]

/-- A step strictly inside of a bracket of steps. -/
def Inside (b : α × Option α) (step : α) : Prop :=
  0 ≤ b.1 ∧ b.1 < step ∧ ∀ u ∈ b.2, step < u

/-- A bracket that lies in another one. -/
def Nested (b outer : α × Option α) : Prop :=
  outer.1 ≤ b.1 ∧ ∀ u ∈ outer.2, ∃ v ∈ b.2, v ≤ u

theorem Nested.trans {b b' outer : α × Option α} (h : Nested b b') (h' : Nested b' outer) :
    Nested b outer := by
  refine ⟨h'.1.trans h.1, fun u hu => ?_⟩
  obtain ⟨v, hv, hvu⟩ := h'.2 u hu
  obtain ⟨w, hw, hwv⟩ := h.2 v hv
  exact ⟨w, hw, hwv.trans hvu⟩

/-- The next step lies inside of its bracket, unless the bracket is everything above zero. -/
theorem inside_nextStep {b : α × Option α} (hlower : 0 ≤ b.1) (hinfinite : b.2 = none → 0 < b.1)
    (hupper : ∀ u ∈ b.2, b.1 < u) : Inside b (nextStep b.1 b.2) := by
  obtain ⟨lower, upper⟩ := b
  cases upper with
  | none =>
    have hpos : 0 < lower := hinfinite rfl
    refine ⟨hlower, ?_, by simp⟩
    simp only [nextStep, Scalar.two_literal]
    linarith
  | some upper =>
    have hlt : lower < upper := hupper upper rfl
    refine ⟨hlower, ?_, ?_⟩
    · simp only [nextStep, Scalar.two_literal]
      linarith
    · rintro u ⟨⟩
      simp only [nextStep, Scalar.two_literal]
      linarith

/-- After a trial inside of a bracket the next one lies inside of what is left of it. -/
theorem Inside.narrow {b : α × Option α} {t : Trial α} (h : Inside b t.step) :
    Inside (t.narrow b) (nextStep (t.narrow b).1 (t.narrow b).2) ∧ Nested (t.narrow b) b := by
  obtain ⟨hlower, hstep, hupper⟩ := h
  have hpos : 0 < t.step := hlower.trans_lt hstep
  cases hdecreases : t.decreases with
  | true =>
    simp only [Trial.narrow, hdecreases, ↓reduceIte]
    exact ⟨inside_nextStep hpos.le (fun _ => hpos) hupper, hstep.le, fun u hu => ⟨u, hu, le_rfl⟩⟩
  | false =>
    simp only [Trial.narrow, hdecreases, Bool.false_eq_true, ↓reduceIte]
    exact ⟨inside_nextStep hlower (by simp) (by simpa using hstep), le_rfl,
      fun u hu => ⟨t.step, rfl, (hupper u hu).le⟩⟩

/-! ## Courses -/

/-- Trials in the order in which a search makes them: each one in the bracket that those before it
left, at the step that follows, as long as none has been accepted. -/
inductive Course (l : Line α) (p : Params α) : List (Trial α) → Prop where
  | start : Course l p []
  | trial {before : List (Trial α)} {t : Trial α} : Course l p before →
      (∀ b ∈ before, b.accepted = false) → l.Tried p t → t.number = before.length →
      (t.lower, t.upper) = bracket before → t.step = stepAfter p before → Course l p (before ++ [t])

/-- Where a search stands after trials, none of which was accepted. -/
structure Stands (l : Line α) (p : Params α) (before : List (Trial α)) (number : Nat) (lower : α)
    (upper : Option α) (step : α) : Prop where
  course : Course l p before
  rejected : ∀ b ∈ before, b.accepted = false
  number_eq : number = before.length
  bracket_eq : (lower, upper) = bracket before
  step_eq : step = stepAfter p before

/-- How a search of at most `count` trials ends: with its last trial, if that was accepted, or else
where the next one would be, when all have been made or the bracket has collapsed. -/
inductive Ends (p : Params α) (count : Nat) (trials : List (Trial α)) : α → Prop where
  | accepted {t : Trial α} : trials.getLast? = some t → t.accepted = true → Ends p count trials t.step
  | gaveUp : (∀ t ∈ trials, t.accepted = false) →
      (trials.length = count ∨ collapsed p (bracket trials).1 (bracket trials).2 = true) →
      Ends p count trials (stepAfter p trials)

section
variable {number : Nat} {lower : α} {upper : Option α} {step : α} {before : List (Trial α)}

/-- A trial where a search stands. -/
theorem Stands.trial (h : Stands l p before number lower upper step) {decreases flattens : Bool}
    (htried : l.Tried p ⟨number, lower, upper, step, decreases, flattens⟩) :
    Course l p (before ++ [⟨number, lower, upper, step, decreases, flattens⟩]) :=
  h.course.trial h.rejected htried (by simp [h.number_eq]) h.bracket_eq h.step_eq

/-- After a trial that is not accepted a search stands in the bracket that it left. -/
theorem Stands.next (h : Stands l p before number lower upper step) {decreases flattens : Bool}
    (htried : l.Tried p ⟨number, lower, upper, step, decreases, flattens⟩)
    (hrejected : (decreases && flattens) = false) {lower' : α} {upper' : Option α}
    (hnarrow : Trial.narrow ⟨number, lower, upper, step, decreases, flattens⟩ (lower, upper) =
      (lower', upper')) :
    Stands l p (before ++ [⟨number, lower, upper, step, decreases, flattens⟩]) (number + 1) lower'
      upper' (nextStep lower' upper') where
  course := h.trial htried
  rejected := List.forall_mem_append.mpr ⟨h.rejected, by simpa [Trial.accepted] using hrejected⟩
  number_eq := by simp [h.number_eq]
  bracket_eq := by rw [bracket_append_singleton, ← h.bracket_eq, hnarrow]
  step_eq := by rw [stepAfter_append_singleton, ← h.bracket_eq, hnarrow]

/-- A search carries on the course that led to where it starts. -/
theorem Searches.course {left : Nat} {found : Result α}
    (h : Searches l p left number lower upper step found)
    (stands : Stands l p before number lower upper step) :
    Course l p (before ++ found.trials) ∧ found.trials.length ≤ left ∧
      Ends p (before.length + left) (before ++ found.trials) found.step := by
  induction h generalizing before with
  | spent =>
    obtain ⟨course, hrejected, _, _, rfl⟩ := stands
    simpa using ⟨course, Ends.gaveUp hrejected (.inl rfl)⟩
  | collapsed hcollapsed =>
    obtain ⟨course, hrejected, _, hbracket, rfl⟩ := stands
    have hended : LineSearch.collapsed p (bracket before).1 (bracket before).2 = true := by
      rwa [← hbracket]
    simpa using ⟨course, Ends.gaveUp hrejected (.inr hended)⟩
  | @accepted left number lower upper step hdecreases hflattens =>
    refine ⟨stands.trial ⟨hdecreases, hflattens⟩, by simp, ?_⟩
    exact Ends.accepted (t := ⟨number, lower, upper, step, true, true⟩)
      (by simp) rfl
  | shortened hdecreases hupper _ ih =>
    obtain ⟨hcourse, hlength, hends⟩ :=
      ih (stands.next ⟨hdecreases, rfl⟩ rfl (by simp [Trial.narrow, hupper]))
    refine ⟨by simpa using hcourse, Nat.succ_le_succ hlength, ?_⟩
    simpa [Nat.add_assoc, Nat.add_comm 1] using hends
  | lengthened hdecreases hflattens _ ih =>
    obtain ⟨hcourse, hlength, hends⟩ :=
      ih (stands.next ⟨hdecreases, hflattens⟩ rfl (by simp [Trial.narrow]))
    refine ⟨by simpa using hcourse, Nat.succ_le_succ hlength, ?_⟩
    simpa [Nat.add_assoc, Nat.add_comm 1] using hends

end

/-! ## The bracket along a course -/

namespace Course

variable {trials : List (Trial α)}

/-- Every trial of a course was made where the trials before it left off. -/
theorem split (h : Course l p trials) {before after : List (Trial α)} {t : Trial α}
    (heq : trials = before ++ t :: after) :
    Course l p before ∧ (∀ b ∈ before, b.accepted = false) ∧ l.Tried p t ∧
      t.number = before.length ∧ (t.lower, t.upper) = bracket before ∧ t.step = stepAfter p before := by
  induction h generalizing after with
  | start => simp at heq
  | @trial before' last course hrejected htried hnumber hbracket hstep ih =>
    rcases List.eq_nil_or_concat after with rfl | ⟨after', last', rfl⟩
    · obtain ⟨rfl, hlast⟩ := List.append_inj' heq rfl
      obtain rfl : last = t := by simpa using hlast
      exact ⟨course, hrejected, htried, hnumber, hbracket, hstep⟩
    · rw [List.concat_eq_append, ← List.cons_append, ← List.append_assoc] at heq
      exact ih (List.append_inj' heq rfl).1

/-- The step after the trials of a course lies inside of the bracket that they leave. -/
theorem inside (h : Course l p trials) (hinitial : 0 < p.initialStep) :
    Inside (bracket trials) (stepAfter p trials) := by
  induction h with
  | start => exact ⟨le_rfl, by simpa [stepAfter] using hinitial, by simp⟩
  | trial _ _ _ _ _ hstep ih =>
    rw [stepAfter_append_singleton, bracket_append_singleton]
    rw [← hstep] at ih
    exact ih.narrow.1

/-- The brackets along a course are nested. -/
theorem nested (h : Course l p trials) (hinitial : 0 < p.initialStep) :
    ∀ t ∈ trials, Nested (bracket trials) (t.lower, t.upper) := by
  induction h with
  | start => simp
  | @trial before last course _ _ _ hbracket hstep ih =>
    have hinside := course.inside hinitial
    rw [← hstep] at hinside
    have hnarrow := hinside.narrow.2
    rw [bracket_append_singleton]
    refine List.forall_mem_append.mpr ⟨fun t ht => hnarrow.trans (ih t ht), ?_⟩
    rw [List.forall_mem_singleton, hbracket]
    exact hnarrow

/-- The lower end of the bracket is zero, or a trial that decreased. -/
theorem lower_eq (h : Course l p trials) :
    (bracket trials).1 = 0 ∨ ∃ t ∈ trials, t.step = (bracket trials).1 ∧ t.decreases = true := by
  induction h with
  | start => exact .inl rfl
  | @trial before last _ _ _ _ _ _ ih =>
    rw [bracket_append_singleton, Trial.narrow]
    cases hdecreases : last.decreases with
    | true => exact .inr ⟨last, by simp, rfl, hdecreases⟩
    | false =>
      rcases ih with hzero | ⟨t, ht, hstep, hdecreases⟩
      · exact .inl hzero
      · exact .inr ⟨t, List.mem_append_left _ ht, hstep, hdecreases⟩

/-- The upper end of the bracket is infinite, or a trial that did not decrease. -/
theorem upper_eq (h : Course l p trials) : (bracket trials).2 = none ∨
    ∃ t ∈ trials, (bracket trials).2 = some t.step ∧ t.decreases = false := by
  induction h with
  | start => exact .inl rfl
  | @trial before last _ _ _ _ _ _ ih =>
    rw [bracket_append_singleton, Trial.narrow]
    cases hdecreases : last.decreases with
    | false => exact .inr ⟨last, by simp, rfl, hdecreases⟩
    | true =>
      rcases ih with hnone | ⟨t, ht, hstep, hdecreases⟩
      · exact .inl hnone
      · exact .inr ⟨t, List.mem_append_left _ ht, hstep, hdecreases⟩

end Course

/-! ## Searches -/

/-- A trial where it belongs after others: its tests were made, and it lies strictly inside of the
bracket that the others left, whose ends are trials of the right kind and which is nested in theirs. -/
structure Trial.Placed (l : Line α) (p : Params α) (before : List (Trial α)) (t : Trial α) : Prop where
  tried : l.Tried p t
  number : t.number = before.length
  left : (t.lower, t.upper) = bracket before
  inside : 0 ≤ t.lower ∧ t.lower < t.step ∧ ∀ u ∈ t.upper, t.step < u
  lower : t.lower = 0 ∨
    ∃ b ∈ before, b.step = t.lower ∧ b.decreases = true ∧ b.flattens = false
  upper : t.upper = none ∨ ∃ b ∈ before, t.upper = some b.step ∧ b.decreases = false
  nested : ∀ b ∈ before, b.lower ≤ t.lower ∧ ∀ u ∈ b.upper, ∃ v ∈ t.upper, v ≤ u
  step : t.step = if before = [] then p.initialStep else nextStep t.lower t.upper

/-- Every trial of a course is where it belongs. -/
theorem Course.placed {trials : List (Trial α)} (h : Course l p trials)
    (hinitial : 0 < p.initialStep) {before after : List (Trial α)} {t : Trial α}
    (heq : trials = before ++ t :: after) : t.Placed l p before := by
  obtain ⟨course, hrejected, htried, hnumber, hbracket, hstep⟩ := h.split heq
  have hlower : t.lower = (bracket before).1 := congrArg Prod.fst hbracket
  have hupper : t.upper = (bracket before).2 := congrArg Prod.snd hbracket
  have hinside := course.inside hinitial
  rw [← hbracket, ← hstep] at hinside
  refine ⟨htried, hnumber, hbracket, hinside, ?_, ?_, ?_, ?_⟩
  · rw [hlower]
    rcases course.lower_eq with hzero | ⟨b, hb, hend, hdecreases⟩
    · exact .inl hzero
    · refine .inr ⟨b, hb, hend, hdecreases, ?_⟩
      simpa [Trial.accepted, hdecreases] using hrejected b hb
  · rw [hupper]
    exact course.upper_eq
  · have hnested := course.nested hinitial
    rw [← hbracket] at hnested
    exact hnested
  · rw [hlower, hupper]
    exact hstep

/-- A step at which the value has decreased sufficiently and the slope has flattened enough. -/
def Line.Accepts (l : Line α) (p : Params α) (t : α) : Prop :=
  ∃ xs y g, l.point t = .ok xs ∧ l.value xs = .ok y ∧ l.gradient xs = .ok g ∧
    y ≤ l.startValue + p.decrease * t * l.startSlope ∧ p.curvature * l.startSlope ≤ Vec.dot l.direction g

theorem Line.Tried.accepts {t : Trial α} (h : l.Tried p t) (haccepted : t.accepted = true) :
    l.Accepts p t.step := by
  rw [Trial.accepted, Bool.and_eq_true] at haccepted
  obtain ⟨hdecreases, hflattens⟩ := h
  rw [haccepted.1] at hdecreases hflattens
  rw [if_pos rfl, haccepted.2] at hflattens
  obtain ⟨xs, y, hpoint, hvalue, hdecrease⟩ := l.decreases_eq_ok hdecreases
  obtain ⟨xs', g, hpoint', hgradient, _, hflat⟩ := l.flattens_eq_ok hflattens
  obtain rfl : xs' = xs := Except.ok.inj (hpoint'.symm.trans hpoint)
  exact ⟨xs', y, g, hpoint, hvalue, hgradient, (FieldScalar.atMost_iff _ _).mp hdecrease,
    (FieldScalar.atMost_iff _ _).mp hflat⟩

/-- The step that a course ends with. -/
theorem Course.ends {trials : List (Trial α)} {count : Nat} {step : α} (h : Course l p trials)
    (hends : Ends p count trials step) (hinitial : 0 < p.initialStep) :
    0 < step ∧
      ((∃ t, trials.getLast? = some t ∧ step = t.step ∧ l.Accepts p step) ∨
        (trials.length = count ∨
          ∃ u, (bracket trials).2 = some u ∧ u - (bracket trials).1 < p.minInterval) ∧
        (bracket trials).1 < step ∧ ∀ u ∈ (bracket trials).2, step < u) := by
  cases hends with
  | @accepted t hlast haccepted =>
    obtain ⟨before, heq⟩ := List.getLast?_eq_some_iff.mp hlast
    have placed : t.Placed l p before := h.placed hinitial heq
    obtain ⟨hlower, hstep, _⟩ := placed.inside
    exact ⟨hlower.trans_lt hstep, .inl ⟨t, hlast, rfl, placed.tried.accepts haccepted⟩⟩
  | gaveUp _ hended =>
    obtain ⟨hlower, hstep, hupper⟩ := h.inside hinitial
    refine ⟨hlower.trans_lt hstep, .inr ⟨?_, hstep, hupper⟩⟩
    rcases hended with hspent | hcollapsed
    · exact .inl hspent
    · right
      cases hbracket : (bracket trials).2 with
      | none => simp [hbracket, collapsed] at hcollapsed
      | some u =>
        simp only [hbracket, collapsed, FieldScalar.less_iff, FieldScalar.abs_eq] at hcollapsed
        exact ⟨u, rfl, (le_abs_self _).trans_lt hcollapsed⟩

/-- A search from its first trial on is a course. -/
theorem Searches.course_of_start {count : Nat} {found : Result α}
    (h : Searches l p count 0 0 none p.initialStep found) :
    Course l p found.trials ∧ found.trials.length ≤ count ∧ Ends p count found.trials found.step := by
  have stands : Stands l p [] 0 0 none p.initialStep :=
    ⟨.start, by simp, rfl, by simp, rfl⟩
  simpa using h.course stands

/-- The step that a search finds is positive. -/
theorem Searches.step_pos {count : Nat} {found : Result α}
    (h : Searches l p count 0 0 none p.initialStep found) (hinitial : 0 < p.initialStep) :
    0 < found.step := by
  obtain ⟨course, _, hends⟩ := h.course_of_start
  exact (course.ends hends hinitial).1

/-- **The bracket of a search.** Along a line with values a search finds a positive step, after one trial
at least and one more than the limit at most. Every trial is where it belongs after those before it.
Either the last trial passed both tests and is the step, or all trials have been made or the bracket has
collapsed, and the step lies strictly inside of the bracket that is left. -/
theorem search_brackets {n : Nat} (h : l.Total n) (hparams : p.check = .ok ()) (limit : Nat) :
    ∃ found, search l p limit = .ok found ∧ found.trials ≠ [] ∧ found.trials.length ≤ limit + 1 ∧
      (∀ before t after, found.trials = before ++ t :: after → t.Placed l p before) ∧
      0 < found.step ∧
      ((∃ t, found.trials.getLast? = some t ∧ found.step = t.step ∧ l.Accepts p found.step) ∨
        (found.trials.length = limit + 1 ∨
          ∃ u, (bracket found.trials).2 = some u ∧ u - (bracket found.trials).1 < p.minInterval) ∧
        (bracket found.trials).1 < found.step ∧ ∀ u ∈ (bracket found.trials).2, found.step < u) := by
  obtain ⟨_, _, _, hinitial⟩ := Params.check_eq_ok hparams
  obtain ⟨found, hfound⟩ := h.search (p := p) limit
  have hleft : ((limit : Int) + 1).toNat = limit + 1 := by omega
  rw [search, hleft] at hfound
  have hsearches := resume_searches hfound
  rw [RingScalar.zero_literal] at hsearches
  obtain ⟨course, hlength, hends⟩ := hsearches.course_of_start
  refine ⟨found, ?_, hsearches.trials_ne_nil, hlength, ?_, course.ends hends hinitial⟩
  · rw [search, hleft]
    exact hfound
  · intro before t after heq
    exact course.placed hinitial heq

/-! ## A search that gives up -/

/-- A line that stays as steep as it starts, up to a cliff. -/
def cliffLine : Line ℚ where
  start := [0]
  direction := [1]
  value xs := .ok (if xs.getD 0 0 ≤ 5 / 2 then 0 else 10)
  gradient _ := .ok [-6]
  startValue := 9
  startSlope := -6

/-- The trials 1, 2, 4, 3 and 5/2 are made, and the step is in the middle of the bracket left. -/
theorem cliffLine_brackets : ∃ found : Result ℚ,
    search cliffLine Params.standard 4 = .ok found ∧ found.trials.map Trial.step = [1, 2, 4, 3, 5 / 2] ∧
      bracket found.trials = (5 / 2, some 3) ∧ found.step = 11 / 4 ∧ 0 < found.step ∧
      ∀ before t after, found.trials = before ++ t :: after →
        t.Placed cliffLine Params.standard before := by
  have total : cliffLine.Total 1 := ⟨rfl, rfl, fun _ _ => ⟨_, rfl⟩, fun _ _ => ⟨_, rfl, rfl⟩⟩
  have hparams : (Params.standard : Params ℚ).check = .ok () := by decide +kernel
  obtain ⟨found, hfound, _, _, hplaced, hpos, _⟩ := search_brackets total hparams 4
  have htest : (search cliffLine Params.standard 4).toOption.any (fun found =>
      decide (found.trials.map Trial.step = [1, 2, 4, 3, 5 / 2]) &&
        decide (bracket found.trials = (5 / 2, some 3)) && decide (found.step = 11 / 4)) = true := by
    decide +kernel
  rw [show search cliffLine Params.standard 4 = .ok found from hfound] at htest
  simp only [Except.toOption, Option.any_some, Bool.and_eq_true, decide_eq_true_eq] at htest
  exact ⟨found, hfound, htest.1.1, htest.1.2, htest.2, hpos, hplaced⟩

end DiagramLayout.LineSearch
