import DiagramLayout.Proofs.Lbfgs.Positive
import DiagramLayout.Proofs.LineSearch.Bracket
import DiagramLayout.Proofs.Optimizer.Memory

/-!
# Accepted steps keep the memory alive

A step that passes both tests of the search has met enough curvature for the estimate of the next
iteration to be positive. So as long as all steps are accepted, the memory is never emptied.
-/

namespace DiagramLayout

/-- In a ring a step against a direction is a step along its negative. -/
theorem Vec.add_scale_neg {α : Type} [RingScalar α] {u v : List α} (h : u.length = v.length) (t : α) :
    u.zipWith (· + ·) (scale t (neg v)) = sub u (scale t v) := by
  induction u generalizing v with
  | nil => simp [sub]
  | cons a u ih =>
    cases v with
    | nil => cases h
    | cons b v =>
      have htail := ih (Nat.succ.inj h)
      simp only [scale, neg, sub, List.map_cons, List.zipWith_cons_cons, List.cons.injEq] at htail ⊢
      exact ⟨by ring, htail⟩

namespace Optimizer

open Lbfgs
open Event (visited sinceRound)

/-! ## Accepted iterations -/

section
variable {α : Type} [Scalar α]

/-- Every iteration comes right after a trial that passed both tests, at a point where the gradient
is not zero. The trial before the events is given. -/
def accepts (e : WeightedEnergy α) : Option (LineSearch.Trial α) → List (Event α) → Bool
  | _, [] => true
  | _, .trial t :: events => accepts e (some t) events
  | last, .iteration i :: events =>
    last.any LineSearch.Trial.accepted &&
      (match e.gradient i.values with
        | .ok g => g.any fun a => !Scalar.same a 0.0
        | .error _ => false) &&
      accepts e none events
  | _, _ :: events => accepts e none events

variable {e : WeightedEnergy α}

theorem accepts_append {last : Option (LineSearch.Trial α)} {before after : List (Event α)}
    (h : accepts e last (before ++ after) = true) :
    accepts e last before = true ∧ ∃ last', accepts e last' after = true := by
  induction before generalizing last with
  | nil => exact ⟨by simp [accepts], last, h⟩
  | cons event before ih =>
    cases event with
    | trial t => exact ih h
    | iteration i =>
      simp only [List.cons_append, accepts, Bool.and_eq_true] at h ⊢
      obtain ⟨hbefore, hafter⟩ := ih h.2
      exact ⟨⟨h.1, hbefore⟩, hafter⟩
    | status old new => exact ih h
    | warning w => exact ih h

/-- The trial before an iteration is the last one. -/
theorem accepts_trials {last : Option (LineSearch.Trial α)} {trials : List (LineSearch.Trial α)}
    (htrials : trials ≠ []) {i : Iteration α}
    (h : accepts e last (trials.map .trial ++ [.iteration i]) = true) :
    (∃ t, trials.getLast? = some t ∧ t.accepted = true) ∧
      ∃ g, e.gradient i.values = .ok g ∧ g.any (fun a => !Scalar.same a 0.0) = true := by
  induction trials generalizing last with
  | nil => exact absurd rfl htrials
  | cons t trials ih =>
    cases trials with
    | nil =>
      simp only [List.map_cons, List.map_nil, List.cons_append, List.nil_append, accepts,
        Option.any_some, Bool.and_true, Bool.and_eq_true] at h
      obtain ⟨haccepted, hgradient⟩ := h
      refine ⟨⟨t, rfl, haccepted⟩, ?_⟩
      split at hgradient
      · next g hg => exact ⟨g, hg, hgradient⟩
      · cases hgradient
    | cons t' trials =>
      obtain ⟨⟨t'', hlast, haccepted⟩, hgradient⟩ := @ih (some t) (List.cons_ne_nil _ _) h
      exact ⟨⟨t'', by simpa using hlast, haccepted⟩, hgradient⟩

end

variable {α : Type} [FieldScalar α] {o : Optimizer α} {s : State α} {e : WeightedEnergy α}
  {m : Memory α} {xs : List α} {r : Reading α}

/-! ## Living memories -/

/-- Every pair has positive curvature. -/
def Curved (pairs : List (Pair α)) : Prop := ∀ p ∈ pairs, 0 < Vec.dot p.s p.y

/-- The pairs of a memory have positive curvature, and so has the one that the next call adds. -/
def Alive (e : WeightedEnergy α) (m : Memory α) (xs : List α) : Prop :=
  ∃ visits, m.Holds e.energy.count visits ∧ Curved (differences visits) ∧
    ∀ g, e.gradient xs = .ok g → Curved (differences (⟨xs, g⟩ :: visits))

theorem alive_empty (e : WeightedEnergy α) (capacity : Nat) (xs : List α) :
    Alive e { capacity } xs :=
  ⟨[], .empty _ _, by simp [Curved], by simp [Curved]⟩

/-- A living memory gives a direction that descends, and has one visit more then. -/
theorem Alive.precondition {g : List α} (h : Alive e m xs) (hx : xs.length = e.energy.count)
    (hgradient : e.gradient xs = .ok g) (hpos : 0 < pairing g g) :
    ∃ q m', m.precondition xs g = .ok (q, m') ∧ 0 < Vec.dot q g ∧ m'.steps = m.steps + 1 ∧
      ∃ visits, m'.Holds e.energy.count (⟨xs, g⟩ :: visits) ∧
        Curved (differences (⟨xs, g⟩ :: visits)) := by
  obtain ⟨visits, holds, _, hnext⟩ := h
  have hg := e.length_gradient hgradient
  have hpush := holds.push hx hg
  have hkept : Curved (differences ((⟨xs, g⟩ :: visits).take (m.capacity + 1))) := by
    intro p hp
    rw [differences_take] at hp
    exact hnext g hgradient p (List.mem_of_mem_take hp)
  rw [holds.precondition_eq hx hg]
  by_cases hsteps : m.steps = 0
  · obtain rfl := holds.eq_nil_iff.mpr hsteps
    refine ⟨g, _, if_pos hsteps, by rwa [Vec.dot_eq_pairing], by simp [hsteps], [], ?_, ?_⟩
    · exact .single _ hx hg
    · simp [Curved]
  · have hfits := fits_differences hpush.sizes
    rw [← hg] at hfits
    obtain ⟨q, hq, hdescends⟩ := twoLoop_of_positive hfits (.of_forall hkept) hpos
    refine ⟨q, _, ?_, hdescends, rfl, visits.take m.capacity, hpush, hkept⟩
    simp only [hsteps, ↓reduceIte, hq, bind, Except.bind]
    exact if_pos (by simpa using hdescends)

/-- A point of the line that is searched is where the step leads. -/
theorem line_point_eq {t : α} {point : List α} (hlength : xs.length = r.slopes.direction.length)
    (hpoint : (line e xs r).point t = .ok point) :
    point = Vec.sub xs (Vec.scale t r.slopes.direction) := by
  simp [LineSearch.Line.point, line, Vec.pairwise?, hlength] at hpoint
  rw [← hpoint, Vec.add_scale_neg hlength]

/-- An accepted step meets positive curvature: the slope along it has grown. -/
theorem curved_of_flattens {t : α} (hx : xs.length = e.energy.count)
    (hd : r.slopes.direction.length = e.energy.count)
    (hg : r.slopes.gradient.length = e.energy.count)
    (hparams : o.lineSearch.curvature < 1) (ht : 0 < t)
    (hdescends : 0 < Vec.dot r.slopes.direction r.slopes.gradient)
    (hflattens : (line e xs r).flattens o.lineSearch t = .ok true) {g : List α}
    (hgradient : e.gradient (Vec.sub xs (Vec.scale t r.slopes.direction)) = .ok g) :
    0 < Vec.dot (Vec.sub (Vec.sub xs (Vec.scale t r.slopes.direction)) xs)
      (Vec.sub g r.slopes.gradient) := by
  obtain ⟨point, g', hpoint, hfound, _, hle⟩ := LineSearch.Line.flattens_eq_ok _ hflattens
  obtain rfl := line_point_eq (hx.trans hd.symm) hpoint
  obtain rfl : g = g' := Except.ok.inj (hgradient.symm.trans hfound)
  have hg' := e.length_gradient hgradient
  have hslope : Vec.dot (line e xs r).direction g = -pairing r.slopes.direction g := by
    rw [line, Vec.dot_eq_pairing, Vec.pairing_neg]
  have hstart : (line e xs r).startSlope = -pairing r.slopes.direction r.slopes.gradient := by
    simp [line, Vec.dot_eq_pairing, Vec.pairing_neg]
  rw [FieldScalar.atMost_iff, hslope, hstart] at hle
  rw [Vec.dot_eq_pairing] at hdescends ⊢
  have hgrowth : 0 < pairing r.slopes.direction r.slopes.gradient - pairing r.slopes.direction g := by
    nlinarith
  calc 0 < t * (pairing r.slopes.direction r.slopes.gradient - pairing r.slopes.direction g) :=
        mul_pos ht hgrowth
    _ = pairing (Vec.sub (Vec.sub xs (Vec.scale t r.slopes.direction)) xs)
          (Vec.sub g r.slopes.gradient) := by
      rw [Vec.pairing_sub (by simp [hx, hd]), Vec.pairing_sub (by simp [hx, hd]), Vec.pairing_scale,
        pairing_comm r.slopes.direction (Vec.sub g r.slopes.gradient),
        Vec.pairing_sub (by simp [hg, hg']), pairing_comm g, pairing_comm r.slopes.gradient]
      ring

/-! ## Walks of accepted steps -/

/-- The search of an accepted step: it ended at a positive step that passes both tests. -/
theorem stepLength_accepted {found : LineSearch.Result α} (hsearches : o.searches = true)
    (hparams : o.lineSearch.check = .ok ()) (hfound : o.stepLength e xs r = .ok found) :
    found.trials ≠ [] ∧ 0 < found.step ∧
      ((∃ t, found.trials.getLast? = some t ∧ t.accepted = true) →
        (line e xs r).decreases o.lineSearch found.step = .ok true ∧
          (line e xs r).flattens o.lineSearch found.step = .ok true) := by
  obtain ⟨_, _, hsteps, hinitial⟩ := LineSearch.Params.check_eq_ok hparams
  obtain ⟨left, hleft⟩ : ∃ left, (o.lineSearch.maxSteps + 1).toNat = left + 1 :=
    ⟨o.lineSearch.maxSteps.toNat, by omega⟩
  simp only [stepLength, hsearches, ↓reduceIte, LineSearch.search, hleft] at hfound
  have course := LineSearch.resume_searches hfound
  rw [RingScalar.zero_literal] at course
  refine ⟨course.trials_ne_nil, ?_, ?_⟩
  · exact course.step_pos hinitial
  · rintro ⟨t, hlast, haccepted⟩
    exact course.passes hlast haccepted

/-- An accepted step leaves a living memory. -/
theorem Alive.move {trials : List (LineSearch.Trial α)} {step : α} {next : List α}
    {number : Nat} {last : Option (LineSearch.Trial α)} (h : Alive e m xs)
    (hsearches : o.searches = true) (hparams : o.lineSearch.check = .ok ())
    (hiterate : o.iterate e xs m = .moved r trials step next)
    (haccepts : accepts e last (trials.map .trial ++ [.iteration (row s number xs r step)]) = true) :
    Alive e r.memory next ∧ r.memory.steps = m.steps + 1 := by
  obtain ⟨reading, _, hfound, rfl, _⟩ := iterate_moved hiterate
  obtain ⟨htrials, hstep, hpasses⟩ := stepLength_accepted hsearches hparams hfound
  obtain ⟨haccepted, g, hgradient, hnonzero⟩ := accepts_trials htrials haccepts
  obtain rfl : g = r.slopes.gradient := Except.ok.inj (hgradient.symm.trans reading.gradient)
  have hpos : 0 < pairing r.slopes.gradient r.slopes.gradient :=
    pairing_self_pos (by simpa using hnonzero)
  have hx := reading.length_values
  obtain ⟨q, m', hresult, hdescends, hsteps, visits, holds, hcurved⟩ :=
    h.precondition hx reading.gradient hpos
  obtain ⟨rfl, rfl⟩ := Prod.mk.inj (Except.ok.inj (hresult.symm.trans reading.direction))
  have hdirection := (Memory.length_of_precondition reading.direction).trans hx
  have hcurvature := (LineSearch.Params.check_eq_ok hparams).1.2.2
  refine ⟨⟨_, holds, hcurved, ?_⟩, hsteps⟩
  intro g hg
  rw [differences_cons, Curved, List.forall_mem_cons]
  constructor
  · exact curved_of_flattens hx hdirection reading.length_gradient hcurvature hstep hdescends
      (hpasses haccepted).2 hg
  · exact hcurved

/-- A walk of accepted steps leaves a living memory, with one step more for every iteration. -/
theorem Walk.alive {start : List α} {memory : Memory α} {number : Nat} {events before : List (Event α)}
    (walk : Walk o s e start memory number events xs m) (h : Alive e memory start)
    (hsearches : o.searches = true) (hparams : o.lineSearch.check = .ok ())
    (haccepts : accepts e none (before ++ events) = true) :
    Alive e m xs ∧ m.steps = memory.steps + (visited events).length := by
  induction walk with
  | start => exact ⟨h, by simp⟩
  | @move number events xs next m r trials step _ hiterate ih =>
    rw [List.append_assoc, ← List.append_assoc] at haccepts
    obtain ⟨hbefore, last, hmove⟩ := accepts_append haccepts
    obtain ⟨halive, hsteps⟩ := ih hbefore
    obtain ⟨halive', hsteps'⟩ := halive.move hsearches hparams hiterate hmove
    refine ⟨halive', ?_⟩
    simp [hsteps', hsteps]
    omega

/-! ## Phases of a run -/

/-- The memory of a state is alive if all steps since the round was opened were accepted, and it
counts them. -/
def Lives (log : List (Event α)) (s : State α) : Prop :=
  s.status = .running → ∀ e, s.objective = some e → accepts e none (sinceRound log) = true →
    Alive e s.memory s.values ∧ s.memory.steps = (visited (sinceRound log)).length

/-- A step of a run keeps the memory alive. -/
theorem Stepped.lives {s₀ s' : State α} {log events : List (Event α)} {budget : Nat}
    (h : Stepped o s budget s' events) (c : Coherent o s₀ log s) (hsearches : o.searches = true)
    (hparams : o.lineSearch.check = .ok ()) (hlives : Lives log s) : Lives (log ++ events) s' := by
  intro hrunning' e' he' haccepts
  cases h with
  | idle =>
    rw [List.append_nil] at haccepts ⊢
    exact hlives hrunning' e' he' haccepts
  | @started _ _ _ events _ _ _ _ hmemory =>
    obtain ⟨_, rfl⟩ := Memory.fresh_eq_ok_iff.mp hmemory
    rw [Event.sinceRound_opened log events rfl]
    exact ⟨alive_empty _ _ _, rfl⟩
  | @phase e further d events _ hrunning he _ hended =>
    obtain rfl : e = e' := Option.some.inj (he.symm.trans he')
    have hgoing : phaseConverged d.reading.decrement o.phaseStop = false := by
      cases hconverged : phaseConverged d.reading.decrement o.phaseStop with
      | false => rfl
      | true => simp [afterPhase, hconverged] at hrunning'
    rw [hrunning', Event.change, if_pos rfl, List.append_nil,
      Event.sinceRound_append hended.not_opensRound] at haccepts ⊢
    obtain ⟨halive, hsteps⟩ := hlives hrunning e he (accepts_append haccepts).1
    cases hended with
    | settled _ _ hiterate =>
      rw [(iterate_settled hiterate).2.2] at hgoing
      cases hgoing
    | spent walk hiterate =>
      obtain ⟨halive', hsteps'⟩ := (walk.move hiterate).alive halive hsearches hparams haccepts
      simp only [afterPhase, hgoing, Bool.false_eq_true, ↓reduceIte]
      refine ⟨halive', ?_⟩
      rw [hsteps', hsteps, Event.visited_append (sinceRound log), List.length_append]
      omega
  | converged => cases hrunning'
  | continued _ hsettled =>
    have hempty := c.emptied (.inr (.inl hsettled))
    rw [← List.nil_append [Event.status .settled .running], Event.sinceRound_opened log [] rfl]
    simp only
    rw [hempty]
    exact ⟨alive_empty _ _ _, rfl⟩
  | failed => cases hrunning'

theorem History.lives {s₀ : State α} {log : List (Event α)} (h : o.History s₀ log s)
    (hsearches : o.searches = true) (hparams : o.lineSearch.check = .ok ()) : Lives log s := by
  refine h.steps ?_ ?_ ?_
  · intro _ _ _ _ hstart hrunning
    obtain ⟨_, _, _, _, _, _, rfl⟩ := start_eq_ok hstart
    cases hrunning
  · intro _ _ _ _ _ history hstep hlives
    exact hstep.lives history.coherent hsearches hparams hlives
  · intro _ _ _ _ _ hresample _ hrunning
    obtain ⟨_, _, _, rfl⟩ := resample_eq_ok hresample
    cases hrunning

/-- **Accepted steps keep the memory alive.** While all steps of a phase are accepted, every pair has
positive curvature and the memory counts the iterations. Where the next gradient is not zero it gives
a direction that descends, and counts one more. -/
theorem History.memory_alive {s₀ : State α} {log later : List (Event α)} {number : Nat}
    (h : o.History s₀ log s) (hsearches : o.searches = true)
    (hparams : o.lineSearch.check = .ok ()) (hrunning : s.status = .running)
    (he : s.objective = some e) (walk : Walk o s e s.values s.memory number later xs m)
    (haccepts : accepts e none (sinceRound log ++ later) = true) :
    Curved m.pairs ∧ m.steps = (visited (sinceRound log ++ later)).length ∧
      ∀ g, e.gradient xs = .ok g → (∃ a ∈ g, a ≠ 0) →
        ∃ q m', m.precondition xs g = .ok (q, m') ∧ 0 < Vec.dot q g ∧
          m'.steps = m.steps + 1 ∧ Curved m'.pairs := by
  obtain ⟨halive, hsteps⟩ := h.lives hsearches hparams hrunning e he (accepts_append haccepts).1
  obtain ⟨halive', hsteps'⟩ := walk.alive halive hsearches hparams haccepts
  have hlength : xs.length = e.energy.count := by
    have hrecalls := h.coherent.running hrunning e he
    exact (walk.recalls hrecalls (h.coherent.objective_count hrunning he)).2.2
  refine ⟨?_, ?_, ?_⟩
  · obtain ⟨visits, holds, hcurved, _⟩ := halive'
    rwa [holds.pairs]
  · rw [hsteps', hsteps, Event.visited_append (sinceRound log), List.length_append]
    omega
  · intro g hgradient hnonzero
    obtain ⟨q, m', hresult, hdescends, hcount, visits, holds, hcurved⟩ :=
      halive'.precondition hlength hgradient (pairing_self_pos hnonzero)
    exact ⟨q, m', hresult, hdescends, hcount, by rwa [holds.pairs]⟩

theorem towardsThree_memory_alive : ∃ s₀ log s e, shortSteps.History s₀ log s ∧
    s.objective = some e ∧ (visited (sinceRound log)).length = 2 ∧
      accepts e none (sinceRound log) = true ∧ s.memory.steps = 2 ∧ s.memory.pairs ≠ [] ∧
      Curved s.memory.pairs ∧ ∃ g q m', e.gradient s.values = .ok g ∧
        s.memory.precondition s.values g = .ok (q, m') ∧ 0 < Vec.dot q g ∧ m'.steps = 3 ∧
          Curved m'.pairs := by
  obtain ⟨s₀, log, s, history, htest⟩ := towardsThree_history
    (fun log s => decide (s.status = .running) && !s.memory.pairs.isEmpty &&
      (visited (sinceRound log)).length == 2 &&
      s.objective.any fun e => accepts e none (sinceRound log) &&
        (e.gradient s.values).toOption.any fun g => decide (∃ a ∈ g, a ≠ 0)) (by decide +kernel)
  simp only [Bool.and_eq_true, decide_eq_true_eq, Option.any_eq_true, beq_iff_eq] at htest
  obtain ⟨⟨⟨hrunning, hpairs⟩, hlength⟩, e, he, haccepts, g, hgradient, hnonzero⟩ := htest
  have hparams : shortSteps.lineSearch.check = .ok () := by decide +kernel
  obtain ⟨hcurved, hsteps, hnext⟩ := history.memory_alive rfl hparams hrunning he .start
    (by simpa using haccepts)
  rw [List.append_nil, hlength] at hsteps
  obtain ⟨q, m', hresult, hdescends, hcount, hcurved'⟩ :=
    hnext g (toOption_eq_some_iff.mp hgradient) hnonzero
  refine ⟨s₀, log, s, e, history, he, hlength, haccepts, hsteps, by simpa using hpairs, hcurved, g, q,
    m', toOption_eq_some_iff.mp hgradient, hresult, hdescends, ?_, hcurved'⟩
  rw [hcount, hsteps]
  rfl

end Optimizer

end DiagramLayout
