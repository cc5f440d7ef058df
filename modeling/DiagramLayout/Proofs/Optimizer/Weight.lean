import DiagramLayout.Proofs.Optimizer.Transitions
import DiagramLayout.Scalar.Double

namespace DiagramLayout

variable {α : Type} [Scalar α]

namespace Optimizer

open Event (sinceRound)

variable {o : Optimizer α} {s s₀ s' : State α} {log events : List (Event α)} {e : WeightedEnergy α}

/-! ## Weights -/

/-- The weight of a round: the initial weight, times the growth factor once for every round before. -/
def roundWeight (o : Optimizer α) : Nat → α
  | 0 => o.initialWeight
  | round + 1 => o.growth * o.roundWeight round

theorem Stepped.weight_eq {budget : Nat} (h : Stepped o s budget s' events)
    (hweight : s.weight = o.roundWeight s.round) : s'.weight = o.roundWeight s'.round := by
  cases h with
  | idle | phase | converged | failed => exact hweight
  | started => rfl
  | continued =>
    simp only [roundWeight]
    rw [hweight]

theorem History.weight_eq (h : o.History s₀ log s) : s.weight = o.roundWeight s.round := by
  refine h.steps (P := fun _ s => s.weight = o.roundWeight s.round) ?_ ?_ ?_
  · intro _ _ _ _ hstart
    obtain ⟨_, _, _, _, _, _, rfl⟩ := start_eq_ok hstart
    rfl
  · intro _ _ _ _ _ _ hstep hweight
    exact hstep.weight_eq hweight
  · intro _ _ _ _ _ hresample _
    obtain ⟨_, _, _, rfl⟩ := resample_eq_ok hresample
    rfl

/-! ## Reports -/

/-- What an event reports in a round: the round and its weight, and what was read and searched with
the energy at this weight. -/
def ReportedIn (o : Optimizer α) (e : WeightedEnergy α) (round : Nat) : Event α → Prop
  | .trial t => ∃ m xs r, IsReading e m xs r ∧ (line e xs r).Tried o.lineSearch t
  | .iteration i => i.round = round ∧ i.weight = e.weight ∧
      ∃ m r trials, IsReading e m i.values r ∧ i.energy = r.energy ∧ i.decrement = r.decrement ∧
        o.stepLength e i.values r = .ok ⟨i.step, trials⟩
  | .warning (.noLayout _ round' weight) => round' = round ∧ weight = e.weight
  | _ => True

theorem stepLength_tried {xs : List α} {r : Reading α} {found : LineSearch.Result α}
    (h : o.stepLength e xs r = .ok found) :
    ∀ t ∈ found.trials, (line e xs r).Tried o.lineSearch t := by
  unfold stepLength at h
  split at h
  · exact (LineSearch.resume_searches h).tried
  · cases h
    simp

theorem reportedIn_trials {m : Lbfgs.Memory α} {xs : List α} {r : Reading α}
    {found : LineSearch.Result α} {round : Nat} (reading : IsReading e m xs r)
    (h : o.stepLength e xs r = .ok found) :
    ∀ event ∈ found.trials.map Event.trial, ReportedIn o e round event := by
  intro event hevent
  obtain ⟨t, ht, rfl⟩ := List.mem_map.mp hevent
  exact ⟨m, xs, r, reading, stepLength_tried h t ht⟩

theorem Walk.reported {start xs : List α} {memory m : Lbfgs.Memory α} {number : Nat}
    (walk : Walk o s e start memory number events xs m) (hweight : s.weight = e.weight) :
    ∀ event ∈ events, ReportedIn o e s.round event := by
  induction walk with
  | start => simp
  | @move number events xs next m r trials step _ hiterate ih =>
    obtain ⟨reading, _, hfound, _⟩ := iterate_moved hiterate
    have hrow : ReportedIn o e s.round (.iteration (row s number xs r step)) :=
      ⟨rfl, hweight, m, r, trials, reading, rfl, rfl, hfound⟩
    simp only [List.forall_mem_append, List.forall_mem_singleton]
    exact ⟨⟨ih, reportedIn_trials reading hfound⟩, hrow⟩

theorem Ended.reported {start : List α} {memory : Lbfgs.Memory α} {further : Nat}
    {ending : Except Interruption (Descent α)}
    (h : Ended o s e start memory further events ending) (hweight : s.weight = e.weight) :
    ∀ event ∈ events, ReportedIn o e s.round event := by
  cases h with
  | settled walk _ _ => exact walk.reported hweight
  | spent walk hiterate => exact (walk.move hiterate).reported hweight
  | @interrupted number events xs m trials cause walk _ hiterate =>
    have htrials : ∀ event ∈ trials.map Event.trial, ReportedIn o e s.round event := by
      have hends := o.iterates e xs m
      rw [hiterate] at hends
      cases hends with
      | unread | unsearched => simp
      | unfinished reading hfound _ => exact reportedIn_trials reading hfound
    exact List.forall_mem_append.mpr ⟨walk.reported hweight, htrials⟩

/-- Before a step is reported there are the events of its phase, or the warning of a problem that is
compiled. -/
theorem advance_events (o : Optimizer α) (s : State α) (store : Option (Shapes.Store α)) (budget : Nat) :
    (∃ e further, s.status = .running ∧ s.objective = some e ∧
      (o.advance s store budget).2.1 = (o.descend s e further 0 s.values s.memory).1) ∨
    ∀ event ∈ (o.advance s store budget).2.1, event = .warning .emptyProblem := by
  unfold advance
  split
  · exact .inr (by simp)
  · split
    · refine .inr ?_
      simp only [startRound]
      split
      · simp
      · unfold compile
        split
        · split <;> simp
        · simp
    · next hrunning =>
      unfold runPhase
      split
      · exact .inr (by simp)
      · next further =>
        split
        · exact .inr (by simp)
        · next e he =>
          refine .inl ⟨e, further, hrunning, he, ?_⟩
          split
          · next hdescend => rw [hdescend]
          · next hdescend => rw [hdescend]
    · exact .inr (by simp)
    · exact .inr (by simp)

/-- Whatever a step ends with, it reports what happened before its end, and then a change of status or
the warning of a failure. -/
theorem step_events (o : Optimizer α) (s : State α) (store : Option (Shapes.Store α)) (budget : Int) :
    (o.step s store budget).events = [] ∨
    ∃ report, (o.step s store budget).events = (o.advance s store budget.toNat).2.1 ++ report ∧
      ∀ event ∈ report, (∃ old new, event = .status old new) ∨
        ∃ cause, event = .warning (.noLayout cause s.round s.weight) := by
  have hchange (status : Status) (event : Event α) (h : event ∈ Event.change s.status status) :
      ∃ old new, event = .status old new := by
    unfold Event.change at h
    split at h
    · cases h
    · exact ⟨_, _, List.mem_singleton.mp h⟩
  unfold step
  split
  · exact .inl rfl
  · split
    · exact .inl rfl
    · refine .inr ?_
      split
      · next heq => exact ⟨[], by rw [heq, List.append_nil], by simp⟩
      · next heq => exact ⟨_, by rw [heq], fun event h => .inl (hchange _ event h)⟩
      · next heq =>
        refine ⟨_, by rw [heq], List.forall_mem_cons.mpr ⟨.inr ⟨_, rfl⟩, ?_⟩⟩
        exact fun event h => .inl (hchange _ event h)
      · next heq => exact ⟨[], by rw [heq, List.append_nil], by simp⟩

/-- An event that a step reports is one of its phase, a warning or a change of status. -/
theorem mem_step_events {store : Option (Shapes.Store α)} {budget : Int} {event : Event α}
    (h : event ∈ (o.step s store budget).events) :
    (∃ e further, s.status = .running ∧ s.objective = some e ∧
        event ∈ (o.descend s e further 0 s.values s.memory).1) ∨
      event = .warning .emptyProblem ∨ (∃ old new, event = .status old new) ∨
      ∃ cause, event = .warning (.noLayout cause s.round s.weight) := by
  rcases o.step_events s store budget with hnil | ⟨report, heq, hreport⟩
  · rw [hnil] at h
    cases h
  · rw [heq] at h
    rcases List.mem_append.mp h with h | h
    · rcases o.advance_events s store budget.toNat with ⟨e, further, hrunning, he, heq⟩ | hwarning
      · rw [heq] at h
        exact .inl ⟨e, further, hrunning, he, h⟩
      · exact .inr (.inl (hwarning event h))
    · exact .inr (.inr (hreport event h))

/-- Whatever a step ends with, its reports are of the round of its state. -/
theorem Coherent.step_reported (c : Coherent o s₀ log s) {energy : Energy α}
    (henergy : s.energy = some energy) (store : Option (Shapes.Store α)) (budget : Int) :
    ∀ event ∈ (o.step s store budget).events, ReportedIn o ⟨energy, s.weight⟩ s.round event := by
  intro event hevent
  rcases mem_step_events hevent with ⟨e, further, hrunning, he, hphase⟩ | rfl | ⟨_, _, rfl⟩ | ⟨_, rfl⟩
  · obtain rfl := Option.some.inj (he.symm.trans (c.objective_eq henergy (.inl hrunning)).2)
    exact (o.descend_ended s _ further s.values s.memory).reported rfl event hphase
  · trivial
  · trivial
  · exact ⟨rfl, rfl⟩

/-! ## Rounds of a run -/

/-- A step opens a round with its last event, or it stays in its round. -/
theorem Stepped.opens_or_stays {budget : Nat} (h : Stepped o s budget s' events) :
    (∃ before event, events = before ++ [event] ∧ event.opensRound = true) ∨
      (∀ event ∈ events, ¬event.opensRound) ∧ s'.energy = s.energy ∧ s'.weight = s.weight ∧
        s'.round = s.round := by
  cases h with
  | idle => exact .inr ⟨by simp, rfl, rfl, rfl⟩
  | started => exact .inl ⟨_, _, rfl, rfl⟩
  | @phase _ _ d _ _ _ _ _ hended =>
    have hclose : ∀ event ∈ (Event.change .running (o.afterPhase s d).status : List (Event α)),
        ¬event.opensRound := by
      rcases o.afterPhase_status s d with hstatus | hstatus <;> rw [hstatus]
      · simp [Event.change, Status.name, Event.opensRound]
      · simp [Event.change]
    exact .inr ⟨List.forall_mem_append.mpr ⟨hended.not_opensRound, hclose⟩, rfl, rfl, rfl⟩
  | converged => exact .inr ⟨by simp [Event.opensRound], rfl, rfl, rfl⟩
  | continued => exact .inl ⟨[], _, rfl, rfl⟩
  | @failed cause before _ hcause =>
    have hbefore : ∀ event ∈ before, ¬event.opensRound := by
      rcases hcause with ⟨_, rfl⟩ | ⟨_, _, _, _, _, hended⟩
      · simp
      · exact hended.not_opensRound
    refine .inr ⟨List.forall_mem_append.mpr ⟨hbefore, ?_⟩, rfl, rfl, rfl⟩
    simp [Event.opensRound]

/-- Everything reported since a round was opened is of this round. -/
theorem History.reported (h : o.History s₀ log s) :
    ∀ energy, s.energy = some energy →
      ∀ event ∈ sinceRound log, ReportedIn o ⟨energy, s.weight⟩ s.round event := by
  refine h.grows (P := fun log s => ∀ energy, s.energy = some energy →
    ∀ event ∈ sinceRound log, ReportedIn o ⟨energy, s.weight⟩ s.round event) ?_ ?_ ?_
  · intro _ _ _ _ _ _ _ event hevent
    cases hevent
  · intro log s next store budget history hresult hreported energy henergy event hevent
    rcases (step_stepped hresult).2.opens_or_stays with
      ⟨before, opening, hevents, hopens⟩ | ⟨hstays, henergy', hweight, hround⟩
    · rw [hevents, Event.sinceRound_opened log before hopens] at hevent
      cases hevent
    · rw [Event.sinceRound_append hstays] at hevent
      rw [henergy'] at henergy
      rw [hweight, hround]
      rcases List.mem_append.mp hevent with hold | hnew
      · exact hreported energy henergy event hold
      · exact history.coherent.step_reported henergy store budget event hnew
  · intro log s s' initial history hresample hreported energy henergy event hevent
    obtain ⟨values, _, hevents, rfl⟩ := resample_eq_ok hresample
    rw [hevents] at hevent
    by_cases hname : s.status.name = Status.fresh.name
    · -- A new start of a state without a step keeps its round.
      have hfresh : s.status = .fresh := by cases hs : s.status <;> simp_all [Status.name]
      rw [Event.change, if_pos hname, List.append_nil] at hevent
      have hkept := hreported energy henergy event hevent
      rw [history.weight_eq, (history.coherent.fresh hfresh).1] at hkept
      exact hkept
    · rw [Event.change, if_neg hname, ← List.nil_append [Event.status s.status .fresh],
        Event.sinceRound_opened log [] rfl] at hevent
      cases hevent

/-! ## Growing weights -/

theorem check_eq_ok {α : Type} [FieldScalar α] {o : Optimizer α} (h : o.check = .ok ()) :
    0 < o.initialWeight ∧ 1 < o.growth ∧ 0 < o.phaseStop := by
  obtain ⟨_, _, h⟩ := bind_eq_ok_iff.mp h
  obtain ⟨_, hweight, h⟩ := bind_eq_ok_iff.mp h
  obtain ⟨_, hgrowth, h⟩ := bind_eq_ok_iff.mp h
  obtain ⟨_, hstop, _⟩ := bind_eq_ok_iff.mp h
  rw [require_eq_ok_iff] at hweight hgrowth hstop
  simpa using And.intro hweight (And.intro hgrowth hstop)

/-- In exact arithmetic the weight of a later round is not less. -/
theorem atMost_roundWeight (hexact : Scalar.IsExact α) (hcheck : o.check = .ok ()) {m n : Nat}
    (h : m ≤ n) : Scalar.atMost (o.roundWeight m) (o.roundWeight n) = true := by
  obtain ⟨field, rfl⟩ := hexact
  obtain ⟨hweight, hgrowth, _⟩ := check_eq_ok hcheck
  have hpos (k : Nat) : 0 < o.roundWeight k := by
    induction k with
    | zero => exact hweight
    | succ k ih => exact mul_pos (one_pos.trans hgrowth) ih
  have hstep (k : Nat) : o.roundWeight k ≤ o.roundWeight (k + 1) :=
    le_mul_of_one_le_left (hpos k).le hgrowth.le
  exact (FieldScalar.atMost_iff _ _).mpr (monotone_nat_of_le_succ hstep h)

/-- Steps in a row never go back to an earlier round. -/
theorem History.round_le (h : o.History s₀ log s) (hsteps : o.Steps s events s') :
    s.round ≤ s'.round := by
  induction hsteps with
  | none => exact le_rfl
  | step store budget hsteps hresult ih =>
    have hround := (step_stepped hresult).2.round_eq (h.append hsteps).coherent
    split at hround <;> omega

theorem coversSteps_ne_weightGrows : CoversSteps (· ≠ .violated .weightGrows) := by
  constructor <;> simp

/-- **The weight of a round.** In every state of a run the weight is the initial one, times the growth
factor once for every round done. The energy that is minimized is the one at this weight, and
everything reported in a round, before a step or by it, is of this energy. In exact arithmetic the
weight does not fall from step to step, and no step or run ends because it would. -/
theorem History.weight_law (h : o.History s₀ log s) :
    ∃ energy, s.energy = some energy ∧ s.weight = o.roundWeight s.round ∧
      (s.status = .running ∨ s.status = .settled →
        energy.atWeight s.weight = .ok ⟨energy, s.weight⟩ ∧
          s.objective = some ⟨energy, s.weight⟩) ∧
      (∀ event ∈ sinceRound log, ReportedIn o ⟨energy, s.weight⟩ s.round event) ∧
      (∀ store budget, ∀ event ∈ (o.step s store budget).events,
        ReportedIn o ⟨energy, s.weight⟩ s.round event) ∧
      (Scalar.IsExact α → o.check = .ok () →
        (∀ events s', o.Steps s events s' → Scalar.atMost s.weight s'.weight = true) ∧
        (∀ store budget, (o.step s store budget).result ≠ .error (.violated .weightGrows)) ∧
        ∀ store budget calls,
          (o.run s store budget calls).result ≠ .error (.violated .weightGrows)) := by
  have c := h.coherent
  obtain ⟨energy, henergy, _⟩ := c.ready
  refine ⟨energy, henergy, h.weight_eq, c.objective_eq henergy, h.reported energy henergy,
    c.step_reported henergy, fun hexact hcheck => ?_⟩
  have hgrows {log : List (Event α)} {s : State α} (h : o.History s₀ log s) :
      Scalar.atMost s.weight (o.growth * s.weight) = true := by
    rw [h.weight_eq]
    exact atMost_roundWeight hexact hcheck s.round.le_succ
  refine ⟨?_, ?_, ?_⟩
  · intro events s' hsteps
    rw [h.weight_eq, (h.append hsteps).weight_eq]
    exact atMost_roundWeight hexact hcheck (h.round_le hsteps)
  · intro store budget hresult
    exact c.step_covered coversSteps_ne_weightGrows (by simp [hgrows h]) budget _ hresult rfl
  · intro store budget calls hresult
    exact h.run_covered coversSteps_ne_weightGrows (by simp) (fun h => by simp [hgrows h]) store
      budget calls _ hresult rfl

/-! ## A run through several rounds -/

/-- The standard settings in exact arithmetic. -/
def exactly : Optimizer ℚ := standard Catalog.library

/-- The standard settings in doubles. -/
def inDoubles : Optimizer Float := standard Catalog.library

/-- A run from zero to a variable of three. Its first search finds the minimum. -/
theorem straightToThree_history (budget calls : Int) (test : List (Event ℚ) → State ℚ → Bool)
    (h : ((exactly.start [⟨"equal", [.varying 0, .number 3], .objective⟩] [] (.array [.entry 0])
      none).result >>= fun s₀ =>
        let turn := exactly.run s₀ none budget calls
        turn.result.map (test turn.events)).toOption = some true) :
    ∃ s₀ log s, exactly.History s₀ log s ∧ test log s = true :=
  History.exists_of_run test h

theorem straightToThree_weight_law : ∃ s₀ log s energy, exactly.History s₀ log s ∧
    s.status = .settled ∧ s.round = 1 ∧ s.energy = some energy ∧ s.weight = 10 * (1 / 100) ∧
      s.objective = some ⟨energy, s.weight⟩ ∧
      (∀ event ∈ sinceRound log, ReportedIn exactly ⟨energy, s.weight⟩ 1 event) ∧
      (∀ events s', exactly.Steps s events s' → s.weight ≤ s'.weight) ∧
      ∀ store budget, (exactly.step s store budget).result ≠ .error (.violated .weightGrows) := by
  obtain ⟨s₀, log, s, history, htest⟩ := straightToThree_history 5 4
    (fun _ s => decide (s.status = .settled) && s.round == 1) (by decide +kernel)
  simp only [Bool.and_eq_true, decide_eq_true_eq, beq_iff_eq] at htest
  obtain ⟨hsettled, hround⟩ := htest
  obtain ⟨energy, henergy, hweight, hobjective, hreported, _, hexact⟩ := history.weight_law
  obtain ⟨hgrows, hstep, _⟩ := hexact Scalar.isExact_of_field (by decide +kernel)
  rw [hround] at hreported hweight
  refine ⟨s₀, log, s, energy, history, hsettled, hround, henergy, ?_, (hobjective (.inr hsettled)).2,
    hreported, ?_, hstep⟩
  · rw [hweight]
    decide +kernel
  · intro events s' hsteps
    exact (FieldScalar.atMost_iff _ _).mp (hgrows events s' hsteps)

end Optimizer

end DiagramLayout
