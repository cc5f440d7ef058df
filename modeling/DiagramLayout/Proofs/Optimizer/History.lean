import DiagramLayout.Optimizer.Step
import DiagramLayout.Proofs.Optimizer.Walk
import DiagramLayout.Proofs.Tensor

/-!
# The histories of a run

* `Optimizer.Stepped`, `Optimizer.step_stepped`: everything that a step can do;
* `Optimizer.Steps`, `Optimizer.run_keeps`, `Optimizer.run_steps`: steps in a row, which every run is;
* `Optimizer.Reached`: the states that steps and runs lead to;
* `Optimizer.History`: the states that a start, steps, runs and new starts lead to, with the events
  on the way;
* `Optimizer.History.grows`, `Optimizer.History.steps`: what the start has, and every step and every
  new start keeps, every history has.
-/

namespace DiagramLayout

variable {α : Type} [Scalar α]

namespace Optimizer

variable {o : Optimizer α} {s s' : State α} {store : Option (Shapes.Store α)}

/-! ## Steps -/

/-- Everything that a step can do: the state after it, and the events it reports. -/
inductive Stepped (o : Optimizer α) (s : State α) (budget : Nat) :
    State α → List (Event α) → Prop where
  /-- A run at its end, and a phase without a budget. -/
  | idle : s.status.isTerminal = true ∨
      ensureFinite .values s.values = .ok () ∧ s.status = .running ∧ budget = 0 →
      Stepped o s budget s []
  | started {energy : Energy α} {objective : WeightedEnergy α} {memory : Lbfgs.Memory α}
      {events : List (Event α)} : ensureFinite .values s.values = .ok () → s.status = .fresh →
      (s.energy = some energy ∧ events = [] ∨
        s.energy = none ∧ o.compile s.problem = (.ok energy, events)) →
      energy.atWeight o.initialWeight = .ok objective →
      Lbfgs.Memory.fresh o.historySize = .ok memory →
      Stepped o s budget
        { s with
          energy := some energy, weight := o.initialWeight, round := 0, phase := 0,
          objective := some objective, lastSlopes := some ⟨Vec.zeros s.count, Vec.zeros s.count⟩,
          memory, status := .running }
        (events ++ [.status .fresh .running])
  | phase {e : WeightedEnergy α} {further : Nat} {d : Descent α} {events : List (Event α)} :
      ensureFinite .values s.values = .ok () → s.status = .running → s.objective = some e →
      budget = further + 1 → Ended o s e s.values s.memory further events (.ok d) →
      Stepped o s budget (o.afterPhase s d)
        (events ++ Event.change .running (o.afterPhase s d).status)
  | converged : ensureFinite .values s.values = .ok () → s.status = .settled →
      o.hasConverged s = .ok true →
      Stepped o s budget { s with status := .converged, lastRound := s.lastPhase }
        [.status .settled .converged]
  | continued {energy : Energy α} {objective : WeightedEnergy α} :
      ensureFinite .values s.values = .ok () → s.status = .settled → o.hasConverged s = .ok false →
      Scalar.atMost s.weight (o.growth * s.weight) = true → s.energy = some energy →
      energy.atWeight (o.growth * s.weight) = .ok objective →
      Stepped o s budget
        { s with
          status := .running, weight := o.growth * s.weight, round := s.round + 1, phase := 0,
          objective := some objective, lastRound := s.lastPhase }
        [.status .settled .running]
  | failed {cause : NonFinite} {events : List (Event α)} : s.status.isTerminal = false →
      (ensureFinite .values s.values = .error (.numeric cause) ∧ events = [] ∨
        ∃ e further, s.status = .running ∧ s.objective = some e ∧ budget = further + 1 ∧
          Ended o s e s.values s.memory further events (.error (.numeric cause))) →
      Stepped o s budget { s with status := .failed (some cause.message) }
        (events ++ [.warning (.noLayout cause s.round s.weight),
          .status s.status (.failed (some cause.message))])

variable {budget : Nat} {events : List (Event α)}

theorem startRound_stepped (hfinite : ensureFinite .values s.values = .ok ())
    (hfresh : s.status = .fresh) {next : Option (State α)} (h : (o.startRound s).1 = .ok next) :
    ∃ s', next = some s' ∧
      Stepped o s budget s' ((o.startRound s).2 ++ Event.change s.status s'.status) := by
  have hready : ∃ energy, (s.energy = some energy ∧ (o.startRound s).2 = [] ∨
      s.energy = none ∧ o.compile s.problem = (.ok energy, (o.startRound s).2)) ∧
      ∃ objective memory, energy.atWeight o.initialWeight = .ok objective ∧
        Lbfgs.Memory.fresh o.historySize = .ok memory ∧
        next = some { s with
          energy := some energy, weight := o.initialWeight, round := 0, phase := 0,
          objective := some objective, lastSlopes := some ⟨Vec.zeros s.count, Vec.zeros s.count⟩,
          memory, status := .running } := by
    cases hs : s.energy with
    | some energy =>
      simp only [startRound, hs, Interruption.lift_eq_ok_iff] at h ⊢
      obtain ⟨_, henergy, h⟩ := bind_eq_ok_iff.mp h
      cases henergy
      obtain ⟨objective, hobjective, h⟩ := bind_eq_ok_iff.mp h
      obtain ⟨memory, hmemory, h⟩ := bind_eq_ok_iff.mp h
      cases h
      exact ⟨energy, by simp, objective, memory, hobjective, hmemory, rfl⟩
    | none =>
      simp only [startRound, hs, Interruption.lift_eq_ok_iff] at h ⊢
      obtain ⟨energy, henergy, h⟩ := bind_eq_ok_iff.mp h
      obtain ⟨objective, hobjective, h⟩ := bind_eq_ok_iff.mp h
      obtain ⟨memory, hmemory, h⟩ := bind_eq_ok_iff.mp h
      cases h
      exact ⟨energy, .inr ⟨trivial, Prod.ext henergy rfl⟩, objective, memory, hobjective, hmemory, rfl⟩
  obtain ⟨energy, henergy, objective, memory, hobjective, hmemory, rfl⟩ := hready
  refine ⟨_, rfl, ?_⟩
  rw [hfresh]
  exact .started hfinite hfresh henergy hobjective hmemory

theorem closeRound_stepped (hfinite : ensureFinite .values s.values = .ok ())
    (hsettled : s.status = .settled) {next : Option (State α)} (h : o.closeRound s = .ok next) :
    ∃ s', next = some s' ∧ Stepped o s budget s' (Event.change s.status s'.status) := by
  unfold closeRound at h
  rw [Interruption.lift_eq_ok_iff] at h
  split at h
  · cases h
  · next energy henergy =>
    obtain ⟨converged, hconverged, h⟩ := bind_eq_ok_iff.mp h
    cases converged with
    | true =>
      cases h
      refine ⟨_, rfl, ?_⟩
      rw [hsettled]
      exact .converged hfinite hsettled hconverged
    | false =>
      obtain ⟨_, hgrows, h⟩ := bind_eq_ok_iff.mp h
      obtain ⟨objective, hobjective, h⟩ := bind_eq_ok_iff.mp h
      cases h
      refine ⟨_, rfl, ?_⟩
      rw [hsettled]
      exact .continued hfinite hsettled hconverged (require_eq_ok_iff.mp hgrows) henergy hobjective

/-- A phase that is not interrupted, and one that is interrupted by a number. -/
theorem runPhase_ended {store' : Option (Shapes.Store α)} {outcome : Advance α}
    (h : o.runPhase s store budget = (outcome, events, store')) :
    (outcome = .ok none ∧ budget = 0 ∧ events = []) ∨ (∃ cause, outcome = .error (.fault cause)) ∨
      ∃ e further ending, s.objective = some e ∧ budget = further + 1 ∧
        Ended o s e s.values s.memory further events ending ∧
        outcome = ending.map fun d => some (o.afterPhase s d) := by
  cases budget with
  | zero =>
    cases h
    exact .inl ⟨rfl, rfl, rfl⟩
  | succ further =>
    refine .inr ?_
    simp only [runPhase] at h
    split at h
    · cases h
      exact .inl ⟨_, rfl⟩
    · next e he =>
      have hended := o.descend_ended s e further s.values s.memory
      split at h
      · next hdescend =>
        rw [hdescend] at hended
        cases h
        exact .inr ⟨e, further, _, he, rfl, hended, rfl⟩
      · next d hdescend =>
        rw [hdescend] at hended
        simp only [Prod.mk.injEq] at h
        obtain ⟨hwritten, rfl, _⟩ := h
        cases hproject : (project (o.afterPhase s d) store).1 with
        | error cause =>
          rw [hproject] at hwritten
          exact .inl ⟨cause, hwritten.symm⟩
        | ok written =>
          rw [hproject] at hwritten
          exact .inr ⟨e, further, _, he, rfl, hended, hwritten.symm⟩

/-- What a step does before it is reported. -/
theorem advance_eq_ok {store' : Option (Shapes.Store α)} {next : Option (State α)}
    (h : o.advance s store budget = (.ok next, events, store')) :
    ensureFinite .values s.values = .ok () ∧
      (next = none ∧ s.status = .running ∧ budget = 0 ∧ events = [] ∨
        ∃ s', next = some s' ∧ Stepped o s budget s' (events ++ Event.change s.status s'.status)) := by
  unfold advance at h
  split at h
  · cases h
  · next hfinite =>
    refine ⟨hfinite, ?_⟩
    split at h
    · next hfresh =>
      simp only [Prod.mk.injEq] at h
      obtain ⟨hnext, rfl, _⟩ := h
      exact .inr (startRound_stepped hfinite hfresh hnext)
    · next hrunning =>
      rcases runPhase_ended h with ⟨hnext, hzero, hevents⟩ | ⟨_, hnext⟩ |
        ⟨e, further, ending, he, hbudget, hended, hnext⟩
      · cases hnext
        exact .inl ⟨rfl, hrunning, hzero, hevents⟩
      · cases hnext
      · obtain ⟨d, rfl, rfl⟩ := map_eq_ok_iff.mp hnext.symm
        refine .inr ⟨_, rfl, ?_⟩
        rw [hrunning]
        exact .phase hfinite hrunning he hbudget hended
    · next hsettled =>
      simp only [Prod.mk.injEq] at h
      obtain ⟨hnext, rfl, _⟩ := h
      exact .inr (closeRound_stepped hfinite hsettled hnext)
    · cases h

/-- A step is interrupted by the variables or by its phase. -/
theorem advance_eq_numeric {store' : Option (Shapes.Store α)} {cause : NonFinite}
    (h : o.advance s store budget = (.error (.numeric cause), events, store')) :
    ensureFinite .values s.values = .error (.numeric cause) ∧ events = [] ∨
      ∃ e further, s.status = .running ∧ s.objective = some e ∧ budget = further + 1 ∧
        Ended o s e s.values s.memory further events (.error (.numeric cause)) := by
  unfold advance at h
  split at h
  · next hfinite =>
    cases h
    exact .inl ⟨hfinite, rfl⟩
  · split at h
    · exact (Interruption.lift_ne_numeric (congrArg Prod.fst h)).elim
    · next hrunning =>
      rcases runPhase_ended h with ⟨hnext, _⟩ | ⟨_, hnext⟩ |
        ⟨e, further, ending, he, hbudget, hended, hnext⟩
      · cases hnext
      · cases hnext
      · cases ending with
        | ok d => cases hnext
        | error cause' =>
          cases hnext
          exact .inr ⟨e, further, hrunning, he, hbudget, hended⟩
    · exact (Interruption.lift_ne_numeric (congrArg Prod.fst h)).elim
    · cases h

theorem step_eq_advance {budget : Int} (hbudget : 0 ≤ budget)
    (hgoing : s.status.isTerminal = false) :
    o.step s store budget = match o.advance s store budget.toNat with
      | (.ok none, events, store) => { result := .ok none, events, store }
      | (.ok (some s'), events, store) =>
        { result := .ok (some s'), events := events ++ Event.change s.status s'.status, store }
      | (.error (.numeric cause), events, store) =>
        { result := .ok (some { s with status := .failed (some cause.message) })
          events := events ++ .warning (.noLayout cause s.round s.weight) ::
            Event.change s.status (.failed (some cause.message))
          store }
      | (.error (.fault cause), events, store) => { result := .error cause, events, store } :=
  (if_neg hbudget.not_gt).trans (if_neg (by simp [hgoing]))

/-- At the end of a run a step changes nothing and reports nothing. -/
theorem step_terminal {budget : Int} (hbudget : 0 ≤ budget) (hterminal : s.status.isTerminal = true) :
    o.step s store budget = { result := .ok none, store } := by
  simp [step, hbudget.not_gt, hterminal]

/-- A step with a result does one of the things that a step can do. -/
theorem step_stepped {budget : Int} {next : Option (State α)}
    (h : (o.step s store budget).result = .ok next) :
    0 ≤ budget ∧ Stepped o s budget.toNat (next.getD s) (o.step s store budget).events := by
  have hbudget : 0 ≤ budget := by
    by_contra hneg
    simp [step, not_le.mp hneg] at h
  refine ⟨hbudget, ?_⟩
  by_cases hterminal : s.status.isTerminal = true
  · rw [step_terminal hbudget hterminal] at h ⊢
    cases h
    exact .idle (.inl hterminal)
  · have hgoing : s.status.isTerminal = false := by simpa using hterminal
    rw [step_eq_advance hbudget hgoing] at h ⊢
    rcases hadvance : o.advance s store budget.toNat with ⟨outcome, events, store'⟩
    rw [hadvance] at h
    cases outcome with
    | ok outcome =>
      obtain ⟨hfinite, hnext⟩ := advance_eq_ok hadvance
      rcases hnext with ⟨rfl, hrunning, hzero, rfl⟩ | ⟨s', rfl, hs'⟩
      · cases h
        exact .idle (.inr ⟨hfinite, hrunning, hzero⟩)
      · cases h
        exact hs'
    | error cause =>
      cases cause with
      | fault cause => cases h
      | numeric cause =>
        cases h
        have hchange : Event.change s.status (.failed (some cause.message)) =
            ([.status s.status (.failed (some cause.message))] : List (Event α)) := by
          cases hstatus : s.status with
          | failed _ => rw [hstatus] at hgoing; cases hgoing
          | _ => rfl
        simp only [hchange, Option.getD_some]
        exact .failed hgoing (advance_eq_numeric hadvance)

/-! ## Steps in a row -/

/-- Steps in a row from a state, with the events that they report and the state they lead to. -/
inductive Steps (o : Optimizer α) (s : State α) : List (Event α) → State α → Prop where
  | none : Steps o s [] s
  | step {events : List (Event α)} {s' : State α} {next : Option (State α)}
      (store : Option (Shapes.Store α)) (budget : Int) : Steps o s events s' →
      (o.step s' store budget).result = .ok next →
      Steps o s (events ++ (o.step s' store budget).events) (next.getD s')

section
variable {P : List (Event α) → State α → Option (Shapes.Store α) → Prop} {budget : Int}
  (step : ∀ {events t store next}, P events t store → (o.step t store budget).result = .ok next →
    P (events ++ (o.step t store budget).events) (next.getD t) (o.step t store budget).store)
include step

/-- What every call keeps, a number of them keeps. -/
theorem runFor_keeps {events : List (Event α)} (calls : Nat) (before : P events s store)
    (h : (o.runFor budget calls s store).result = .ok s') :
    P (events ++ (o.runFor budget calls s store).events) s' (o.runFor budget calls s store).store := by
  induction calls generalizing events s store with
  | zero =>
    cases h
    simpa [runFor] using before
  | succ calls ih =>
    unfold runFor at h ⊢
    split at h
    · next hterminal =>
      cases h
      simpa [hterminal] using before
    · next hgoing =>
      simp only [hgoing, Bool.false_eq_true, ↓reduceIte] at h ⊢
      cases hstep : (o.step s store budget).result with
      | error cause => rw [hstep] at h; cases h
      | ok next =>
        rw [hstep] at h
        simpa using ih (step before hstep) h

/-- What every step of a run keeps, with the store that it leaves to the next one, the run keeps. -/
theorem run_keeps {calls : Int} (start : P [] s store)
    (h : (o.run s store budget calls).result = .ok s') :
    P (o.run s store budget calls).events s' (o.run s store budget calls).store := by
  unfold run at h ⊢
  split at h
  · cases h
  · next hcalls =>
    simp only [hcalls, ↓reduceIte]
    exact runFor_keeps step calls.toNat start h

end

/-- A run is steps in a row. -/
theorem run_steps {budget calls : Int} (h : (o.run s store budget calls).result = .ok s') :
    o.Steps s (o.run s store budget calls).events s' :=
  run_keeps (P := fun events t _ => o.Steps s events t)
    (fun before hresult => before.step _ budget hresult) .none h

theorem Steps.trans {later : List (Event α)} {s'' : State α} (h : o.Steps s events s')
    (h' : o.Steps s' later s'') : o.Steps s (events ++ later) s'' := by
  induction h' with
  | none => simpa using h
  | step store budget _ hresult ih =>
    rw [← List.append_assoc]
    exact ih.step store budget hresult

/-- The states that steps and runs lead to. -/
inductive Reached (o : Optimizer α) (s : State α) : State α → Prop where
  | here : Reached o s s
  | step {s' : State α} {next : Option (State α)} (store : Option (Shapes.Store α)) (budget : Int) :
      Reached o s s' → (o.step s' store budget).result = .ok next → Reached o s (next.getD s')
  | run {s' s'' : State α} (store : Option (Shapes.Store α)) (budget calls : Int) :
      Reached o s s' → (o.run s' store budget calls).result = .ok s'' → Reached o s s''

theorem Reached.steps (h : o.Reached s s') : ∃ events, o.Steps s events s' := by
  induction h with
  | here => exact ⟨[], .none⟩
  | step store budget _ hresult ih =>
    obtain ⟨events, hsteps⟩ := ih
    exact ⟨_, hsteps.step store budget hresult⟩
  | run store budget calls _ hresult ih =>
    obtain ⟨events, hsteps⟩ := ih
    exact ⟨_, hsteps.trans (run_steps hresult)⟩

/-! ## Starts -/

omit [Scalar α] in
theorem startValues_eq_ok {initial : Tensor α} {paths : Option (List String)} {values : List α}
    {names : List String} (h : startValues initial paths = .ok (values, names)) :
    initial.flat? = some values ∧
      (paths = none ∧ names = [] ∨ paths = some names ∧ names.length = values.length) := by
  unfold startValues at h
  cases hshape : initial.shape? with
  | none => rw [hshape] at h; cases h
  | some shape =>
    cases hflat : initial.flat? with
    | none => rw [hshape, hflat] at h; cases h
    | some xs =>
      rw [hshape, hflat] at h
      cases paths with
      | none => cases h; exact ⟨rfl, .inl ⟨rfl, rfl⟩⟩
      | some ps =>
        simp only at h
        split at h
        · next hps => cases h; exact ⟨rfl, .inr ⟨rfl, hps⟩⟩
        · cases h

theorem start_eq_ok {objectives constraints : List (Term α)} {initial : Tensor α}
    {paths : Option (List String)} (h : (o.start objectives constraints initial paths).result = .ok s) :
    ∃ values names energy, startValues initial paths = .ok (values, names) ∧
      Energy.compile ⟨objectives, constraints, values.length⟩ o.library o.scale
        Energy.defaultPenalty = .ok energy ∧ 0 ≤ o.historySize ∧
      s = { values, objectives, constraints, paths := names, energy := some energy, status := .fresh,
            weight := o.initialWeight, memory := { capacity := o.historySize.toNat } } := by
  unfold start at h
  split at h
  · cases h
  · next values names hvalues =>
    obtain ⟨energy, henergy, h⟩ := bind_eq_ok_iff.mp h
    obtain ⟨memory, hmemory, h⟩ := bind_eq_ok_iff.mp h
    cases h
    obtain ⟨hsize, rfl⟩ := Lbfgs.Memory.fresh_eq_ok_iff.mp hmemory
    unfold compile at henergy
    split at henergy
    · next hcompile =>
      cases henergy
      exact ⟨values, names, _, hvalues, hcompile, hsize, rfl⟩
    · cases henergy

omit [Scalar α] in
/-- What a new start keeps and what it sets. -/
theorem resample_eq_ok {initial : Tensor α} (h : (o.resample s initial).result = .ok s') :
    ∃ values : List α, values.length = s.count ∧
      (o.resample s initial).events = Event.change s.status .fresh ∧
      s' = { values, objectives := s.objectives, constraints := s.constraints, paths := s.paths,
             energy := s.energy, status := .fresh, weight := o.initialWeight,
             memory := { capacity := s.memory.capacity } } := by
  unfold resample at h ⊢
  cases hshape : initial.shape? with
  | none => rw [hshape] at h; cases h
  | some shape =>
    cases hflat : initial.flat? with
    | none => rw [hshape, hflat] at h; cases h
    | some values =>
      rw [hshape, hflat] at h
      by_cases heq : shape = [s.count]
      · subst heq
        simp only [↓reduceIte] at h ⊢
        cases h
        exact ⟨values, Tensor.length_of_flat hshape hflat, by simp, rfl⟩
      · simp [heq] at h

/-- A start and a run from it to a state with a property that can be tested. -/
theorem exists_start_of_run {objectives constraints : List (Term α)} {initial : Tensor α}
    {paths : Option (List String)} {budget calls : Int} (test : List (Event α) → State α → Bool)
    (h : ((o.start objectives constraints initial paths).result >>= fun s₀ =>
      let turn := o.run s₀ store budget calls
      turn.result.map (test turn.events)).toOption = some true) :
    ∃ s₀ s, (o.start objectives constraints initial paths).result = .ok s₀ ∧
      (o.run s₀ store budget calls).result = .ok s ∧
      test (o.run s₀ store budget calls).events s = true := by
  obtain ⟨s₀, hstart, hrun⟩ := bind_eq_ok_iff.mp (toOption_eq_some_iff.mp h)
  obtain ⟨s, hs, htest⟩ := map_eq_ok_iff.mp hrun
  exact ⟨s₀, s, hstart, hs, htest⟩

/-! ## Histories -/

/-- The states that a run leads to from a start, with the events on the way. -/
inductive History (o : Optimizer α) (s₀ : State α) : List (Event α) → State α → Prop where
  | start {objectives constraints : List (Term α)} {initial : Tensor α}
      {paths : Option (List String)} :
      (o.start objectives constraints initial paths).result = .ok s₀ → History o s₀ [] s₀
  | step {log : List (Event α)} {s : State α} {next : Option (State α)}
      (store : Option (Shapes.Store α)) (budget : Int) : History o s₀ log s →
      (o.step s store budget).result = .ok next →
      History o s₀ (log ++ (o.step s store budget).events) (next.getD s)
  | run {log : List (Event α)} {s s' : State α} (store : Option (Shapes.Store α))
      (budget calls : Int) : History o s₀ log s → (o.run s store budget calls).result = .ok s' →
      History o s₀ (log ++ (o.run s store budget calls).events) s'
  | resample {log : List (Event α)} {s s' : State α} (initial : Tensor α) : History o s₀ log s →
      (o.resample s initial).result = .ok s' →
      History o s₀ (log ++ (o.resample s initial).events) s'

namespace History

variable {s₀ : State α} {log : List (Event α)}

/-- A history goes on with steps in a row. -/
theorem append (h : History o s₀ log s) (hsteps : o.Steps s events s') :
    History o s₀ (log ++ events) s' := by
  induction hsteps with
  | none => simpa using h
  | step store budget _ hresult ih =>
    rw [← List.append_assoc]
    exact ih.step store budget hresult

/-- What every single step keeps, steps in a row keep. -/
theorem keeps {P : List (Event α) → State α → Prop} (h : History o s₀ log s)
    (step : ∀ {log s next} (store : Option (Shapes.Store α)) (budget : Int), History o s₀ log s →
      (o.step s store budget).result = .ok next → P log s →
      P (log ++ (o.step s store budget).events) (next.getD s))
    (hsteps : o.Steps s events s') (hp : P log s) : P (log ++ events) s' := by
  induction hsteps with
  | none => simpa using hp
  | step store budget hsteps hresult ih =>
    rw [← List.append_assoc]
    exact step store budget (h.append hsteps) hresult ih

/-- What the start has, and every step and every new start keeps, every history has. -/
theorem grows {P : List (Event α) → State α → Prop} (h : History o s₀ log s)
    (start : ∀ {objectives constraints initial paths},
      (o.start objectives constraints initial paths).result = .ok s₀ → P [] s₀)
    (step : ∀ {log s next} (store : Option (Shapes.Store α)) (budget : Int), History o s₀ log s →
      (o.step s store budget).result = .ok next → P log s →
      P (log ++ (o.step s store budget).events) (next.getD s))
    (resample : ∀ {log s s' initial}, History o s₀ log s →
      (o.resample s initial).result = .ok s' → P log s →
      P (log ++ (o.resample s initial).events) s') : P log s := by
  induction h with
  | start hstart => exact start hstart
  | step store budget h hresult ih => exact step store budget h hresult ih
  | run store budget calls h hresult ih => exact h.keeps step (run_steps hresult) ih
  | resample initial h hresult ih => exact resample h hresult ih

/-- The same with what a step can do in place of the step. -/
theorem steps {P : List (Event α) → State α → Prop} (h : History o s₀ log s)
    (start : ∀ {objectives constraints initial paths},
      (o.start objectives constraints initial paths).result = .ok s₀ → P [] s₀)
    (step : ∀ {log s s' budget events}, History o s₀ log s → Stepped o s budget s' events →
      P log s → P (log ++ events) s')
    (resample : ∀ {log s s' initial}, History o s₀ log s →
      (o.resample s initial).result = .ok s' → P log s →
      P (log ++ (o.resample s initial).events) s') : P log s :=
  h.grows start (fun _ _ h hresult hp => step h (step_stepped hresult).2 hp) resample

/-- A run that ends in a state with a property that can be tested. -/
theorem exists_of_run {objectives constraints : List (Term α)} {initial : Tensor α}
    {paths : Option (List String)} {budget calls : Int} (test : List (Event α) → State α → Bool)
    (h : ((o.start objectives constraints initial paths).result >>= fun s₀ =>
      let turn := o.run s₀ store budget calls
      turn.result.map (test turn.events)).toOption = some true) :
    ∃ s₀ log s, History o s₀ log s ∧ test log s = true := by
  obtain ⟨s₀, s, hstart, hs, htest⟩ := exists_start_of_run test h
  exact ⟨s₀, _, s, (History.start hstart).run store budget calls hs, htest⟩

end History

end Optimizer

end DiagramLayout
