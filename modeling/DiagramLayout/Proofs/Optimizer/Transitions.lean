import DiagramLayout.Proofs.Optimizer.Memory

namespace DiagramLayout

variable {α : Type} [Scalar α]

/-- The changes of status that a step can make. -/
inductive Status.Follows : Status → Status → Prop where
  | started : Follows fresh running
  | going : Follows running running
  | settled : Follows running settled
  | continued : Follows settled running
  | converged : Follows settled converged
  | failed {status : Status} (message : Option String) : status.isTerminal = false →
      Follows status (failed message)

namespace Optimizer

open WeightedEnergy

variable {o : Optimizer α} {s s₀ s' : State α} {log events : List (Event α)}

/-! ## Status and counters -/

theorem afterPhase_status (o : Optimizer α) (s : State α) (d : Descent α) :
    (o.afterPhase s d).status = .settled ∨ (o.afterPhase s d).status = .running := by
  cases h : phaseConverged d.reading.decrement o.phaseStop <;> simp [afterPhase, h]

/-- A phase that is done has converged. -/
theorem phaseConverged_of_done {d : Descent α}
    (h : (o.afterPhase s d).status = .settled ∨ (o.afterPhase s d).status = .converged) :
    phaseConverged d.reading.decrement o.phaseStop = true := by
  by_contra hgoing
  simp [afterPhase, hgoing] at h

theorem Stepped.follows {budget : Nat} (h : Stepped o s budget s' events)
    (hgoing : s.status.isTerminal = false) : s.status.Follows s'.status := by
  cases h with
  | idle hidle =>
    rcases hidle with hterminal | ⟨_, hrunning, _⟩
    · rw [hterminal] at hgoing
      cases hgoing
    · rw [hrunning]
      exact .going
  | started _ hfresh _ _ _ => rw [hfresh]; exact .started
  | @phase e further d _ _ hrunning _ _ _ =>
    rw [hrunning]
    rcases o.afterPhase_status s d with hstatus | hstatus
    · rw [hstatus]; exact .settled
    · rw [hstatus]; exact .going
  | converged _ hsettled _ => rw [hsettled]; exact .converged
  | continued _ hsettled _ _ _ _ => rw [hsettled]; exact .continued
  | failed hgoing _ => exact .failed _ hgoing

/-- The round grows by one when another round is opened after one that settled. -/
theorem Stepped.round_eq {budget : Nat} (h : Stepped o s budget s' events)
    (c : Coherent o s₀ log s) :
    s'.round = if s.status = .settled ∧ s'.status = .running then s.round + 1 else s.round := by
  cases h with
  | idle _ =>
    by_cases hsettled : s.status = .settled <;> simp [hsettled]
  | started _ hfresh _ _ _ => simp [hfresh, (c.fresh hfresh).1]
  | phase _ hrunning _ _ _ => simp [hrunning, afterPhase]
  | converged _ hsettled _ => simp
  | continued _ hsettled _ _ _ _ => simp [hsettled]
  | failed _ _ => simp

/-- The phase grows by one with every phase that ran to its end, and begins anew with a round. -/
theorem Stepped.phase_eq {budget : Nat} (h : Stepped o s budget s' events)
    (c : Coherent o s₀ log s) :
    s'.phase = if s.status = .settled ∧ s'.status = .running then 0
      else if s.status = .running ∧ 1 ≤ budget ∧ s'.status.isTerminal = false then s.phase + 1
      else s.phase := by
  cases h with
  | idle hidle =>
    rcases hidle with hterminal | ⟨_, hrunning, rfl⟩
    · have hsettled : s.status ≠ .settled := by
        intro hsettled
        rw [hsettled] at hterminal
        cases hterminal
      simp [hterminal, hsettled]
    · simp [hrunning]
  | started _ hfresh _ _ _ => simp [hfresh, (c.fresh hfresh).2]
  | @phase e further d _ _ hrunning _ hbudget _ =>
    have hgoing : (o.afterPhase s d).status.isTerminal = false := by
      rcases o.afterPhase_status s d with hstatus | hstatus <;> rw [hstatus] <;> rfl
    have hphase : (o.afterPhase s d).phase = s.phase + 1 := rfl
    simp [hrunning, hgoing, hphase, hbudget]
  | converged _ hsettled _ => simp [hsettled]
  | continued _ hsettled _ _ _ _ => simp [hsettled]
  | failed _ _ => simp [Status.isTerminal]

/-! ## Faults -/

/-- A property of every fault that a step can end with, apart from that of a falling weight. -/
structure CoversSteps (P : Fault → Prop) : Prop where
  budget : P (.violated .budget)
  inputLength : P (.violated .inputLength)
  finiteWeight : P (.violated .finiteWeight)
  memorySize : P (.violated .memorySize)
  outOfRange : P (.outOfRange .list)
  badShape : P .badShape
  zeroDivisor : P .zeroDivisor
  unreadable : P .unreadable
  malformedPath (path : String) : P (.malformedPath path)
  unknownPath (path : String) : P (.unknownPath path)

/-- A fault that is not about a rule of states. -/
abbrev External (cause : Fault) : Prop := cause.isInternal = false

theorem coversSteps_external : CoversSteps External :=
  ⟨rfl, rfl, rfl, rfl, rfl, rfl, rfl, rfl, fun _ => rfl, fun _ => rfl⟩

/-- Where a fault interrupts a computation, it has the property. -/
def InterruptsIn {β : Type} (P : Fault → Prop) (r : Except Interruption β) : Prop :=
  ∀ cause, r = .error (.fault cause) → P cause

namespace InterruptsIn

variable {β γ : Type} {P : Fault → Prop}

theorem ok (b : β) : InterruptsIn P (.ok b) := by intro cause h; cases h

theorem ensureFinite (q : Quantity) (v : List α) :
    InterruptsIn P (DiagramLayout.ensureFinite q v) := by
  intro cause h
  have hnumeric := ensureFinite_eq_error h
  cases hnumeric

theorem lift {r : Except Fault β} (h : FaultsIn P r) : InterruptsIn P (Interruption.lift r) := by
  intro cause heq
  obtain ⟨_, hr, hcause⟩ := Interruption.lift_eq_error_iff.mp heq
  cases hcause
  exact h cause hr

theorem bind {r : Except Interruption β} {f : β → Except Interruption γ} (h : InterruptsIn P r)
    (next : ∀ b, r = .ok b → InterruptsIn P (f b)) : InterruptsIn P (r >>= f) := by
  cases r with
  | ok b => exact next b rfl
  | error cause =>
    intro fault heq
    exact h fault (by cases heq; rfl)

end InterruptsIn

variable {e : WeightedEnergy α} {m : Lbfgs.Memory α} {xs : List α} {path : List (List α)}
  {P : Fault → Prop}

theorem read_interruptsIn (hP : CoversSteps P) (hrecalls : e.Recalls m path) :
    InterruptsIn P (read e m xs) := by
  obtain ⟨visits, holds, _, _⟩ := hrecalls
  have hvalue := e.value_faultsIn hP.inputLength hP.outOfRange xs
  refine .bind (.ensureFinite _ _) fun _ _ => .bind (.lift hvalue) fun energy henergy => ?_
  have hx := e.length_of_value (Interruption.lift_eq_ok_iff.mp henergy)
  have hslopes := e.gradient_faultsIn hP.inputLength hP.outOfRange xs
  refine .bind (.lift hslopes) fun gradient hgradient => ?_
  have hg := e.length_gradient (Interruption.lift_eq_ok_iff.mp hgradient)
  refine .bind (.ensureFinite _ _) fun _ _ => .bind (.ensureFinite _ _) fun _ _ => ?_
  refine .bind (.lift fun cause hcause => ?_) fun _ _ => .ok _
  rw [((holds.precondition_eq_error_iff hx hg).mp hcause).1]
  exact hP.zeroDivisor

theorem stepLength_faultsIn (hP : CoversSteps P) (o : Optimizer α) (e : WeightedEnergy α)
    (xs : List α) (r : Reading α) : FaultsIn P (o.stepLength e xs r) := by
  unfold stepLength
  split
  · have hvalue := e.value_faultsIn hP.inputLength hP.outOfRange
    have hgradient := e.gradient_faultsIn hP.inputLength hP.outOfRange
    exact LineSearch.search_faultsIn hP.badShape hvalue hgradient _
  · exact .ok _

theorem Ended.interruptsIn {start : List α} {memory : Lbfgs.Memory α} {further : Nat}
    {ending : Except Interruption (Descent α)} (hP : CoversSteps P)
    (h : Ended o s e start memory further events ending) (hrecalls : e.Recalls memory path)
    (hstart : start.length = e.energy.count) : InterruptsIn P ending := by
  cases h with
  | settled _ _ _ => exact .ok _
  | spent _ _ => exact .ok _
  | @interrupted _ _ xs m trials cause walk _ hiterate =>
    have hmemory := (walk.recalls hrecalls hstart).1
    intro fault heq
    cases heq
    have hends := o.iterates e xs m
    rw [hiterate] at hends
    cases hends with
    | unread hread => exact read_interruptsIn hP hmemory fault hread
    | unsearched _ hsearch => exact stepLength_faultsIn hP o e xs _ fault hsearch
    | unfinished _ _ hfinite => exact InterruptsIn.ensureFinite _ _ fault hfinite

theorem atWeight_faultsIn (hP : CoversSteps P) (energy : Energy α) (weight : α) :
    FaultsIn P (energy.atWeight weight) :=
  .bind (.require hP.finiteWeight _) fun _ _ => .pure _

omit [Scalar α] in
theorem fresh_faultsIn (hP : CoversSteps P) (capacity : Int) :
    FaultsIn P (Lbfgs.Memory.fresh capacity : Except Fault (Lbfgs.Memory α)) := by
  by_cases h : 0 ≤ capacity
  · rw [Lbfgs.Memory.fresh_eq_ok_iff.mpr ⟨h, rfl⟩]
    exact .ok _
  · intro cause hcause
    simp [Lbfgs.Memory.fresh, Lbfgs.Memory.make, require, h, bind, Except.bind] at hcause
    rw [← hcause]
    exact hP.memorySize

omit [Scalar α] in
theorem project_faultsIn (hP : CoversSteps P) (s : State α) (store : Option (Shapes.Store α)) :
    FaultsIn P (project s store).1 := by
  unfold project
  split
  · exact .ok ()
  · split
    · exact .ok ()
    · exact Shapes.Store.insert_faultsIn hP.unreadable hP.malformedPath hP.unknownPath _ _

theorem hasConverged_faultsIn (hP : CoversSteps P) (o : Optimizer α) (s : State α) :
    FaultsIn P (o.hasConverged s) := by
  unfold hasConverged
  split
  · split
    · unfold roundConverged
      split
      · exact .error hP.badShape
      · exact .ok _
    · exact .ok _
  · exact .ok _

namespace Coherent

variable {store : Option (Shapes.Store α)}

theorem startRound_interruptsIn (hP : CoversSteps P) (c : Coherent o s₀ log s) :
    InterruptsIn P (o.startRound s).1 := by
  obtain ⟨energy, henergy, _⟩ := c.ready
  simp only [startRound, henergy]
  exact .lift (.bind (.ok _) fun _ _ => .bind (atWeight_faultsIn hP _ _) fun _ _ =>
    .bind (fresh_faultsIn hP _) fun _ _ => .pure _)

theorem closeRound_interruptsIn (hP : CoversSteps P) (c : Coherent o s₀ log s)
    (hfalls : Scalar.atMost s.weight (o.growth * s.weight) = false → P (.violated .weightGrows)) :
    InterruptsIn P (o.closeRound s) := by
  obtain ⟨energy, henergy, _⟩ := c.ready
  simp only [closeRound, henergy]
  refine .lift (.bind (hasConverged_faultsIn hP o s) fun converged _ => ?_)
  cases converged with
  | true => exact .pure _
  | false =>
    have hgrows : FaultsIn P (require (Scalar.atMost s.weight (o.growth * s.weight)) .weightGrows) := by
      cases hle : Scalar.atMost s.weight (o.growth * s.weight) with
      | true => exact .ok ()
      | false => exact .error (hfalls hle)
    exact .bind hgrows fun _ _ => .bind (atWeight_faultsIn hP _ _) fun _ _ => .pure _

theorem runPhase_interruptsIn (hP : CoversSteps P) (c : Coherent o s₀ log s)
    (hrunning : s.status = .running) (budget : Nat) :
    InterruptsIn P (o.runPhase s store budget).1 := by
  obtain ⟨_, e, _, _, he⟩ := c.weighted (.inl hrunning)
  cases budget with
  | zero => exact .ok _
  | succ further =>
    have hended := (o.descend_ended s e further s.values s.memory).interruptsIn hP
      (c.running hrunning e he) (c.objective_count hrunning he)
    simp only [runPhase, he]
    split
    · next hdescend =>
      rw [hdescend] at hended
      exact fun cause hcause => hended cause (by cases hcause; rfl)
    · exact .lift (.map (project_faultsIn hP _ _) _)

theorem advance_interruptsIn (hP : CoversSteps P) (c : Coherent o s₀ log s)
    (hfalls : Scalar.atMost s.weight (o.growth * s.weight) = false → P (.violated .weightGrows))
    (hgoing : s.status.isTerminal = false) (budget : Nat) :
    InterruptsIn P (o.advance s store budget).1 := by
  unfold advance
  split
  · next hfinite =>
    exact fun cause hcause => InterruptsIn.ensureFinite _ _ cause (by cases hcause; exact hfinite)
  · split
    · exact c.startRound_interruptsIn hP
    · next hrunning => exact c.runPhase_interruptsIn hP hrunning budget
    · exact c.closeRound_interruptsIn hP hfalls
    · next hfresh hrunning hsettled =>
      cases hstatus : s.status with
      | fresh => exact absurd hstatus hfresh
      | running => exact absurd hstatus hrunning
      | settled => exact absurd hstatus hsettled
      | converged | failed _ => rw [hstatus] at hgoing; cases hgoing

/-- The faults of a step of a coherent state are certain ones. -/
theorem step_covered (hP : CoversSteps P) (c : Coherent o s₀ log s)
    (hfalls : Scalar.atMost s.weight (o.growth * s.weight) = false → P (.violated .weightGrows))
    (budget : Int) : FaultsIn P (o.step s store budget).result := by
  by_cases hbudget : 0 ≤ budget
  · by_cases hterminal : s.status.isTerminal = true
    · rw [step_terminal hbudget hterminal]
      exact .ok _
    · have hgoing : s.status.isTerminal = false := by simpa using hterminal
      have hadvance : InterruptsIn P (o.advance s store budget.toNat).1 :=
        c.advance_interruptsIn hP hfalls hgoing _
      rw [step_eq_advance hbudget hgoing]
      split
      · exact .ok _
      · exact .ok _
      · exact .ok _
      · next heq =>
        rw [heq] at hadvance
        exact .error (hadvance _ rfl)
  · simp only [step, not_le.mp hbudget, ↓reduceIte]
    exact .error hP.budget

/-- A step of a coherent state breaks no rule of states. -/
theorem step_faultsIn (c : Coherent o s₀ log s) (budget : Int) :
    FaultsIn External (o.step s store budget).result :=
  c.step_covered coversSteps_external (fun _ => rfl) budget

end Coherent

/-! ## Runs -/

/-- The faults of a run are those of its steps. -/
theorem History.run_covered (hP : CoversSteps P) (hcalls : P (.violated .callLimit))
    (hfalls : ∀ {log s}, o.History s₀ log s →
      Scalar.atMost s.weight (o.growth * s.weight) = false → P (.violated .weightGrows))
    (h : o.History s₀ log s) (store : Option (Shapes.Store α)) (budget calls : Int) :
    FaultsIn P (o.run s store budget calls).result := by
  unfold Optimizer.run
  split
  · exact .error hcalls
  · generalize calls.toNat = calls
    induction calls generalizing log s store with
    | zero => exact .ok _
    | succ calls ih =>
      unfold Optimizer.runFor
      split
      · exact .ok _
      · simp only
        split
        · next hstep => exact .error (h.coherent.step_covered hP (hfalls h) budget _ hstep)
        · next hstep => exact ih (h.step store budget hstep) _

theorem History.run_faultsIn (h : o.History s₀ log s) (store : Option (Shapes.Store α))
    (budget calls : Int) : FaultsIn External (o.run s store budget calls).result :=
  h.run_covered coversSteps_external rfl (fun _ _ => rfl) store budget calls

omit [Scalar α] in
theorem resample_faultsIn (o : Optimizer α) (s : State α) (initial : Tensor α) :
    FaultsIn External (o.resample s initial).result := by
  unfold resample
  split
  · exact .error rfl
  · split
    · split
      · exact .ok _
      · exact .error rfl
    · exact .error rfl

/-- **The steps of a run.** The problem of a run stays as it was at its start, and a run converges after
two rounds at least. At its end a run is left as it is. Any other step follows the order of the
statuses, counts the rounds and the phases, and breaks no rule about the state. -/
theorem History.step_safe (h : o.History s₀ log s) (store : Option (Shapes.Store α))
    (budget : Int) (hbudget : 0 ≤ budget) :
    (s.count = s₀.count ∧ s.objectives = s₀.objectives ∧ s.constraints = s₀.constraints ∧
      s.paths = s₀.paths) ∧
    (s.status = .fresh → s.round = 0 ∧ s.phase = 0) ∧
    (s.status = .converged → 2 ≤ s.round) ∧
    (s.status.isTerminal = true → o.step s store budget = { result := .ok none, store }) ∧
    (∀ next, (o.step s store budget).result = .ok next →
      (s.status.isTerminal = false → s.status.Follows (next.getD s).status) ∧
      (next.getD s).round =
        (if s.status = .settled ∧ (next.getD s).status = .running then s.round + 1
          else s.round) ∧
      (next.getD s).phase =
        (if s.status = .settled ∧ (next.getD s).status = .running then 0
          else if s.status = .running ∧ 1 ≤ budget ∧ (next.getD s).status.isTerminal = false then
            s.phase + 1
          else s.phase)) ∧
    (∀ cause, (o.step s store budget).result = .error cause → cause.isInternal = false) ∧
    (∀ calls cause, (o.run s store budget calls).result = .error cause → cause.isInternal = false) ∧
    ∀ initial cause, (o.resample s initial).result = .error cause → cause.isInternal = false := by
  have c := h.coherent
  refine ⟨⟨c.count, c.objectives, c.constraints, c.paths⟩, c.fresh, c.converged,
    step_terminal hbudget, fun next hnext => ?_, c.step_faultsIn budget,
    fun calls => h.run_faultsIn store budget calls, resample_faultsIn o s⟩
  obtain ⟨_, hstepped⟩ := step_stepped hnext
  have hphase := hstepped.phase_eq c
  have hone : 1 ≤ budget.toNat ↔ 1 ≤ budget := by omega
  simp only [hone] at hphase
  exact ⟨hstepped.follows, hstepped.round_eq c, hphase⟩

theorem towardsThree_step_safe : ∃ s₀ log s, shortSteps.History s₀ log s ∧ s.count = s₀.count ∧
    (∀ cause, (shortSteps.step s none 2).result = .error cause → cause.isInternal = false) ∧
    ∀ next, (shortSteps.step s none 2).result = .ok next →
      s.status.Follows (next.getD s).status ∧ (next.getD s).round = s.round := by
  obtain ⟨s₀, log, s, history, htest⟩ :=
    towardsThree_history (fun _ s => decide (s.status = .running)) (by decide +kernel)
  have hrunning : s.status = .running := of_decide_eq_true htest
  obtain ⟨⟨hcount, _⟩, _, _, _, hnext, hfault, _⟩ := history.step_safe none 2 (by decide)
  refine ⟨s₀, log, s, history, hcount, hfault, fun next hresult => ?_⟩
  obtain ⟨hfollows, hround, _⟩ := hnext next hresult
  rw [hrunning] at hround
  exact ⟨hfollows (by rw [hrunning]; rfl), by simpa using hround⟩

end Optimizer

end DiagramLayout
