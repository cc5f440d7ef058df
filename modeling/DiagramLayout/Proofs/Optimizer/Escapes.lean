import DiagramLayout.Catalog
import DiagramLayout.Proofs.Energy.Evaluable
import DiagramLayout.Proofs.Optimizer.Coherent
import DiagramLayout.Proofs.Optimizer.Finite

/-!
# Numbers that no step catches

A step tests the variables, the energy and the gradient, and leads to a failed state where one of them
is not finite. That the weight of a round is finite is a rule, and the curvatures of the memory are not
tested at all, so a step from finite variables can still end with a fault.
-/

namespace DiagramLayout

open Lbfgs (Memory)

variable {α : Type} [Scalar α]

/-- The energy and the gradient at a point are finite, and a difference that the memory has for the
direction there has no curvature. -/
def WeightedEnergy.Uncurved (e : WeightedEnergy α) (m : Memory α) (xs : List α) : Prop :=
  ∃ energy gradient, e.value xs = .ok energy ∧ Scalar.isFinite energy = true ∧
    e.gradient xs = .ok gradient ∧ Vec.Finite gradient ∧
    ∃ p ∈ m.window xs gradient, Scalar.same p.curvature 0.0 = true

/-- The ends of the last phase and of the last round have as many entries as there are variables. -/
structure State.Sized (s : State α) : Prop where
  lastPhase : ∀ l, s.lastPhase = some l → l.values.length = s.count
  lastRound : ∀ l, s.lastRound = some l → l.values.length = s.count

theorem ensureFinite_ne_fault {q : Quantity} {v : List α} {cause : Fault} :
    ensureFinite q v ≠ .error (.fault cause) := fun h => nomatch ensureFinite_eq_error h

theorem Interruption.lift_eq_fault_iff {β : Type} {r : Except Fault β} {cause : Fault} :
    lift r = .error (.fault cause) ↔ r = .error cause := by
  cases r <;> simp [lift]

namespace Optimizer

open WeightedEnergy

variable {o : Optimizer α} {s s₀ : State α} {log : List (Event α)} {cause : Fault}

/-! ## Iterations -/

section
variable {e : WeightedEnergy α} {m : Memory α} {xs : List α} {path : List (List α)}
  (ready : e.energy.Evaluable) (hrecalls : e.Recalls m path)
include ready hrecalls

/-- A reading of finite numbers fails on the direction only. -/
theorem read_eq_fault_iff (hfinite : Vec.Finite xs) (hxs : xs.length = e.energy.count) :
    read e m xs = .error (.fault cause) ↔ cause = .zeroDivisor ∧ e.Uncurved m xs := by
  obtain ⟨visits, holds, _, _⟩ := hrecalls
  obtain ⟨energy, henergy⟩ := ready.value hxs
  obtain ⟨gradient, hgradient, hg⟩ := ready.gradient hxs
  have hvalues : ensureFinite .values xs = .ok () := ensureFinite_eq_ok_iff.mpr hfinite
  simp only [read, Preconditioner.ofMemory, hvalues, henergy, hgradient, Interruption.lift, ok_bind]
  constructor
  · intro h
    obtain h | ⟨_, henergy', h⟩ := bind_eq_error_iff.mp h
    · exact absurd h ensureFinite_ne_fault
    obtain h | ⟨_, hgradient', h⟩ := bind_eq_error_iff.mp h
    · exact absurd h ensureFinite_ne_fault
    obtain h | ⟨_, _, h⟩ := bind_eq_error_iff.mp h
    · obtain ⟨rfl, p, hp, hzero⟩ :=
        (holds.precondition_eq_error_iff hxs hg).mp (Interruption.lift_eq_fault_iff.mp h)
      exact ⟨rfl, energy, gradient, henergy,
        ensureFinite_eq_ok_iff.mp henergy' _ (List.mem_singleton_self _), hgradient,
        ensureFinite_eq_ok_iff.mp hgradient', p, hp, hzero⟩
    · cases h
  · rintro ⟨rfl, energy', gradient', hvalue, henergy', hslopes, hgradient', hzero⟩
    obtain rfl : energy = energy' := Except.ok.inj (henergy.symm.trans hvalue)
    obtain rfl : gradient = gradient' := Except.ok.inj (hgradient.symm.trans hslopes)
    have hdirection := (holds.precondition_eq_error_iff hxs hg).mpr ⟨rfl, hzero⟩
    have henergy' : ensureFinite .energy [energy] = .ok () :=
      ensureFinite_eq_ok_iff.mpr (by simpa using henergy')
    have hgradient' : ensureFinite .gradient gradient = .ok () :=
      ensureFinite_eq_ok_iff.mpr hgradient'
    rw [henergy', hgradient', hdirection]
    rfl

/-- After a reading a step length is found. -/
theorem exists_stepLength {r : Reading α} (o : Optimizer α) (reading : IsReading e m xs r) :
    ∃ found, o.stepLength e xs r = .ok found := by
  unfold stepLength
  split
  · have total : (line e xs r).Total e.energy.count := {
      start := reading.length_values
      direction := by simpa [line] using (reading.recalls hrecalls).2.2
      value := fun _ hlength => ready.value hlength
      gradient := fun _ hlength => ready.gradient hlength }
    exact total.search _
  · exact ⟨_, rfl⟩

theorem iterate_eq_fault_iff (hfinite : Vec.Finite xs) (hxs : xs.length = e.energy.count) :
    (∃ trials, o.iterate e xs m = .interrupted trials (.fault cause)) ↔
      cause = .zeroDivisor ∧ e.Uncurved m xs := by
  rw [← read_eq_fault_iff ready hrecalls hfinite hxs]
  constructor
  · rintro ⟨trials, h⟩
    have hends := o.iterates e xs m
    rw [h] at hends
    cases hends with
    | unread hread => exact hread
    | unsearched reading hsearch =>
      obtain ⟨found, hfound⟩ := exists_stepLength ready hrecalls o reading
      cases hsearch.symm.trans hfound
    | unfinished _ _ hfinite => exact absurd hfinite ensureFinite_ne_fault
  · intro hread
    exact ⟨[], by simp only [iterate, hread]⟩

end

/-- A walk from finite variables leads to finite variables. -/
theorem Walk.finite {e : WeightedEnergy α} {start xs : List α} {memory m : Memory α} {number : Nat}
    {events : List (Event α)} (walk : Walk o s e start memory number events xs m)
    (hstart : Vec.Finite start) : Vec.Finite xs := by
  cases walk with
  | start => exact hstart
  | move _ hiterate => exact ensureFinite_eq_ok_iff.mp (iterate_moved hiterate).2.2.2.2

/-! ## Ends of rounds -/

theorem Stepped.sized {s' : State α} {budget : Nat} {events : List (Event α)}
    (h : Stepped o s budget s' events) (hs : s.Sized) : s'.Sized := by
  cases h with
  | idle => exact hs
  | started | failed => exact ⟨hs.lastPhase, hs.lastRound⟩
  | phase _ _ _ _ hended =>
    constructor
    · rintro _ ⟨⟩
      rfl
    · intro l hl
      exact (hs.lastRound l hl).trans hended.length_eq.symm
  | converged | continued => exact ⟨hs.lastPhase, hs.lastPhase⟩

theorem History.sized (h : o.History s₀ log s) : s.Sized := by
  have fresh {s : State α} (hphase : s.lastPhase = none) (hround : s.lastRound = none) : s.Sized := by
    constructor <;> simp [hphase, hround]
  refine h.steps (fun hstart => ?_) (fun _ hstep hs => hstep.sized hs) fun _ hresample _ => ?_
  · obtain ⟨_, _, _, _, _, _, rfl⟩ := start_eq_ok hstart
    exact fresh rfl rfl
  · obtain ⟨_, _, _, rfl⟩ := resample_eq_ok hresample
    exact fresh rfl rfl

theorem exists_hasConverged (o : Optimizer α) (hs : s.Sized) : ∃ b, o.hasConverged s = .ok b := by
  unfold hasConverged
  split
  · split
    · next before now hbefore hnow =>
      have hlength : now.values.length = before.values.length :=
        (hs.lastPhase now hnow).trans (hs.lastRound before hbefore).symm
      simp only [roundConverged, Vec.pairwise?, hlength, ↓reduceIte]
      exact ⟨_, rfl⟩
    · exact ⟨false, rfl⟩
  · exact ⟨false, rfl⟩

/-! ## Steps -/

/-- Where a step from finite variables ends with a fault. -/
inductive Escapes (o : Optimizer α) (s : State α) (budget : Nat) : Fault → Prop where
  /-- The weight of the first round is not finite. -/
  | firstWeight : s.status = .fresh → Scalar.isFinite o.initialWeight = false →
      Escapes o s budget (.violated .finiteWeight)
  /-- The weight of the next round is not at least that of the round. -/
  | fallingWeight : s.status = .settled → o.hasConverged s = .ok false →
      Scalar.atMost s.weight (o.growth * s.weight) = false →
      Escapes o s budget (.violated .weightGrows)
  /-- The weight of the next round is not finite. -/
  | nextWeight : s.status = .settled → o.hasConverged s = .ok false →
      Scalar.atMost s.weight (o.growth * s.weight) = true →
      Scalar.isFinite (o.growth * s.weight) = false → Escapes o s budget (.violated .finiteWeight)
  /-- The phase comes to a point without curvature. -/
  | curvature {e : WeightedEnergy α} {number : Nat} {events : List (Event α)} {xs : List α}
      {m : Memory α} : s.status = .running → s.objective = some e → number < budget →
      Walk o s e s.values s.memory number events xs m → e.Uncurved m xs →
      Escapes o s budget .zeroDivisor

theorem startRound_eq_fault_iff {energy : Energy α} (henergy : s.energy = some energy)
    (hsize : 0 ≤ o.historySize) : (o.startRound s).1 = .error (.fault cause) ↔
      cause = .violated .finiteWeight ∧ Scalar.isFinite o.initialWeight = false := by
  have hmemory : Memory.fresh o.historySize = .ok ({ capacity := o.historySize.toNat } : Memory α) :=
    Memory.fresh_eq_ok_iff.mpr ⟨hsize, rfl⟩
  simp only [startRound, henergy, hmemory, Interruption.lift_eq_fault_iff, ok_bind]
  rw [← Energy.atWeight_eq_error_iff (e := energy)]
  exact bind_eq_error_iff_of_ok fun _ => ⟨_, rfl⟩

theorem closeRound_eq_fault_iff {energy : Energy α} (henergy : s.energy = some energy)
    {converged : Bool} (hconverged : o.hasConverged s = .ok converged) :
    o.closeRound s = .error (.fault cause) ↔ converged = false ∧
      (cause = .violated .weightGrows ∧ Scalar.atMost s.weight (o.growth * s.weight) = false ∨
        Scalar.atMost s.weight (o.growth * s.weight) = true ∧ cause = .violated .finiteWeight ∧
          Scalar.isFinite (o.growth * s.weight) = false) := by
  simp only [closeRound, henergy, hconverged, Interruption.lift_eq_fault_iff, ok_bind]
  cases converged with
  | true => simp [pure, Except.pure]
  | false =>
    simp only [Bool.false_eq_true, ↓reduceIte, true_and]
    rw [← Energy.atWeight_eq_error_iff (e := energy), ← require_eq_error_iff]
    have hrest (next : WeightedEnergy α → State α) {cause : Fault} :
        (energy.atWeight (o.growth * s.weight) >>= fun e => pure (some (next e))) = .error cause ↔
          energy.atWeight (o.growth * s.weight) = .error cause :=
      bind_eq_error_iff_of_ok fun _ => ⟨_, rfl⟩
    refine bind_eq_error_iff.trans (or_congr_right ⟨?_, ?_⟩)
    · rintro ⟨_, hgrows, h⟩
      exact ⟨require_eq_ok_iff.mp hgrows, (hrest _).mp h⟩
    · rintro ⟨hgrows, h⟩
      exact ⟨(), require_eq_ok_iff.mpr hgrows, (hrest _).mpr h⟩

theorem runPhase_eq_fault_iff {e : WeightedEnergy α} (he : s.objective = some e) {budget : Nat} :
    (o.runPhase s none budget).1 = .error (.fault cause) ↔ ∃ further, budget = further + 1 ∧
      (o.descend s e further 0 s.values s.memory).2 = .error (.fault cause) := by
  cases budget with
  | zero => simp [runPhase]
  | succ further =>
    rcases hdescend : o.descend s e further 0 s.values s.memory with ⟨events, ending⟩
    cases ending with
    | error cause' => simp [runPhase, he, hdescend]
    | ok d => simp [runPhase, he, hdescend, project, Interruption.lift, Except.map]

theorem step_eq_error_iff {store : Option (Shapes.Store α)} {budget : Int} (hbudget : 0 ≤ budget) :
    (o.step s store budget).result = .error cause ↔ s.status.isTerminal = false ∧
      (o.advance s store budget.toNat).1 = .error (.fault cause) := by
  by_cases hterminal : s.status.isTerminal = true
  · simp [step_terminal hbudget hterminal, hterminal]
  · have hgoing : s.status.isTerminal = false := by simpa using hterminal
    rw [step_eq_advance hbudget hgoing]
    rcases hadvance : o.advance s store budget.toNat with ⟨outcome, events, store'⟩
    rcases outcome with (_ | _) | (_ | _) <;> simp [hgoing]

namespace History

variable (h : o.History s₀ log s)
include h

theorem ready : 0 ≤ o.historySize ∧ ∃ energy, s.energy = some energy ∧ energy.Evaluable := by
  rw [h.coherent.energy]
  refine h.steps (P := fun _ _ => 0 ≤ o.historySize ∧ ∃ energy, s₀.energy = some energy ∧
    energy.Evaluable) (fun hstart => ?_) (fun _ _ hs => hs) fun _ _ hs => hs
  obtain ⟨_, _, energy, _, hcompile, hsize, rfl⟩ := start_eq_ok hstart
  exact ⟨hsize, energy, rfl, Energy.compile_evaluable hcompile⟩

theorem objective_evaluable (hrunning : s.status = .running) {e : WeightedEnergy α}
    (he : s.objective = some e) : e.energy.Evaluable := by
  obtain ⟨_, energy, henergy, evaluable⟩ := h.ready
  obtain rfl := Option.some.inj (he.symm.trans (h.coherent.objective_eq henergy (.inl hrunning)).2)
  exact evaluable

/-- An iteration on the way of a phase ends with a fault at points without curvature. -/
theorem iterate_eq_fault_iff (hrunning : s.status = .running) {e : WeightedEnergy α}
    (he : s.objective = some e) (hfinite : Vec.Finite s.values) {number : Nat}
    {events : List (Event α)} {xs : List α} {m : Memory α}
    (walk : Walk o s e s.values s.memory number events xs m) :
    (∃ trials, o.iterate e xs m = .interrupted trials (.fault cause)) ↔
      cause = .zeroDivisor ∧ e.Uncurved m xs := by
  have c := h.coherent
  have hlength := c.objective_count hrunning he
  obtain ⟨hrecalls, _, hxs⟩ := walk.recalls (c.running hrunning e he) hlength
  exact Optimizer.iterate_eq_fault_iff (h.objective_evaluable hrunning he) hrecalls
    (walk.finite hfinite) hxs

theorem escapes_of_fault {budget : Nat} (hgoing : s.status.isTerminal = false)
    (hadvance : (o.advance s none budget).1 = .error (.fault cause)) :
    Vec.Finite s.values ∧ o.Escapes s budget cause := by
  obtain ⟨hsize, energy, henergy, _⟩ := h.ready
  unfold advance at hadvance
  split at hadvance
  · next hvalues =>
    cases hadvance
    exact absurd hvalues ensureFinite_ne_fault
  · next hvalues =>
    have hfinite := ensureFinite_eq_ok_iff.mp hvalues
    refine ⟨hfinite, ?_⟩
    cases hstatus : s.status with
    | fresh =>
      simp only [hstatus] at hadvance
      obtain ⟨rfl, hweight⟩ := (startRound_eq_fault_iff henergy hsize).mp hadvance
      exact .firstWeight hstatus hweight
    | running =>
      simp only [hstatus] at hadvance
      have he := (h.coherent.objective_eq henergy (.inl hstatus)).2
      obtain ⟨further, hfurther, hdescend⟩ := (runPhase_eq_fault_iff he).mp hadvance
      obtain ⟨number, events, xs, m, trials, walk, hnumber, hiterate⟩ :=
        descend_eq_error_iff.mp hdescend
      obtain ⟨rfl, huncurved⟩ :=
        (h.iterate_eq_fault_iff hstatus he hfinite walk).mp ⟨trials, hiterate⟩
      exact .curvature hstatus he (by omega) walk huncurved
    | settled =>
      simp only [hstatus] at hadvance
      obtain ⟨converged, hconverged⟩ := exists_hasConverged o h.sized
      obtain ⟨rfl, hweight⟩ := (closeRound_eq_fault_iff henergy hconverged).mp hadvance
      obtain ⟨rfl, hfalls⟩ | ⟨hgrows, rfl, hinfinite⟩ := hweight
      · exact .fallingWeight hstatus hconverged hfalls
      · exact .nextWeight hstatus hconverged hgrows hinfinite
    | converged | failed _ => rw [hstatus] at hgoing; cases hgoing

theorem fault_of_escapes {budget : Nat} (hfinite : Vec.Finite s.values)
    (hescapes : o.Escapes s budget cause) :
    s.status.isTerminal = false ∧ (o.advance s none budget).1 = .error (.fault cause) := by
  obtain ⟨hsize, energy, henergy, _⟩ := h.ready
  have hvalues : ensureFinite .values s.values = .ok () := ensureFinite_eq_ok_iff.mpr hfinite
  cases hescapes with
  | firstWeight hfresh hweight =>
    refine ⟨by rw [hfresh]; rfl, ?_⟩
    simp only [advance, hvalues, hfresh]
    exact (startRound_eq_fault_iff henergy hsize).mpr ⟨rfl, hweight⟩
  | fallingWeight hsettled hgoing hfalls =>
    refine ⟨by rw [hsettled]; rfl, ?_⟩
    simp only [advance, hvalues, hsettled]
    exact (closeRound_eq_fault_iff henergy hgoing).mpr ⟨rfl, .inl ⟨rfl, hfalls⟩⟩
  | nextWeight hsettled hgoing hgrows hinfinite =>
    refine ⟨by rw [hsettled]; rfl, ?_⟩
    simp only [advance, hvalues, hsettled]
    exact (closeRound_eq_fault_iff henergy hgoing).mpr ⟨rfl, .inr ⟨hgrows, rfl, hinfinite⟩⟩
  | curvature hrunning he hnumber walk huncurved =>
    refine ⟨by rw [hrunning]; rfl, ?_⟩
    simp only [advance, hvalues, hrunning]
    obtain ⟨further, hfurther⟩ := Nat.exists_eq_add_of_lt hnumber
    obtain ⟨trials, hiterate⟩ :=
      (h.iterate_eq_fault_iff hrunning he hfinite walk).mpr ⟨rfl, huncurved⟩
    exact (runPhase_eq_fault_iff he).mpr ⟨_, hfurther, descend_eq_error_iff.mpr
      ⟨_, _, _, _, trials, walk, Nat.le_add_right _ _, hiterate⟩⟩

/-- **What escapes a step.** Without a store, a step of a run ends with a fault exactly where its
variables are finite and either the weight of the round that it opens is not, or falls, or its phase
comes to a point without curvature. Every other step has a result. -/
theorem step_escapes_iff {budget : Int} (hbudget : 0 ≤ budget) :
    (o.step s none budget).result = .error cause ↔
      Vec.Finite s.values ∧ o.Escapes s budget.toNat cause := by
  rw [step_eq_error_iff hbudget]
  constructor
  · rintro ⟨hgoing, hadvance⟩
    exact h.escapes_of_fault hgoing hadvance
  · rintro ⟨hfinite, hescapes⟩
    exact h.fault_of_escapes hfinite hescapes

end History

/-! ## Two runs that escape -/

/-- The settings of a run in doubles whose weight overflows after two rounds. -/
def steepGrowth : Optimizer Float := { standard Catalog.library with growth := 1e200 }

/-- A hill whose curvature the offset of the divisors cancels. -/
def hill : TermFunction Float where
  parameters := [{ name := "x" }]
  body
    | [x] => do Formula.apply .mul [.number (-5e-12), ← Formula.apply .square [x]]
    | _ => .fault .wrongForm

/-- The settings of a run in doubles that walks along a hill in steps of one. -/
def overHill : Optimizer Float :=
  { standard ⟨[("hill", hill)], []⟩ with searches := false, fixedStep := 1e11, breaksEarly := false }

/-- Whether a step ends with a fault. -/
def stepFaults (o : Optimizer Float) (cause : Fault) (s : State Float) : Bool :=
  match (o.step s none 100).result with
  | .error found => decide (found = cause)
  | .ok _ => false

/-- A run with one objective to a step that ends with a fault. -/
theorem exists_step_fault (o : Optimizer Float) (objective : Term Float) (x : Float) (calls : Int)
    (h : ((o.start [objective] [] (.array [.entry x]) none).result >>= fun s₀ =>
      let turn := o.run s₀ none 100 calls
      turn.result.map (o.stepFaults cause)).toOption = some true) :
    ∃ s₀ log s, o.History s₀ log s ∧ (o.step s none 100).result = .error cause := by
  obtain ⟨s₀, log, s, history, htest⟩ := History.exists_of_run (fun _ => o.stepFaults cause) h
  refine ⟨s₀, log, s, history, ?_⟩
  unfold stepFaults at htest
  split at htest
  · next hresult => rw [hresult, of_decide_eq_true htest]
  · cases htest

theorem steepGrowth_step : ∃ s₀ log s, steepGrowth.History s₀ log s ∧
    (steepGrowth.step s none 100).result = .error (.violated .finiteWeight) :=
  exists_step_fault steepGrowth ⟨"equal", [.varying 0, .number 3], .objective⟩ 0 4 (by decide +kernel)

theorem steepGrowth_overHill_escape :
    (∃ s₀ log s, steepGrowth.History s₀ log s ∧ steepGrowth.Escapes s 100 (.violated .finiteWeight)) ∧
      ∃ s₀ log s, overHill.History s₀ log s ∧ overHill.Escapes s 100 .zeroDivisor := by
  constructor
  · obtain ⟨s₀, log, s, history, hresult⟩ := steepGrowth_step
    exact ⟨s₀, log, s, history, ((history.step_escapes_iff (by decide)).mp hresult).2⟩
  · obtain ⟨s₀, log, s, history, hresult⟩ :
        ∃ s₀ log s, overHill.History s₀ log s ∧
          (overHill.step s none 100).result = .error .zeroDivisor :=
      exists_step_fault overHill ⟨"hill", [.varying 0], .objective⟩ 1 1 (by decide +kernel)
    exact ⟨s₀, log, s, history, ((history.step_escapes_iff (by decide)).mp hresult).2⟩

/-- Settings that pass their check do not keep every step from a fault. -/
theorem steepGrowth_step_raises : ¬ ∀ (o : Optimizer Float) s₀ log s budget, o.check = .ok () →
    o.lineSearch.check = .ok () → o.History s₀ log s → 0 ≤ budget →
      ∃ next, (o.step s none budget).result = .ok next := by
  intro h
  obtain ⟨s₀, log, s, history, hresult⟩ := steepGrowth_step
  obtain ⟨next, hnext⟩ :=
    h steepGrowth s₀ log s 100 (by decide +kernel) (by decide +kernel) history (by decide)
  cases hresult.symm.trans hnext

end Optimizer

end DiagramLayout
