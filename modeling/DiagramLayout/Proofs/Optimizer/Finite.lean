import DiagramLayout.Proofs.Energy.Recorded
import DiagramLayout.Proofs.Optimizer.History
import DiagramLayout.Scalar.Double

namespace DiagramLayout

variable {α : Type} [Scalar α]

/-- Every entry is finite. -/
def Vec.Finite (v : List α) : Prop := ∀ x ∈ v, Scalar.isFinite x = true

structure Located.Finite (l : Located α) : Prop where
  values : Vec.Finite l.values
  energy : Scalar.isFinite l.energy = true

/-- The numbers that a state keeps are finite: its variables, the ends of its last phase and of its
last round, and its last gradient. -/
structure State.Finite (s : State α) : Prop where
  values : Vec.Finite s.values
  lastPhase : ∀ l, s.lastPhase = some l → l.Finite
  lastRound : ∀ l, s.lastRound = some l → l.Finite
  gradient : ∀ slopes, s.lastSlopes = some slopes → Vec.Finite slopes.gradient

namespace Optimizer

variable {o : Optimizer α} {s s₀ s' : State α} {log events : List (Event α)}
  {store store₁ : Option (Shapes.Store α)}

/-! ## Finite states -/

theorem IsReading.finite_numbers {e : WeightedEnergy α} {m : Lbfgs.Memory α} {xs : List α} {r : Reading α}
    (reading : IsReading e m xs r) :
    Located.Finite ⟨xs, r.energy⟩ ∧ Vec.Finite r.slopes.gradient := by
  have henergy := ensureFinite_eq_ok_iff.mp reading.energy_finite
  refine ⟨⟨ensureFinite_eq_ok_iff.mp reading.finite, ?_⟩,
    ensureFinite_eq_ok_iff.mp reading.gradient_finite⟩
  exact henergy r.energy (List.mem_singleton_self _)

/-- A phase that was not interrupted ends at finite numbers. -/
theorem Ended.finite {e : WeightedEnergy α} {start : List α} {memory : Lbfgs.Memory α} {further : Nat}
    {d : Descent α} (h : Ended o s e start memory further events (.ok d)) :
    Located.Finite ⟨d.values, d.reading.energy⟩ ∧ Vec.Finite d.reading.slopes.gradient := by
  cases h with
  | settled _ _ hiterate => exact (iterate_settled hiterate).1.finite_numbers
  | spent _ hiterate =>
    obtain ⟨reading, _, _, _, hupdate⟩ := iterate_moved hiterate
    obtain ⟨hlocated, hgradient⟩ := reading.finite_numbers
    exact ⟨⟨ensureFinite_eq_ok_iff.mp hupdate, hlocated.energy⟩, hgradient⟩

theorem finite_zeros (hzero : Scalar.isFinite (0.0 : α) = true) (n : Nat) :
    Vec.Finite (Vec.zeros n : List α) := by
  intro x hx
  rw [List.eq_of_mem_replicate hx]
  exact hzero

/-- A step keeps finite numbers only. -/
theorem Stepped.finite {budget : Nat} (hzero : Scalar.isFinite (0.0 : α) = true)
    (h : Stepped o s budget s' events) (hs : s.Finite) : s'.Finite := by
  cases h with
  | idle => exact hs
  | started =>
    refine ⟨hs.values, hs.lastPhase, hs.lastRound, ?_⟩
    rintro _ ⟨⟩
    exact finite_zeros hzero _
  | phase _ _ _ _ hended =>
    obtain ⟨hlocated, hgradient⟩ := hended.finite
    refine ⟨hlocated.values, ?_, hs.lastRound, ?_⟩
    · rintro _ ⟨⟩
      exact hlocated
    · rintro _ ⟨⟩
      exact hgradient
  | converged | continued => exact ⟨hs.values, hs.lastPhase, hs.lastPhase, hs.gradient⟩
  | failed => exact ⟨hs.values, hs.lastPhase, hs.lastRound, hs.gradient⟩

/-- The histories that start, and start anew, from finite variables. -/
inductive FiniteHistory (o : Optimizer α) (s₀ : State α) : List (Event α) → State α → Prop where
  | start {objectives constraints : List (Term α)} {initial : Tensor α}
      {paths : Option (List String)} :
      (o.start objectives constraints initial paths).result = .ok s₀ → Vec.Finite s₀.values →
      FiniteHistory o s₀ [] s₀
  | step {log : List (Event α)} {s : State α} {next : Option (State α)}
      (store : Option (Shapes.Store α)) (budget : Int) : FiniteHistory o s₀ log s →
      (o.step s store budget).result = .ok next →
      FiniteHistory o s₀ (log ++ (o.step s store budget).events) (next.getD s)
  | run {log : List (Event α)} {s s' : State α} (store : Option (Shapes.Store α))
      (budget calls : Int) : FiniteHistory o s₀ log s →
      (o.run s store budget calls).result = .ok s' →
      FiniteHistory o s₀ (log ++ (o.run s store budget calls).events) s'
  | resample {log : List (Event α)} {s s' : State α} (initial : Tensor α) :
      FiniteHistory o s₀ log s → (o.resample s initial).result = .ok s' → Vec.Finite s'.values →
      FiniteHistory o s₀ (log ++ (o.resample s initial).events) s'

theorem Steps.finite (hzero : Scalar.isFinite (0.0 : α) = true) (h : o.Steps s events s')
    (hs : s.Finite) : s'.Finite := by
  induction h with
  | none => exact hs
  | step _ _ _ hresult ih => exact (step_stepped hresult).2.finite hzero ih

theorem FiniteHistory.finite (hzero : Scalar.isFinite (0.0 : α) = true)
    (h : FiniteHistory o s₀ log s) : s.Finite := by
  have fresh {s : State α} (hvalues : Vec.Finite s.values) (hphase : s.lastPhase = none)
      (hround : s.lastRound = none) (hslopes : s.lastSlopes = none) : s.Finite := by
    constructor <;> simp [hvalues, hphase, hround, hslopes]
  induction h with
  | start hstart hvalues =>
    obtain ⟨_, _, _, _, _, _, rfl⟩ := start_eq_ok hstart
    exact fresh hvalues rfl rfl rfl
  | step _ _ _ hresult ih => exact (step_stepped hresult).2.finite hzero ih
  | run _ _ _ _ hresult ih => exact (run_steps hresult).finite hzero ih
  | resample _ _ hresample hvalues =>
    obtain ⟨_, _, _, rfl⟩ := resample_eq_ok hresample
    exact fresh hvalues rfl rfl rfl

/-! ## Failures -/

/-- A number that is not finite ends a step before the store is used. -/
theorem advance_numeric {budget : Nat} {cause : NonFinite}
    (h : o.advance s store budget = (.error (.numeric cause), events, store₁))
    (store' : Option (Shapes.Store α)) :
    o.advance s store' budget = (.error (.numeric cause), events, store') := by
  unfold advance at h ⊢
  split at h
  · cases h
    rfl
  · split at h
    · exact (Interruption.lift_ne_numeric (congrArg Prod.fst h)).elim
    · cases budget with
      | zero => cases h
      | succ further =>
        cases he : s.objective with
        | none =>
          simp only [runPhase, he] at h
          cases h
        | some e =>
          rcases hdescend : o.descend s e further 0 s.values s.memory with ⟨events', ending⟩
          simp only [runPhase, he, hdescend] at h ⊢
          cases ending with
          | error cause' =>
            cases h
            rfl
          | ok d => exact (Interruption.lift_ne_numeric (congrArg Prod.fst h)).elim
    · exact (Interruption.lift_ne_numeric (congrArg Prod.fst h)).elim
    · cases h

theorem advance_not_failed {budget : Nat} {message : Option String}
    (h : o.advance s store budget = (.ok (some s'), events, store₁)) :
    s'.status ≠ .failed message := by
  unfold advance at h
  split at h
  · cases h
  · split at h
    · have hstart := Interruption.lift_eq_ok_iff.mp (congrArg Prod.fst h)
      obtain ⟨_, _, hstart⟩ := bind_eq_ok_iff.mp hstart
      obtain ⟨_, _, hstart⟩ := bind_eq_ok_iff.mp hstart
      obtain ⟨_, _, hstart⟩ := bind_eq_ok_iff.mp hstart
      cases hstart
      simp
    · rcases runPhase_ended h with ⟨hnext, _⟩ | ⟨_, hnext⟩ | ⟨_, _, ending, _, _, _, hnext⟩
      · cases hnext
      · cases hnext
      · obtain ⟨d, _, hd⟩ := map_eq_ok_iff.mp hnext.symm
        cases hd
        cases hconverged : phaseConverged d.reading.decrement o.phaseStop <;>
          simp [afterPhase, hconverged]
    · have hclose := Interruption.lift_eq_ok_iff.mp (congrArg Prod.fst h)
      split at hclose
      · cases hclose
      · obtain ⟨converged, _, hclose⟩ := bind_eq_ok_iff.mp hclose
        cases converged with
        | true =>
          cases hclose
          simp
        | false =>
          obtain ⟨_, _, hclose⟩ := bind_eq_ok_iff.mp hclose
          obtain ⟨_, _, hclose⟩ := bind_eq_ok_iff.mp hclose
          cases hclose
          simp
    · cases h

/-- A step that fails changes the status only, and does the same with any other store, which it leaves
as it is. -/
theorem step_failed {budget : Int} {next : Option (State α)} {message : Option String}
    (hgoing : s.status.isTerminal = false) (hresult : (o.step s store budget).result = .ok next)
    (hfailed : (next.getD s).status = .failed message) :
    next = some { s with status := .failed message } ∧
      ∀ store', o.step s store' budget = { o.step s store budget with store := store' } := by
  obtain ⟨hbudget, _⟩ := step_stepped hresult
  rw [step_eq_advance hbudget hgoing] at hresult ⊢
  rcases hadvance : o.advance s store budget.toNat with ⟨outcome, events, store₁⟩
  rw [hadvance] at hresult
  cases outcome with
  | ok outcome =>
    cases outcome with
    | none =>
      cases hresult
      rw [Option.getD_none] at hfailed
      rw [hfailed] at hgoing
      cases hgoing
    | some s' =>
      cases hresult
      exact absurd hfailed (advance_not_failed hadvance)
  | error cause =>
    cases cause with
    | fault cause => cases hresult
    | numeric cause =>
      cases hresult
      cases hfailed
      refine ⟨rfl, fun store' => ?_⟩
      rw [step_eq_advance hbudget hgoing, advance_numeric hadvance store']

/-- **Failures are contained.** A step that fails leaves everything but the status as it was, however far
it got, and does not use the store: with any other store it does the same and leaves that as it is.
And where runs start, and start anew, from finite variables, no state keeps a number that is infinite or
NaN, whatever the energy gives. -/
theorem failures_contained (o : Optimizer α) (hzero : Scalar.isFinite (0.0 : α) = true) :
    (∀ (s : State α) store budget next message, s.status.isTerminal = false →
      (o.step s store budget).result = .ok next → (next.getD s).status = .failed message →
        next = some { s with status := .failed message } ∧
          ∀ store', o.step s store' budget = { o.step s store budget with store := store' }) ∧
      ∀ s₀ log s, FiniteHistory o s₀ log s → s.Finite :=
  ⟨fun _ _ _ _ _ hgoing hresult hfailed => step_failed hgoing hresult hfailed,
    fun _ _ _ h => h.finite hzero⟩

/-! ## A run that fails -/

/-- The settings of a run in doubles with steps of a fixed length, far too long. -/
def longSteps : Optimizer Float :=
  { standard Catalog.library with searches := false, fixedStep := 1e100, breaksEarly := false }

theorem longSteps_failure_contained : ∃ s₀ log s message, FiniteHistory longSteps s₀ log s ∧
    s.Finite ∧ (Event.visited (longSteps.step s none 10).events).length = 2 ∧
      (longSteps.step s none 10).result = .ok (some { s with status := .failed message }) ∧
      ∀ store, (longSteps.step s store 10).store = store := by
  have h : ((longSteps.start [⟨"equal", [.varying 0, .number 3], .objective⟩] []
      (.array [.entry 0]) none).result >>= fun s₀ =>
        (longSteps.run s₀ none 10 1).result >>= fun s =>
          let turn := longSteps.step s none 10
          turn.result.map fun next => s₀.values.all Scalar.isFinite && !s.status.isTerminal &&
            (Event.visited turn.events).length == 2 &&
            decide ((next.getD s).status = .failed (some "non-finite energy (entries [0])"))
      ).toOption = some true := by decide +kernel
  obtain ⟨s₀, hstart, h⟩ := bind_eq_ok_iff.mp (toOption_eq_some_iff.mp h)
  obtain ⟨s, hrun, h⟩ := bind_eq_ok_iff.mp h
  obtain ⟨next, hresult, h⟩ := map_eq_ok_iff.mp h
  simp only [Bool.and_eq_true, List.all_eq_true, Bool.not_eq_true', beq_iff_eq,
    decide_eq_true_eq] at h
  obtain ⟨⟨⟨hvalues, hgoing⟩, hvisited⟩, hfailed⟩ := h
  have history : FiniteHistory longSteps s₀ _ s := (FiniteHistory.start hstart hvalues).run none 10 1 hrun
  obtain ⟨hsteps, hfinite⟩ := failures_contained longSteps (by decide +kernel)
  obtain ⟨rfl, hstore⟩ := hsteps s none 10 next _ hgoing hresult hfailed
  refine ⟨s₀, _, s, _, history, hfinite s₀ _ s history, hvisited, hresult, fun store => ?_⟩
  rw [hstore store]

end Optimizer

end DiagramLayout
