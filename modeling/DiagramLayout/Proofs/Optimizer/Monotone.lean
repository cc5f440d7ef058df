import DiagramLayout.Proofs.Optimizer.Curvature
import DiagramLayout.Proofs.Optimizer.Descent

/-!
# The energy of consecutive iterations

A step that passed the first test of the search does not raise the energy. A search that gives up takes
a step that it did not try, and that step may raise it.
-/

namespace DiagramLayout

open LineSearch (Trial)

/-! ## Iterations with their trials -/

namespace Event

variable {α : Type}

/-- The trial that stands last among events; none if anything comes after it. -/
def lastTrial : Option (Trial α) → List (Event α) → Option (Trial α)
  | last, [] => last
  | _, .trial t :: events => lastTrial (some t) events
  | _, _ :: events => lastTrial none events

/-- The iterations among events, each with the trial right before it. The trial before the events is
given. -/
def rowsFrom : Option (Trial α) → List (Event α) → List (Option (Trial α) × Iteration α)
  | _, [] => []
  | _, .trial t :: events => rowsFrom (some t) events
  | last, .iteration i :: events => (last, i) :: rowsFrom none events
  | _, _ :: events => rowsFrom none events

theorem rowsFrom_append (last : Option (Trial α)) (before after : List (Event α)) :
    rowsFrom last (before ++ after) = rowsFrom last before ++ rowsFrom (lastTrial last before) after := by
  induction before generalizing last with
  | nil => rfl
  | cons event before ih => cases event <;> simp [rowsFrom, lastTrial, ih]

/-- The iterations among events, each with the trial right before it. -/
def rows (events : List (Event α)) : List (Option (Trial α) × Iteration α) := rowsFrom none events

/-- Events without an iteration. -/
theorem rowsFrom_eq_nil {last : Option (Trial α)} {events : List (Event α)}
    (h : ∀ i, .iteration i ∉ events) : rowsFrom last events = [] := by
  induction events generalizing last with
  | nil => rfl
  | cons event events ih =>
    have hevents : ∀ i, .iteration i ∉ events := fun i hi => h i (List.mem_cons_of_mem _ hi)
    cases event with
    | iteration i => exact absurd List.mem_cons_self (h i)
    | trial t => exact ih hevents
    | status old new => exact ih hevents
    | warning w => exact ih hevents

/-- An iteration after its own trials has the last one of them before it. -/
theorem rowsFrom_trials (last : Option (Trial α)) {trials : List (Trial α)} (h : trials ≠ [])
    (i : Iteration α) : rowsFrom last (trials.map .trial ++ [.iteration i]) = [(trials.getLast?, i)] := by
  induction trials generalizing last with
  | nil => exact absurd rfl h
  | cons t trials ih =>
    cases trials with
    | nil => rfl
    | cons t' trials =>
      rw [List.getLast?_cons_cons]
      exact ih (some t) (List.cons_ne_nil _ _)

/-- An iteration that comes after its own trials. -/
theorem rows_append_iteration (events : List (Event α)) {trials : List (Trial α)} (h : trials ≠ [])
    (i : Iteration α) : rows (events ++ (trials.map .trial ++ [.iteration i])) =
      rows events ++ [(trials.getLast?, i)] := by
  rw [rows, rowsFrom_append, rowsFrom_trials _ h]
  rfl

/-- Events without an iteration add nothing. -/
theorem rows_append_quiet {log events : List (Event α)} (h : ∀ i, .iteration i ∉ events) :
    rows (log ++ events) = rows log := by
  rw [rows, rowsFrom_append, rowsFrom_eq_nil h, List.append_nil, rows]

end Event

namespace Optimizer

open Event (rows)

variable {α : Type} [FieldScalar α] {o : Optimizer α} {s s₀ s' : State α} {e : WeightedEnergy α}
  {m memory : Lbfgs.Memory α} {xs start : List α} {log events : List (Event α)}

/-! ## Sinking energies -/

/-- Of two consecutive iterations of a round the later one has no higher energy if the step between them
was accepted. -/
def Sinks (p q : Option (Trial α) × Iteration α) : Prop :=
  p.2.round = q.2.round → p.1.any Trial.accepted = true → q.2.energy ≤ p.2.energy

/-- After an accepted step of a round the energy is at most what it was before. -/
def Arrived (e : WeightedEnergy α) (round : Int) (xs : List α) (p : Option (Trial α) × Iteration α) :
    Prop :=
  p.2.round = round → p.1.any Trial.accepted = true → ∀ y, e.value xs = .ok y → y ≤ p.2.energy

/-- The iterations of a run, when it has come to a round and to a point: an accepted step led to no
higher energy, neither at the next iteration nor at the point. -/
structure Sinking (e : WeightedEnergy α) (round : Int) (xs : List α)
    (rows : List (Option (Trial α) × Iteration α)) : Prop where
  chain : rows.IsChain Sinks
  rounds : ∀ p ∈ rows, p.2.round ≤ round
  arrived : ∀ p ∈ rows.getLast?, Arrived e round xs p

/-- An iteration whose search ended with an accepted trial lowers the energy. -/
theorem iterate_arrived {r : Reading α} {trials : List (Trial α)} {step : α} {next : List α}
    (hiterate : o.iterate e xs m = .moved r trials step next) (hsearches : o.searches = true)
    (hparams : o.lineSearch.check = .ok ()) (number : Nat) :
    trials ≠ [] ∧ Arrived e s.round next (trials.getLast?, row s number xs r step) := by
  obtain ⟨reading, _, hfound, rfl, _⟩ := iterate_moved hiterate
  obtain ⟨htrials, hstep, hpasses⟩ := stepLength_accepted hsearches hparams hfound
  refine ⟨htrials, fun _ haccepted y hy => ?_⟩
  obtain ⟨t, hlast, haccepted⟩ := (Option.any_eq_true _ _).mp haccepted
  obtain ⟨point, y', hpoint, hy', htest⟩ :=
    LineSearch.Line.decreases_eq_ok _ (hpasses ⟨t, hlast, haccepted⟩).1
  obtain rfl := line_point_eq (Lbfgs.Memory.length_of_precondition reading.direction).symm hpoint
  obtain rfl : y' = y := Except.ok.inj (hy'.symm.trans hy)
  have hslope : (line e xs r).startSlope ≤ 0 := by
    rw [reading.startSlope_eq, reading.decrement]
    exact neg_nonpos.mpr reading.descends.nonneg
  have hdecrease := (LineSearch.Params.check_eq_ok hparams).1.1
  calc y' ≤ r.energy + o.lineSearch.decrease * step * (line e xs r).startSlope :=
        (FieldScalar.atMost_iff _ _).mp htest
    _ ≤ r.energy := by nlinarith [mul_pos hdecrease hstep]

/-- One more iteration. -/
theorem Sinking.move {rows : List (Option (Trial α) × Iteration α)} {r : Reading α}
    {trials : List (Trial α)} {step : α} {next : List α} (h : Sinking e s.round xs rows)
    (hiterate : o.iterate e xs m = .moved r trials step next) (hsearches : o.searches = true)
    (hparams : o.lineSearch.check = .ok ()) (number : Nat) :
    Sinking e s.round next (rows ++ [(trials.getLast?, row s number xs r step)]) where
  chain := by
    have reading := (iterate_moved hiterate).1
    refine List.isChain_append.mpr ⟨h.chain, .singleton _, fun p hp q hq => ?_⟩
    obtain rfl : _ = q := by simpa using hq
    intro hround haccepted
    exact h.arrived p hp hround haccepted _ reading.energy
  rounds := List.forall_mem_append.mpr ⟨h.rounds, by simp [row]⟩
  arrived p hp := by
    obtain rfl : _ = p := by simpa using hp
    exact (iterate_arrived hiterate hsearches hparams number).2

/-- The iterations of a phase. -/
theorem Walk.sinking {number : Nat} (walk : Walk o s e start memory number events xs m)
    (hsearches : o.searches = true) (hparams : o.lineSearch.check = .ok ())
    (h : Sinking e s.round start (rows log)) :
    Sinking e s.round xs (rows (log ++ events)) := by
  induction walk with
  | start => simpa using h
  | @move number events xs next m r trials step _ hiterate ih =>
    have htrials := (iterate_arrived (s := s) hiterate hsearches hparams number).1
    rw [List.append_assoc, ← List.append_assoc log, Event.rows_append_iteration _ htrials]
    exact ih.move hiterate hsearches hparams number

/-- The iterations of a phase, however it ends. -/
theorem Ended.sinking {further : Nat} {ending : Except Interruption (Descent α)}
    (hended : Ended o s e start memory further events ending) (hsearches : o.searches = true)
    (hparams : o.lineSearch.check = .ok ()) (h : Sinking e s.round start (rows log)) :
    ∃ xs, Sinking e s.round xs (rows (log ++ events)) ∧
      ∀ d, ending = .ok d → d.values = xs := by
  cases hended with
  | settled walk _ _ => exact ⟨_, walk.sinking hsearches hparams h, by rintro _ ⟨⟩; rfl⟩
  | spent walk hiterate =>
    exact ⟨_, (walk.move hiterate).sinking hsearches hparams h, by rintro _ ⟨⟩; rfl⟩
  | @interrupted number events xs m trials cause walk _ _ =>
    refine ⟨xs, ?_, fun d hd => nomatch hd⟩
    have hquiet : ∀ i, Event.iteration i ∉ trials.map Event.trial := by simp
    rw [← List.append_assoc, Event.rows_append_quiet hquiet]
    exact walk.sinking hsearches hparams h

/-! ## Runs -/

/-- What the iterations of a run have to do with its state. -/
structure Descending (rows : List (Option (Trial α) × Iteration α)) (s : State α) : Prop where
  chain : rows.IsChain Sinks
  rounds : ∀ p ∈ rows, p.2.round ≤ s.round
  fresh : s.status = .fresh → rows = []
  running : s.status = .running → ∀ e, s.objective = some e →
    ∀ p ∈ rows.getLast?, Arrived e s.round s.values p

theorem Descending.sinking {rows : List (Option (Trial α) × Iteration α)} (h : Descending rows s)
    (hrunning : s.status = .running) (he : s.objective = some e) :
    Sinking e s.round s.values rows :=
  ⟨h.chain, h.rounds, h.running hrunning e he⟩

theorem Stepped.descending {budget : Nat} (h : Stepped o s budget s' events)
    (c : Coherent o s₀ log s) (hsearches : o.searches = true)
    (hparams : o.lineSearch.check = .ok ()) (d : Descending (rows log) s) :
    Descending (rows (log ++ events)) s' := by
  cases h with
  | idle => simpa using d
  | started _ hfresh henergy _ _ =>
    obtain ⟨energy, hready, _⟩ := c.ready
    rcases henergy with ⟨_, rfl⟩ | ⟨hnone, _⟩
    · rw [Event.rows_append_quiet (by simp), d.fresh hfresh]
      constructor <;> simp
    · rw [hready] at hnone
      cases hnone
  | @phase e further descent events _ hrunning he _ hended =>
    obtain ⟨xs, sinking, hvalues⟩ := hended.sinking hsearches hparams (d.sinking hrunning he)
    have hquiet : ∀ i, .iteration i ∉ (Event.change .running (o.afterPhase s descent).status :
        List (Event α)) := by
      unfold Event.change
      split <;> simp
    rw [← List.append_assoc, Event.rows_append_quiet hquiet]
    refine ⟨sinking.chain, sinking.rounds, fun hfresh => ?_, fun _ e' he' => ?_⟩
    · rcases o.afterPhase_status s descent with hstatus | hstatus <;> rw [hstatus] at hfresh <;>
        cases hfresh
    · obtain rfl : e = e' := Option.some.inj (he.symm.trans he')
      have hend : (o.afterPhase s descent).values = xs := hvalues descent rfl
      rw [hend]
      exact sinking.arrived
  | converged =>
    rw [Event.rows_append_quiet (by simp)]
    exact ⟨d.chain, d.rounds, fun h => (nomatch h), fun h => (nomatch h)⟩
  | continued =>
    rw [Event.rows_append_quiet (by simp)]
    refine ⟨d.chain, fun p hp => (d.rounds p hp).trans (by simp), fun h => (nomatch h), ?_⟩
    -- All iterations so far belong to rounds before the new one.
    intro _ e _ p hp hround
    have hbefore := d.rounds p (List.mem_of_getLast? hp)
    simp only [Nat.cast_add, Nat.cast_one] at hround
    omega
  | @failed cause events _ hcause =>
    rw [← List.append_assoc, Event.rows_append_quiet (by simp)]
    rcases hcause with ⟨_, rfl⟩ | ⟨e, further, hrunning, he, _, hended⟩
    · rw [List.append_nil]
      exact ⟨d.chain, d.rounds, fun h => (nomatch h), fun h => (nomatch h)⟩
    · obtain ⟨xs, sinking, _⟩ := hended.sinking hsearches hparams (d.sinking hrunning he)
      exact ⟨sinking.chain, sinking.rounds, fun h => (nomatch h), fun h => (nomatch h)⟩

variable {objectives constraints : List (Term α)} {initial : Tensor α} {paths : Option (List String)}

theorem Steps.descending (hstart : (o.start objectives constraints initial paths).result = .ok s₀)
    (hsteps : o.Steps s₀ log s) (hsearches : o.searches = true)
    (hparams : o.lineSearch.check = .ok ()) : Descending (rows log) s := by
  obtain ⟨_, _, _, _, _, _, hs₀⟩ := start_eq_ok hstart
  refine (History.start hstart).keeps (P := fun log => Descending (rows log))
    (fun _ _ h hresult d => ?_) hsteps ?_
  · exact (step_stepped hresult).2.descending h.coherent hsearches hparams d
  · constructor <;> simp [rows, Event.rowsFrom, hs₀]

/-- A run whose first two iterations pass a test. -/
theorem exists_rows_of_run {first : Except Fault (State α)} {store : Option (Shapes.Store α)}
    {budget calls : Int}
    (test : Option (Trial α) × Iteration α → Option (Trial α) × Iteration α → Bool)
    (h : (first >>= fun s₀ =>
      let turn := o.run s₀ store budget calls
      turn.result.map fun _ => (rows turn.events).head?.any fun p =>
        (rows turn.events).tail.head?.any (test p)).toOption = some true) :
    ∃ s₀ log s p q, first = .ok s₀ ∧ o.Steps s₀ log s ∧ [p, q] <+: rows log ∧ test p q = true := by
  obtain ⟨s₀, hfirst, h⟩ := bind_eq_ok_iff.mp (toOption_eq_some_iff.mp h)
  obtain ⟨s, hrun, h⟩ := map_eq_ok_iff.mp h
  obtain ⟨p, hp, h⟩ := (Option.any_eq_true _ _).mp h
  obtain ⟨q, hq, htest⟩ := (Option.any_eq_true _ _).mp h
  obtain ⟨tail, hrows⟩ := List.head?_eq_some_iff.mp hp
  rw [hrows] at hq
  obtain ⟨rest, rfl⟩ := List.head?_eq_some_iff.mp hq
  exact ⟨s₀, _, s, p, q, hfirst, run_steps hrun, ⟨rest, hrows.symm⟩, htest⟩

/-- **The energy sinks as long as steps are accepted.** Of two consecutive iterations of a round the
later one has no higher energy if the search of the earlier one ended with a trial that passed both
tests. This is so for all that steps report, also for a last step that ends with a fault. -/
theorem Steps.energy_sinks
    (hstart : (o.start objectives constraints initial paths).result = .ok s₀)
    (hsteps : o.Steps s₀ log s) (hsearches : o.searches = true)
    (hparams : o.lineSearch.check = .ok ()) (store : Option (Shapes.Store α)) (budget : Int)
    {p q : Option (Trial α) × Iteration α}
    (hnext : [p, q] <:+: rows (log ++ (o.step s store budget).events))
    (hround : p.2.round = q.2.round) (haccepted : p.1.any Trial.accepted = true) :
    q.2.energy ≤ p.2.energy := by
  have d := hsteps.descending hstart hsearches hparams
  have chain : (rows (log ++ (o.step s store budget).events)).IsChain Sinks := by
    have hadvance : (rows (log ++ (o.advance s store budget.toNat).2.1)).IsChain Sinks := by
      rcases o.advance_events s store budget.toNat with ⟨e, further, hrunning, he, heq⟩ | hwarning
      · rw [heq]
        obtain ⟨_, hsinking, _⟩ := (o.descend_ended s e further s.values s.memory).sinking hsearches
          hparams (d.sinking hrunning he)
        exact hsinking.chain
      · rw [Event.rows_append_quiet fun i hi => (nomatch hwarning _ hi)]
        exact d.chain
    rcases o.step_events s store budget with hnil | ⟨report, heq, hreport⟩
    · rw [hnil, List.append_nil]
      exact d.chain
    · rw [heq, ← List.append_assoc, Event.rows_append_quiet]
      · exact hadvance
      · intro i hi
        rcases hreport _ hi with ⟨_, _, h⟩ | ⟨_, h⟩ <;> cases h
  have hpair : [p, q].IsChain Sinks := List.IsChain.infix chain hnext
  exact List.isChain_pair.mp hpair hround haccepted

theorem towardsThree_energy_sinks : ∃ s₀ log s p q, towardsThree.result = .ok s₀ ∧
    shortSteps.Steps s₀ log s ∧ [p, q] <+: rows log ∧ p.2.round = q.2.round ∧
      p.1.any Trial.accepted = true ∧ q.2.energy ≤ p.2.energy := by
  obtain ⟨s₀, log, s, p, q, hstart, hsteps, hprefix, htest⟩ := @exists_rows_of_run ℚ _ shortSteps
    towardsThree.result none 1 3
    (fun p q => decide (p.2.round = q.2.round) && p.1.any Trial.accepted) (by decide +kernel)
  rw [Bool.and_eq_true, decide_eq_true_eq] at htest
  have hnext : [p, q] <:+: rows (log ++ (shortSteps.step s none 1).events) := by
    rw [rows, Event.rowsFrom_append]
    exact hprefix.isInfix.trans (List.prefix_append _ _).isInfix
  have hparams : shortSteps.lineSearch.check = .ok () := by decide +kernel
  exact ⟨s₀, log, s, p, q, hstart, hsteps, hprefix, htest.1, htest.2,
    Steps.energy_sinks hstart hsteps rfl hparams none 1 hnext htest.1 htest.2⟩

/-! ## Untried steps -/

/-- The start of a number that is drawn to three, close to a number that repels it. -/
def besideRepeller (o : Optimizer ℚ) : Turn ℚ (State ℚ) :=
  o.start [⟨"equal", [.varying 0, .number 3], .objective⟩,
    ⟨"repel", [.list [.varying 0], .list [.number 0]], .objective⟩] []
    (.array [.entry (1 / 100)]) none

/-- The first two iterations from there, with settings that pass their checks, raise the energy. -/
def RisesBesideRepeller (o : Optimizer ℚ) : Prop :=
  o.searches = true ∧ o.check = .ok () ∧ o.lineSearch.check = .ok () ∧
    ∃ s₀ log s p q, (besideRepeller o).result = .ok s₀ ∧ o.Steps s₀ log s ∧ [p, q] <+: rows log ∧
      p.2.round = q.2.round ∧ p.2.energy < q.2.energy

/-- The standard settings with a bracket that has collapsed when it is narrower than ten. -/
def wideBrackets : Optimizer ℚ :=
  { exactly with lineSearch := { LineSearch.Params.standard with minInterval := 10 } }

/-- With the standard settings all eleven trials of the first search go too far, with the others the
bracket has collapsed after one. The step that is taken was not tried, and the energy rises. -/
theorem untried_step_rises : RisesBesideRepeller exactly ∧ RisesBesideRepeller wideBrackets := by
  have rises {o : Optimizer ℚ} (hsearches : o.searches = true) (hcheck : o.check = .ok ())
      (hparams : o.lineSearch.check = .ok ())
      (h : ((besideRepeller o).result >>= fun s₀ =>
        let turn := o.run s₀ none 2 2
        turn.result.map fun _ => (rows turn.events).head?.any fun p =>
          (rows turn.events).tail.head?.any fun q =>
            decide (p.2.round = q.2.round) && decide (p.2.energy < q.2.energy)).toOption = some true) :
      RisesBesideRepeller o := by
    obtain ⟨s₀, log, s, p, q, hstart, hsteps, hprefix, htest⟩ := exists_rows_of_run _ h
    rw [Bool.and_eq_true, decide_eq_true_eq, decide_eq_true_eq] at htest
    exact ⟨hsearches, hcheck, hparams, s₀, log, s, p, q, hstart, hsteps, hprefix, htest⟩
  constructor
  · exact rises rfl (by decide +kernel) (by decide +kernel) (by decide +kernel)
  · exact rises rfl (by decide +kernel) (by decide +kernel) (by decide +kernel)

end Optimizer

end DiagramLayout
