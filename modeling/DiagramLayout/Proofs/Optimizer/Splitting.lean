import DiagramLayout.Proofs.Optimizer.Finite
import DiagramLayout.Proofs.Optimizer.Weight
import DiagramLayout.Proofs.Shapes.Store

/-!
# Budgets in parts

The iterations of a phase are the same whether its budget is used in one step or in two. But two steps
write the variables to a store of shapes twice, so the store has to take them over those written first.
-/

namespace DiagramLayout

variable {α : Type}

/-- An event of a phase that goes on after `count` iterations of another, as an event of that one. -/
def Event.resumed (phase count : Int) : Event α → Event α
  | .iteration i => .iteration { i with phase, number := count + i.number }
  | event => event

@[simp] theorem Event.map_resumed_change (phase count : Int) (old new : Status) :
    (Event.change old new : List (Event α)).map (resumed phase count) = Event.change old new := by
  unfold Event.change
  split <;> rfl

variable [Scalar α]

namespace Optimizer

variable {o : Optimizer α} {s s₀ s₁ t : State α} {log events : List (Event α)} {e : WeightedEnergy α}
  {store : Option (Shapes.Store α)}

/-! ## Phases in parts -/

/-- A phase that goes on moved with its first iteration. -/
theorem moved_of_descend {further number : Nat} {xs : List α} {m : Lbfgs.Memory α} {d : Descent α}
    (h : o.descend s e further number xs m = (events, .ok d))
    (hgoing : phaseConverged d.reading.decrement o.phaseStop = false) :
    ∃ r trials step next, o.iterate e xs m = .moved r trials step next := by
  unfold descend at h
  cases hiterate : o.iterate e xs m with
  | interrupted trials cause =>
    rw [hiterate] at h
    cases h
  | settled r =>
    rw [hiterate] at h
    cases h
    rw [(iterate_settled hiterate).2.2] at hgoing
    cases hgoing
  | moved r trials step next => exact ⟨r, trials, step, next, rfl⟩

/-- A phase that used up its iterations goes on with more where it stopped. -/
theorem descend_add {further number : Nat} {xs : List α} {m : Lbfgs.Memory α} {d : Descent α}
    (h : o.descend s e further number xs m = (events, .ok d))
    (hgoing : phaseConverged d.reading.decrement o.phaseStop = false) (more : Nat) :
    o.descend s e (further + 1 + more) number xs m =
      (events ++ (o.descend s e more (further + 1 + number) d.values d.reading.memory).1,
        (o.descend s e more (further + 1 + number) d.values d.reading.memory).2) := by
  obtain ⟨r, trials, step, next, hiterate⟩ := moved_of_descend h hgoing
  induction further generalizing number xs m events r trials step next with
  | zero =>
    unfold descend at h
    rw [Nat.zero_add, Nat.add_comm 1 more, Nat.add_comm 1 number, descend]
    rw [hiterate] at h ⊢
    cases h
    rfl
  | succ further ih =>
    unfold descend at h
    rw [Nat.add_right_comm (further + 1) 1 more, descend]
    rw [hiterate] at h ⊢
    rcases hrest : o.descend s e further (number + 1) next r.memory with ⟨later, result⟩
    simp only [hrest, Prod.mk.injEq] at h
    obtain ⟨rfl, rfl⟩ := h
    obtain ⟨r', trials', step', next', hiterate'⟩ := moved_of_descend hrest hgoing
    simp only [ih hrest r' trials' step' next' hiterate', List.append_assoc]
    rw [Nat.add_assoc (further + 1) 1 number, Nat.add_comm 1 number]

/-- A phase does not depend on its number, nor on the number of its first iteration; only what is
reported of its iterations does. -/
theorem descend_resumed (hround : t.round = s.round) (hweight : t.weight = s.weight)
    (further count number : Nat) (xs : List α) (m : Lbfgs.Memory α) :
    o.descend s e further (count + number) xs m =
      ((o.descend t e further number xs m).1.map (Event.resumed s.phase count),
        (o.descend t e further number xs m).2) := by
  induction further generalizing number xs m with
  | zero =>
    unfold descend
    cases o.iterate e xs m <;> simp [Event.resumed, hround, hweight]
  | succ further ih =>
    unfold descend
    cases o.iterate e xs m with
    | interrupted trials cause => simp [Event.resumed]
    | settled r => rfl
    | moved r trials step next =>
      have hrest := ih (number + 1) next r.memory
      rw [← Nat.add_assoc] at hrest
      simp [hrest, Event.resumed, hround, hweight]

/-- After a phase that used up its iterations a whole one goes on as a phase of the state then does. -/
theorem descend_parts {further : Nat} {d : Descent α}
    (h : o.descend s e further 0 s.values s.memory = (events, .ok d))
    (hgoing : phaseConverged d.reading.decrement o.phaseStop = false) (hs₁ : s₁ = o.afterPhase s d)
    (more : Nat) :
    o.descend s e (further + 1 + more) 0 s.values s.memory =
      (events ++ (o.descend s₁ e more 0 s₁.values s₁.memory).1.map
        (Event.resumed s.phase (further + 1)), (o.descend s₁ e more 0 s₁.values s₁.memory).2) := by
  have hvalues : s₁.values = d.values := by rw [hs₁]; rfl
  have hmemory : s₁.memory = d.reading.memory := by simp [hs₁, afterPhase, hgoing]
  rw [descend_add h hgoing more, ← hvalues, ← hmemory,
    descend_resumed (t := s₁) (by rw [hs₁]; rfl) (by rw [hs₁]; rfl)]
  rfl

/-! ## Ends of steps -/

/-- A step that does not end the run started from finite variables. -/
theorem Stepped.finite_values {s' : State α} {budget : Nat} (h : Stepped o s budget s' events)
    (hgoing : s.status.isTerminal = false) (hgoing' : s'.status.isTerminal = false) :
    ensureFinite .values s.values = .ok () := by
  cases h with
  | idle hidle =>
    rcases hidle with hterminal | ⟨hfinite, _⟩
    · rw [hterminal] at hgoing
      cases hgoing
    · exact hfinite
  | started hfinite | phase hfinite | converged hfinite | continued hfinite => exact hfinite
  | failed => cases hgoing'

/-- What a step makes of the events and of the end of its phase. -/
def conclude (o : Optimizer α) (s : State α) (store : Option (Shapes.Store α))
    (events : List (Event α)) : Except Interruption (Descent α) → Turn α (Option (State α))
  | .error (.numeric cause) =>
    { result := .ok (some { s with status := .failed (some cause.message) })
      events := events ++ .warning (.noLayout cause s.round s.weight) ::
        Event.change s.status (.failed (some cause.message))
      store }
  | .error (.fault cause) => { result := .error cause, events, store }
  | .ok d =>
    match project (o.afterPhase s d) store with
    | (.ok (), store) =>
      { result := .ok (some (o.afterPhase s d))
        events := events ++ Event.change s.status (o.afterPhase s d).status, store }
    | (.error cause, store) => { result := .error cause, events, store }

theorem step_running (o : Optimizer α) (store : Option (Shapes.Store α))
    (hrunning : s.status = .running) (hfinite : ensureFinite .values s.values = .ok ())
    (he : s.objective = some e) {budget : Int} {further : Nat} (hbudget : budget = further + 1) :
    o.step s store budget =
      o.conclude s store (o.descend s e further 0 s.values s.memory).1
        (o.descend s e further 0 s.values s.memory).2 := by
  have htoNat : budget.toNat = further + 1 := by omega
  have hgoing : s.status.isTerminal = false := by rw [hrunning]; rfl
  have hadvance : o.advance s store (further + 1) = o.runPhase s store (further + 1) := by
    simp only [advance, hfinite, hrunning]
  rw [step_eq_advance (by omega) hgoing, htoNat, hadvance]
  rcases hdescend : o.descend s e further 0 s.values s.memory with ⟨events, ending⟩
  cases ending with
  | error cause =>
    have hphase : o.runPhase s store (further + 1) = (.error cause, events, store) := by
      simp only [runPhase, he, hdescend]
    rw [hphase]
    cases cause <;> rfl
  | ok d =>
    have hphase : o.runPhase s store (further + 1) =
        (Interruption.lift ((project (o.afterPhase s d) store).1.map fun () =>
          some (o.afterPhase s d)), events, (project (o.afterPhase s d) store).2) := by
      simp only [runPhase, he, hdescend]
    rw [hphase, conclude]
    rcases project (o.afterPhase s d) store with ⟨written, store'⟩
    cases written <;> rfl

theorem conclude_written {d : Descent α} (h : (project (o.afterPhase s d) store).1 = .ok ()) :
    o.conclude s store events (.ok d) =
      { result := .ok (some (o.afterPhase s d))
        events := events ++ Event.change s.status (o.afterPhase s d).status
        store := (project (o.afterPhase s d) store).2 } := by
  rcases hproject : project (o.afterPhase s d) store with ⟨written, store'⟩
  rw [hproject] at h
  subst h
  simp only [conclude, hproject]

theorem conclude_refused {d : Descent α} {cause : Fault}
    (h : (project (o.afterPhase s d) store).1 = .error cause) :
    o.conclude s store events (.ok d) =
      { result := .error cause, events, store := (project (o.afterPhase s d) store).2 } := by
  rcases hproject : project (o.afterPhase s d) store with ⟨written, store'⟩
  rw [hproject] at h
  subst h
  simp only [conclude, hproject]

/-- A step that goes on used up its iterations, and its variables have been written. -/
theorem conclude_running {ending : Except Interruption (Descent α)} (hrunning : s.status = .running)
    (hresult : (o.conclude s store events ending).result = .ok (some s₁))
    (hgoing : s₁.status = .running) :
    ∃ d, ending = .ok d ∧ s₁ = o.afterPhase s d ∧
      phaseConverged d.reading.decrement o.phaseStop = false ∧ (project s₁ store).1 = .ok () ∧
      (o.conclude s store events ending).events = events ∧
      (o.conclude s store events ending).store = (project s₁ store).2 := by
  cases ending with
  | error cause =>
    cases cause with
    | numeric cause =>
      cases hresult
      cases hgoing
    | fault cause => cases hresult
  | ok d =>
    cases hwritten : (project (o.afterPhase s d) store).1 with
    | error cause =>
      rw [conclude_refused hwritten] at hresult
      cases hresult
    | ok written =>
      rw [conclude_written hwritten] at hresult ⊢
      cases hresult
      refine ⟨d, rfl, rfl, ?_, hwritten, ?_, rfl⟩
      · simpa [afterPhase] using hgoing
      · simp [hrunning, hgoing, Event.change]

/-! ## Writing again -/

omit [Scalar α] in
theorem projection_keys (s : State α) :
    s.projection.map Prod.fst = Keyed.names (s.paths.take (min s.paths.length s.count)) := by
  rw [State.projection, Keyed.keys_ofList, List.zip_eq_zip_take_min, List.map_fst_zip (by simp)]
  rfl

omit [Scalar α] in
theorem projection_keys_eq (hpaths : t.paths = s.paths) (hcount : t.count = s.count) :
    t.projection.map Prod.fst = s.projection.map Prod.fst := by
  rw [projection_keys, projection_keys, hpaths, hcount]

omit [Scalar α] in
/-- Other values of the same variables are written to a store like the first ones. -/
theorem project_alike (hpaths : t.paths = s.paths) (hcount : t.count = s.count) :
    (project t store).1 = (project s store).1 := by
  unfold project
  cases store with
  | none => rfl
  | some shapes =>
    by_cases hempty : s.paths.isEmpty
    · simp [hpaths, hempty]
    · simp only [hpaths, hempty, Bool.false_eq_true, ↓reduceIte]
      have hsame : shapes.AlikeOn (fun _ => True) shapes := fun _ _ => rfl
      exact Shapes.Store.insert_alike hsame (fun _ _ _ _ _ => trivial)
        (projection_keys_eq hpaths hcount)

omit [Scalar α] in
/-- And they are written over those, if the paths are apart. -/
theorem project_again (hpaths : t.paths = s.paths) (hcount : t.count = s.count)
    (hapart : ∀ shapes, store = some shapes → shapes.Apart s.paths) :
    (project t (project s store).2).1 = (project s store).1 := by
  cases store with
  | none => rfl
  | some shapes =>
    by_cases hempty : s.paths.isEmpty
    · simp [project, hpaths, hempty]
    · have hkeys : ∀ path ∈ s.projection.map Prod.fst, path ∈ s.paths := by
        intro path hpath
        rw [projection_keys] at hpath
        exact List.mem_of_mem_take (Keyed.names_subset _ hpath)
      simp only [project, hpaths, hempty, Bool.false_eq_true, ↓reduceIte]
      exact Shapes.Store.insert_again ((hapart shapes rfl).mono hkeys)
        (projection_keys_eq hpaths hcount)

/-! ## Steps in parts -/

/-- The result of the second part of a step, which started from `s₁`, beside the result of the whole
step from `s`: both end with one fault or one message, or the states agree up to the number of phases. -/
inductive PartsAgree (s s₁ : State α) :
    Except Fault (Option (State α)) → Except Fault (Option (State α)) → Prop where
  | fault (cause : Fault) : PartsAgree s s₁ (.error cause) (.error cause)
  | failed (message : Option String) : PartsAgree s s₁
      (.ok (some { s₁ with status := .failed message })) (.ok (some { s with status := .failed message }))
  | ended {s' : State α} : s'.status.isTerminal = false →
      PartsAgree s s₁ (.ok (some { s' with phase := s'.phase + 1 })) (.ok (some s'))

omit [Scalar α] in
theorem PartsAgree.eq_of_going {s' : State α} {result : Except Fault (Option (State α))}
    (h : PartsAgree s s₁ result (.ok (some s'))) (hgoing : s'.status.isTerminal = false) :
    result = .ok (some { s' with phase := s'.phase + 1 }) := by
  cases h with
  | failed => cases hgoing
  | ended => rfl

/-- The end of a phase makes the same of a state and of one that a part of the phase led to. -/
theorem conclude_parts {d : Descent α} (store store₁ : Option (Shapes.Store α))
    (before events : List (Event α)) (ending : Except Interruption (Descent α)) (count : Int)
    (hrunning : s.status = .running) (hs₁ : s₁ = o.afterPhase s d) (hgoing : s₁.status = .running)
    (hwritten : ∀ d', ending = .ok d' → (project (o.afterPhase s d') store).1 = .ok () ∧
      (project (o.afterPhase s₁ d') store₁).1 = .ok ()) :
    PartsAgree s s₁ (o.conclude s₁ store₁ events ending).result
        (o.conclude s store (before ++ events.map (Event.resumed s.phase count)) ending).result ∧
      (o.conclude s store (before ++ events.map (Event.resumed s.phase count)) ending).events =
        before ++ (o.conclude s₁ store₁ events ending).events.map (Event.resumed s.phase count) := by
  have hround : s₁.round = s.round := by rw [hs₁]; rfl
  have hweight : s₁.weight = s.weight := by rw [hs₁]; rfl
  cases ending with
  | error cause =>
    cases cause with
    | numeric cause =>
      refine ⟨.failed _, ?_⟩
      simp [conclude, hrunning, hgoing, hround, hweight, Event.resumed]
    | fault cause => exact ⟨.fault cause, rfl⟩
  | ok d' =>
    obtain ⟨hwhole, hsecond⟩ := hwritten d' rfl
    have hphase : o.afterPhase s₁ d' =
        { o.afterPhase s d' with phase := (o.afterPhase s d').phase + 1 } := by rw [hs₁]; rfl
    have hterminal : (o.afterPhase s d').status.isTerminal = false := by
      rcases o.afterPhase_status s d' with hstatus | hstatus <;> rw [hstatus] <;> rfl
    rw [conclude_written hwhole, conclude_written hsecond]
    constructor
    · rw [hphase]
      exact .ended hterminal
    · simp [hphase, hrunning, hgoing]

/-- **Steps in parts.** A phase may be run with a budget or with parts of it in a row. Where the first
part goes on, the second ends like a step with the whole budget: with the same fault, with the same
failure, or with a state that differs in the number of phases only. What is reported is the same too,
but for the numbers of the iterations. Where there is a store of shapes, a path that names a whole list of
it must not stand beside a path of a component of that list. -/
theorem History.split_budget (h : o.History s₀ log s) (hrunning : s.status = .running) {a b : Int}
    (ha : 1 ≤ a) (hb : 1 ≤ b) (hresult : (o.step s store a).result = .ok (some s₁))
    (hgoing : s₁.status = .running)
    (hapart : ∀ shapes, store = some shapes → shapes.Apart s.paths) :
    let first := o.step s store a
    let second := o.step s₁ first.store b
    let whole := o.step s store (a + b)
    PartsAgree s s₁ second.result whole.result ∧
      whole.events = first.events ++ second.events.map (Event.resumed s.phase a) := by
  obtain ⟨_, e, _, _, he⟩ := h.coherent.weighted (.inl hrunning)
  have hrecalls := h.coherent.running hrunning e he
  have hlength := h.coherent.objective_count hrunning he
  have hfinite := (step_stepped hresult).2.finite_values (by rw [hrunning]; rfl)
    (by rw [Option.getD_some, hgoing]; rfl)
  obtain ⟨further, rfl⟩ : ∃ further : Nat, a = further + 1 := ⟨(a - 1).toNat, by omega⟩
  obtain ⟨more, rfl⟩ : ∃ more : Nat, b = more + 1 := ⟨(b - 1).toNat, by omega⟩
  rcases hdescend : o.descend s e further 0 s.values s.memory with ⟨events, ending⟩
  have hended := o.descend_ended s e further s.values s.memory
  have hfirst := o.step_running store hrunning hfinite he (rfl : (further + 1 : Int) = _)
  rw [hdescend] at hended hfirst
  rw [hfirst] at hresult
  obtain ⟨d, rfl, hs₁, hconverged, hwritten, hevents, hstore⟩ :=
    conclude_running hrunning hresult hgoing
  -- The whole phase goes on from `s₁` as the second part does.
  have hvalues : s₁.values = d.values := by rw [hs₁]; rfl
  have hfinite₁ : ensureFinite .values s₁.values = .ok () :=
    ensureFinite_eq_ok_iff.mpr (hvalues ▸ hended.finite.1.values)
  have he₁ : s₁.objective = some e := by rw [hs₁]; exact he
  have hsecond := o.step_running (project s₁ store).2 hgoing hfinite₁ he₁ (rfl : (more + 1 : Int) = _)
  have hwhole := o.step_running store hrunning hfinite he
    (by omega : (further + 1 + (more + 1) : Int) = (further + 1 + more : Nat) + 1)
  have hended' := o.descend_ended s e (further + 1 + more) s.values s.memory
  rw [descend_parts hdescend hconverged hs₁] at hwhole hended'
  generalize o.descend s₁ e more 0 s₁.values s₁.memory = rest at hsecond hwhole hended'
  obtain ⟨later, ending⟩ := rest
  simp only [hfirst, hevents, hstore, hsecond, hwhole]
  refine conclude_parts store (project s₁ store).2 events later ending (further + 1) hrunning hs₁ hgoing
    fun d' hd' => ?_
  -- The store takes what either part writes, as it took what the first part wrote.
  subst hd'
  have hpaths : s₁.paths = s.paths := by rw [hs₁]; rfl
  have hcount : d'.values.length = s₁.values.length := by
    rw [hvalues, (hended.recalls hrecalls hlength).1, (hended'.recalls hrecalls hlength).1]
  constructor
  · rw [project_alike (s := s₁) (t := o.afterPhase s d') hpaths.symm hcount, hwritten]
  · rw [project_again (s := s₁) (t := o.afterPhase s₁ d') rfl hcount (hpaths ▸ hapart), hwritten]

/-- A circle with its center in a list. -/
def centeredCircle : Shapes.Store Float where
  shapes := [("A", [("center", .list [.number 0, .number 1])])]

/-- A run that is to move the circle to three, once its first round has opened. -/
def centeredCircleRun (paths : List String) : Except Fault (State Float) := do
  let s₀ ← (inDoubles.start [⟨"equal", [.varying 0, .number 3], .objective⟩] []
    (.array [.entry 0, .entry 1]) (some paths)).result
  (inDoubles.run s₀ (some centeredCircle) 1 1).result

/-- The first iteration of a phase goes on and the first two settle, and what comes of the second one
alone, after the first, passes a test. -/
def settlesInTwo (paths : List String) (test : Except Fault Unit → Bool) (s : State Float) : Bool :=
  let first := inDoubles.step s (some centeredCircle) 1
  let whole := inDoubles.step s (some centeredCircle) (1 + 1)
  decide (s.status = .running) && decide (s.paths = paths) &&
    (whole.result.toOption.join.any fun s' => decide (s'.status = .settled)) &&
    first.result.toOption.join.any fun s₁ => decide (s₁.status = .running) &&
      test ((inDoubles.step s₁ first.store 1).result.map fun _ => ())

theorem centeredCircle_parts (paths : List String) (test : Except Fault Unit → Bool)
    (h : (centeredCircleRun paths).toOption.any (settlesInTwo paths test) = true) :
    ∃ s₀ log s s₁ s', inDoubles.History s₀ log s ∧ s.status = .running ∧ s.paths = paths ∧
      (inDoubles.step s (some centeredCircle) 1).result = .ok (some s₁) ∧ s₁.status = .running ∧
      (inDoubles.step s (some centeredCircle) (1 + 1)).result = .ok (some s') ∧ s'.status = .settled ∧
      test ((inDoubles.step s₁ (inDoubles.step s (some centeredCircle) 1).store 1).result.map
        fun _ => ()) = true := by
  obtain ⟨s, hopened, h⟩ := (Option.any_eq_true _ _).mp h
  obtain ⟨s₀, hstart, hrun⟩ := bind_eq_ok_iff.mp (toOption_eq_some_iff.mp hopened)
  simp only [settlesInTwo, Bool.and_eq_true, decide_eq_true_eq, Option.any_eq_true,
    Option.join_eq_some_iff, toOption_eq_some_iff] at h
  obtain ⟨⟨⟨hrunning, hpaths⟩, s', hwhole, hsettled⟩, s₁, hfirst, hgoing, htest⟩ := h
  exact ⟨s₀, _, s, s₁, s', (History.start hstart).run _ 1 1 hrun, hrunning, hpaths, hfirst, hgoing,
    hwhole, hsettled, htest⟩

theorem centeredCircle_split_budget : ∃ s₀ log s s₁ s', inDoubles.History s₀ log s ∧
    (inDoubles.step s (some centeredCircle) 1).result = .ok (some s₁) ∧
      (inDoubles.step s (some centeredCircle) (1 + 1)).result = .ok (some s') ∧
      s'.status = .settled ∧
      (inDoubles.step s₁ (inDoubles.step s (some centeredCircle) 1).store 1).result =
        .ok (some { s' with phase := s'.phase + 1 }) := by
  obtain ⟨s₀, log, s, s₁, s', history, hrunning, hpaths, hfirst, hgoing, hwhole, hsettled, -⟩ :=
    centeredCircle_parts ["A.center.0", "A.center.1"] (fun _ => true) (by decide +kernel)
  have hlists : ∀ path ∈ s.paths, (centeredCircle.get path).toOption.any Value.isList = false := by
    rw [hpaths]
    decide +kernel
  have hapart : ∀ shapes, some centeredCircle = some shapes → shapes.Apart s.paths := by
    rintro _ ⟨⟩
    refine Shapes.Store.apart_of_no_list fun path hpath vs hvs => ?_
    have hlist := hlists path hpath
    rw [hvs] at hlist
    cases hlist
  obtain ⟨hparts, _⟩ := history.split_budget hrunning le_rfl le_rfl hfirst hgoing hapart
  rw [hwhole] at hparts
  exact ⟨s₀, log, s, s₁, s', history, hfirst, hwhole, hsettled,
    hparts.eq_of_going (by rw [hsettled]; rfl)⟩

/-- The first part writes the center in the place of the list, so the second part finds no components
there any more. A step with the whole budget writes once, and ends well. -/
theorem centeredCircle_refused : ∃ s₀ log s s₁ s', inDoubles.History s₀ log s ∧
    s.status = .running ∧ s.paths = ["A.center.0", "A.center"] ∧
      (inDoubles.step s (some centeredCircle) 1).result = .ok (some s₁) ∧ s₁.status = .running ∧
      (inDoubles.step s (some centeredCircle) (1 + 1)).result = .ok (some s') ∧ s'.status = .settled ∧
      (inDoubles.step s₁ (inDoubles.step s (some centeredCircle) 1).store 1).result =
        .error (.unknownPath "A.center.0") := by
  obtain ⟨s₀, log, s, s₁, s', history, hrunning, hpaths, hfirst, hgoing, hwhole, hsettled, htest⟩ :=
    centeredCircle_parts ["A.center.0", "A.center"]
      (fun second => decide (second = .error (.unknownPath "A.center.0"))) (by decide +kernel)
  exact ⟨s₀, log, s, s₁, s', history, hrunning, hpaths, hfirst, hgoing, hwhole, hsettled,
    map_eq_error_iff.mp (of_decide_eq_true htest)⟩

/-- So paths that are not apart can be written once and not again, and the parts of a step need not end
like the whole. -/
theorem centeredCircle_parts_differ : ¬ ∀ (o : Optimizer Float) s₀ log s s₁ store a b,
    o.check = .ok () → o.lineSearch.check = .ok () → o.History s₀ log s → s.status = .running →
      1 ≤ a → 1 ≤ b → (o.step s store a).result = .ok (some s₁) → s₁.status = .running →
      PartsAgree s s₁ (o.step s₁ (o.step s store a).store b).result (o.step s store (a + b)).result := by
  intro h
  obtain ⟨s₀, log, s, s₁, s', history, hrunning, _, hfirst, hgoing, hwhole, _, hrefused⟩ :=
    centeredCircle_refused
  have hparts := h inDoubles s₀ log s s₁ (some centeredCircle) 1 1 (by decide +kernel)
    (by decide +kernel) history hrunning le_rfl le_rfl hfirst hgoing
  rw [hrefused, hwhole] at hparts
  cases hparts

end Optimizer

end DiagramLayout
