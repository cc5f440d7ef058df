import DiagramLayout.Proofs.Optimizer.Memory
import DiagramLayout.Proofs.Optimizer.Session
import Mathlib.Data.List.Induction

/-!
# Runs without a memory

A memory of capacity zero still forms a difference at every point and drops it at once, so that it is
left with the gradient. The run is that of steepest descent, up to what the memory knows of the last
point.
-/

namespace DiagramLayout

variable {α : Type}

/-- The state with an emptied memory. -/
def State.forget (s : State α) : State α := { s with memory := s.memory.reset }

/-- A reading with an emptied memory. -/
def Reading.forget (r : Reading α) : Reading α := { r with memory := r.memory.reset }

/-- The outcome of an iteration with an emptied memory. -/
def Iterate.forget : Iterate α → Iterate α
  | .interrupted trials cause => .interrupted trials cause
  | .settled r => .settled r.forget
  | .moved r trials step next => .moved r.forget trials step next

/-- The end of a phase with an emptied memory. -/
def Descent.forget (d : Descent α) : Descent α := { d with reading := d.reading.forget }

/-- A turn with another result. -/
def Turn.map {β γ : Type} (f : β → γ) (turn : Turn α β) : Turn α γ :=
  { result := turn.result.map f, events := turn.events, store := turn.store }

/-- The latest state of a caller with an emptied memory. -/
def Session.forget (x : Session α) : Session α := { x with state := x.state.forget }

theorem Session.forget_after (x : Session α) (turn : Turn α (State α)) :
    (x.after turn).forget = x.forget.after (turn.map State.forget) := by
  cases hresult : turn.result <;> simp [Session.after, Session.forget, Turn.map, hresult, Except.map]

variable [Scalar α]

/-! ## Memories of capacity zero -/

namespace Lbfgs.Memory

omit [Scalar α] in
theorem reset_eq_of_capacity {m m' : Memory α} (h : m'.capacity = m.capacity) :
    m'.reset = m.reset := by simp [reset, h]

namespace Holds

variable {m : Memory α} {n : Nat} {visits : List (Visit α)}

/-- A memory of capacity zero holds one visit at most, so no difference. -/
theorem pairs_plain (h : m.Holds n visits) (hzero : m.capacity = 0) : m.pairs = [] := by
  have hlength : visits.length ≤ 1 := by
    have hcount := h.count
    rw [hzero] at hcount
    omega
  rw [h.pairs, ← List.length_eq_zero_iff, length_differences]
  omega

/-- A memory of capacity zero gives the gradient, whether or not the gradient descends. -/
theorem direction_plain (h : m.Holds n visits) (hzero : m.capacity = 0) {x g : List α}
    (hx : x.length = n) (hg : g.length = n) :
    ∃ m', m.precondition x g = .ok (g, m') ∧ m'.capacity = 0 := by
  rw [h.precondition_eq hx hg]
  split
  · exact ⟨_, rfl, hzero⟩
  · rw [hzero]
    simp only [Nat.zero_add, List.take_succ_cons, List.take_zero, differences_single]
    have hidentity : twoLoop ([] : List (Pair α)) g = .ok g := rfl
    rw [hidentity, ok_bind]
    split
    · exact ⟨_, rfl, rfl⟩
    · exact ⟨_, rfl, rfl⟩

end Holds

end Lbfgs.Memory

/-! ## The identity as a preconditioner -/

namespace Preconditioner

open WeightedEnergy Optimizer

/-- The gradient itself, with the memory as it was. -/
def steepest : Preconditioner α := fun m _ gradient => .ok (gradient, m)

variable {o : Optimizer α} {e : WeightedEnergy α} {xs : List α} {m : Lbfgs.Memory α}
  {path : List (List α)} {s s₀ : State α} {log : List (Event α)}

theorem steepest_read (hrecalls : e.Recalls m path) (hzero : m.capacity = 0) :
    Optimizer.read e m.reset xs steepest = (Optimizer.read e m xs).map Reading.forget := by
  obtain ⟨visits, holds, _, _⟩ := hrecalls
  unfold Optimizer.read
  cases ensureFinite .values xs with
  | error cause => rfl
  | ok _ =>
    cases hvalue : e.value xs with
    | error cause => rfl
    | ok energy =>
      cases hgradient : e.gradient xs with
      | error cause => rfl
      | ok gradient =>
        have hx := length_of_value hvalue
        have hg := WeightedEnergy.length_gradient hgradient
        obtain ⟨m', hdirection, hzero'⟩ := holds.direction_plain hzero hx hg
        have hreset : m'.reset = m.reset :=
          Lbfgs.Memory.reset_eq_of_capacity (hzero'.trans hzero.symm)
        simp only [Interruption.lift, ok_bind, Preconditioner.ofMemory, hdirection, steepest]
        cases ensureFinite .energy [energy] with
        | error cause => rfl
        | ok _ =>
          cases ensureFinite .gradient gradient with
          | error cause => rfl
          | ok _ =>
            simp [bind, Except.bind, pure, Except.pure, Except.map, Reading.forget, hreset]

theorem steepest_iterate (hrecalls : e.Recalls m path) (hzero : m.capacity = 0) :
    o.iterate e xs m.reset steepest = (o.iterate e xs m).forget := by
  unfold iterate
  rw [steepest_read hrecalls hzero]
  cases Optimizer.read e m xs with
  | error cause => rfl
  | ok r =>
    have hlength : o.stepLength e xs r.forget = o.stepLength e xs r := rfl
    simp only [Except.map, hlength]
    by_cases hearly : (o.breaksEarly && phaseConverged r.decrement o.phaseStop) = true
    · simp [Reading.forget, hearly, Iterate.forget]
    · simp only [Reading.forget, hearly, Bool.false_eq_true, ↓reduceIte]
      cases o.stepLength e xs r with
      | error cause => rfl
      | ok found =>
        simp only
        cases ensureFinite .update (Vec.sub xs (Vec.scale found.step r.slopes.direction)) with
        | error cause => rfl
        | ok _ => rfl

/-- A phase: at every point of it the memory recalls those before. -/
theorem steepest_descend (s : State α) (further number : Nat) (xs : List α)
    (hrecalls : e.Recalls m path) (hzero : m.capacity = 0) :
    o.descend s.forget e further number xs m.reset steepest =
      ((o.descend s e further number xs m).1,
        (o.descend s e further number xs m).2.map Descent.forget) := by
  induction further generalizing number xs m path with
  | zero =>
    unfold descend
    rw [steepest_iterate hrecalls hzero]
    cases o.iterate e xs m <;> rfl
  | succ further ih =>
    unfold descend
    rw [steepest_iterate hrecalls hzero]
    cases hiterate : o.iterate e xs m with
    | interrupted trials cause => rfl
    | settled r => rfl
    | moved r trials step next =>
      obtain ⟨reading, _⟩ := iterate_moved hiterate
      obtain ⟨hrecalls', hcapacity, _⟩ := reading.recalls hrecalls
      have hrest := ih (number + 1) next hrecalls' (hcapacity.trans hzero)
      simp only [Iterate.forget, Reading.forget, hrest]
      rfl

/-! ## Steps -/

theorem afterPhase_forget (o : Optimizer α) (s : State α) (d : Descent α) :
    o.afterPhase s.forget d.forget = (o.afterPhase s d).forget := by
  cases hconverged : phaseConverged d.reading.decrement o.phaseStop <;>
    simp [afterPhase, State.forget, Descent.forget, Reading.forget, Lbfgs.Memory.reset, hconverged]

theorem startRound_forget (o : Optimizer α) (s : State α) :
    o.startRound s.forget =
      ((o.startRound s).1.map (Option.map State.forget), (o.startRound s).2) := by
  have hready (s : State α) (energy : Energy α) (h : s.energy = some energy) :
      o.startRound s.forget =
        ((o.startRound s).1.map (Option.map State.forget), (o.startRound s).2) := by
    have h' : s.forget.energy = some energy := h
    simp only [startRound, h, h', ok_bind]
    cases energy.atWeight o.initialWeight with
    | error cause => rfl
    | ok objective =>
      cases hmemory : Lbfgs.Memory.fresh (α := α) o.historySize with
      | error cause => rfl
      | ok m =>
        obtain ⟨_, rfl⟩ := Lbfgs.Memory.fresh_eq_ok_iff.mp hmemory
        rfl
  cases h : s.energy with
  | some energy => exact hready s energy h
  | none =>
    -- What is compiled stands in for the energy that is there.
    have h' : s.forget.energy = none := h
    have hproblem : s.forget.problem = s.problem := rfl
    cases hcompile : o.compile s.problem with
    | mk compiled events =>
      simp only [startRound, h, h', hproblem, hcompile]
      cases compiled with
      | error cause => rfl
      | ok energy =>
        have hcompiled := hready { s with energy := some energy } energy rfl
        exact congrArg (fun turn => (turn.1, events)) hcompiled

theorem closeRound_forget (o : Optimizer α) (s : State α) :
    o.closeRound s.forget = (o.closeRound s).map (Option.map State.forget) := by
  have hconverged : o.hasConverged s.forget = o.hasConverged s := rfl
  have henergy : s.forget.energy = s.energy := rfl
  have hweight : s.forget.weight = s.weight := rfl
  unfold closeRound
  rw [henergy, hconverged, hweight]
  cases s.energy with
  | none => rfl
  | some energy =>
    simp only
    cases o.hasConverged s with
    | error cause => rfl
    | ok converged =>
      cases converged with
      | true => rfl
      | false =>
        simp only [ok_bind, Bool.false_eq_true, ↓reduceIte]
        cases require (Scalar.atMost s.weight (o.growth * s.weight)) .weightGrows with
        | error cause => rfl
        | ok _ =>
          simp only [ok_bind]
          cases energy.atWeight (o.growth * s.weight) with
          | error cause => rfl
          | ok objective => rfl

variable {store : Option (Shapes.Store α)}

theorem steepest_runPhase (c : Coherent o s₀ log s) (hsize : o.historySize = 0)
    (hrunning : s.status = .running) (budget : Nat) :
    o.runPhase s.forget store budget steepest =
      ((o.runPhase s store budget).1.map (Option.map State.forget), (o.runPhase s store budget).2) := by
  have hzero : s.memory.capacity = 0 := by
    rw [c.capacity, hsize]
    rfl
  cases budget with
  | zero => rfl
  | succ further =>
    cases he : s.objective with
    | none => simp [runPhase, State.forget, he, Except.map]
    | some e =>
      have he' : s.forget.objective = some e := he
      have hdescend := steepest_descend (o := o) s further 0 s.values (c.running hrunning e he) hzero
      have hvalues : s.forget.values = s.values := rfl
      have hmemory : s.forget.memory = s.memory.reset := rfl
      simp only [runPhase, he, he', hvalues, hmemory, hdescend]
      rcases o.descend s e further 0 s.values s.memory with ⟨events, result⟩
      cases result with
      | error cause => rfl
      | ok d =>
        simp only [Except.map, afterPhase_forget]
        have hproject : project (o.afterPhase s d).forget store = project (o.afterPhase s d) store := rfl
        rw [hproject]
        cases (project (o.afterPhase s d) store).1 <;> rfl

theorem steepest_advance (c : Coherent o s₀ log s) (hsize : o.historySize = 0) (budget : Nat) :
    o.advance s.forget store budget steepest =
      ((o.advance s store budget).1.map (Option.map State.forget), (o.advance s store budget).2) := by
  have hvalues : s.forget.values = s.values := rfl
  have hstatus : s.forget.status = s.status := rfl
  unfold advance
  rw [hvalues, hstatus]
  cases ensureFinite .values s.values with
  | error cause => rfl
  | ok _ =>
    cases hs : s.status with
    | fresh => simp [startRound_forget]
    | running => exact steepest_runPhase c hsize hs budget
    | settled => simp [closeRound_forget]
    | converged => rfl
    | failed message => rfl

/-- **A step and forgetting commute.** -/
theorem steepest_step (c : Coherent o s₀ log s) (hsize : o.historySize = 0) (budget : Int) :
    o.step s.forget store budget steepest = (o.step s store budget).map (Option.map State.forget) := by
  have hstatus : s.forget.status = s.status := rfl
  unfold step
  rw [hstatus, steepest_advance c hsize]
  split
  · rfl
  · split
    · rfl
    · rcases o.advance s store budget.toNat with ⟨outcome, events, store'⟩
      cases outcome with
      | ok next => cases next <;> rfl
      | error interruption => cases interruption <;> rfl

omit [Scalar α] in
theorem getD_forget (s : State α) (next : Option (State α)) :
    (next.map State.forget).getD s.forget = (next.getD s).forget := by cases next <;> rfl

theorem steepest_runFor (h : o.History s₀ log s) (hsize : o.historySize = 0) (budget : Int)
    (calls : Nat) : o.runFor budget calls s.forget store steepest =
      (o.runFor budget calls s store).map State.forget := by
  induction calls generalizing log s store with
  | zero => rfl
  | succ calls ih =>
    have hstatus : s.forget.status = s.status := rfl
    unfold runFor
    rw [hstatus]
    split
    · rfl
    · simp only [steepest_step h.coherent hsize, Turn.map]
      cases hresult : (o.step s store budget).result with
      | error cause => rfl
      | ok next =>
        simp only [Except.map, getD_forget, ih (h.step store budget hresult)]
        rfl

omit [Scalar α] in
theorem resample_forget (o : Optimizer α) (s : State α) (initial : Tensor α) :
    o.resample s.forget initial = (o.resample s initial).map State.forget := by
  unfold resample
  cases initial.shape? with
  | none => rfl
  | some shape =>
    cases initial.flat? with
    | none => rfl
    | some values =>
      have hcount : s.forget.count = s.count := rfl
      simp only [hcount]
      split <;> rfl

theorem steepest_answer (h : o.History s₀ log s) (hsize : o.historySize = 0) (call : Call α) :
    steepest.answer o s.forget call = (o.answer s call).map State.forget := by
  cases call with
  | step store budget =>
    simp only [Preconditioner.answer, answer_step, steepest_step h.coherent hsize, Turn.map]
    cases (o.step s store budget).result with
    | error cause => rfl
    | ok next => simp [Except.map]
  | run store budget calls =>
    simp only [Preconditioner.answer, answer_run, run]
    split
    · rfl
    · exact steepest_runFor h hsize budget calls.toNat
  | resample initial => exact resample_forget o s initial

end Preconditioner

/-! ## Directions and memories of a run -/

namespace Optimizer

variable {o : Optimizer α} {s s₀ s' : State α} {log events : List (Event α)}

/-- What is kept of the slopes of a point is the gradient, twice. -/
def Plain (s : State α) : Prop :=
  ∀ slopes, s.lastSlopes = some slopes → slopes.direction = slopes.gradient

theorem IsReading.plain {e : WeightedEnergy α} {m : Lbfgs.Memory α} {xs : List α} {r : Reading α}
    {path : List (List α)} (reading : IsReading e m xs r) (hrecalls : e.Recalls m path)
    (hzero : m.capacity = 0) : r.slopes.direction = r.slopes.gradient := by
  obtain ⟨visits, holds, _, _⟩ := hrecalls
  obtain ⟨m', hdirection, _⟩ :=
    holds.direction_plain hzero reading.length_values reading.length_gradient
  rw [reading.direction] at hdirection
  exact (Prod.mk.inj (Except.ok.inj hdirection)).1

theorem Ended.plain {e : WeightedEnergy α} {start : List α} {memory : Lbfgs.Memory α}
    {further : Nat} {d : Descent α} {path : List (List α)}
    (h : Ended o s e start memory further events (.ok d)) (hrecalls : e.Recalls memory path)
    (hstart : start.length = e.energy.count) (hzero : memory.capacity = 0) :
    d.reading.slopes.direction = d.reading.slopes.gradient := by
  cases h with
  | settled walk _ hiterate =>
    obtain ⟨hmemory, hcapacity, _⟩ := walk.recalls hrecalls hstart
    exact (iterate_settled hiterate).1.plain hmemory (hcapacity.trans hzero)
  | spent walk hiterate =>
    obtain ⟨hmemory, hcapacity, _⟩ := walk.recalls hrecalls hstart
    exact (iterate_moved hiterate).1.plain hmemory (hcapacity.trans hzero)

theorem Stepped.plain {budget : Nat} (h : Stepped o s budget s' events) (c : Coherent o s₀ log s)
    (hsize : o.historySize = 0) (hplain : Plain s) : Plain s' := by
  cases h with
  | idle | converged | continued | failed => exact hplain
  | started =>
    intro slopes hslopes
    cases hslopes
    rfl
  | @phase e _ d _ _ hrunning he _ hended =>
    intro slopes hslopes
    cases hslopes
    refine hended.plain (c.running hrunning e he) (c.objective_count hrunning he) ?_
    rw [c.capacity, hsize]
    rfl

theorem History.plain (h : o.History s₀ log s) (hsize : o.historySize = 0) : Plain s := by
  refine h.steps (P := fun _ s => Plain s) ?_ ?_ ?_
  · intro _ _ _ _ hstart slopes hslopes
    obtain ⟨_, _, _, _, _, _, rfl⟩ := start_eq_ok hstart
    cases hslopes
  · intro _ _ _ _ _ history hstep hplain
    exact hstep.plain history.coherent hsize hplain
  · intro _ _ _ _ _ hresample _ slopes hslopes
    obtain ⟨_, _, _, rfl⟩ := resample_eq_ok hresample
    cases hslopes

/-- In every state the memory has no differences. -/
theorem Coherent.pairs_plain (c : Coherent o s₀ log s) (hsize : o.historySize = 0) :
    s.memory.pairs = [] := by
  have hzero : s.memory.capacity = 0 := by
    rw [c.capacity, hsize]
    rfl
  have hempty (h : s.memory = { capacity := s.memory.capacity }) : s.memory.pairs = [] := by rw [h]
  have hrecalled {e : WeightedEnergy α} {path : List (List α)} (h : e.Recalls s.memory path) :
      s.memory.pairs = [] := by
    obtain ⟨visits, holds, _, _⟩ := h
    exact holds.pairs_plain hzero
  cases hstatus : s.status with
  | fresh => exact hempty (c.emptied (.inl hstatus))
  | settled => exact hempty (c.emptied (.inr (.inl hstatus)))
  | converged => exact hempty (c.emptied (.inr (.inr hstatus)))
  | running =>
    obtain ⟨_, e, _, _, he⟩ := c.weighted (.inl hstatus)
    exact hrecalled (c.running hstatus e he)
  | failed message =>
    rcases c.failed message hstatus with h | ⟨_, _, _, _, _, h, _⟩
    · exact hempty h
    · exact hrecalled h

/-! ## Runs -/

/-- Calls in a row and forgetting commute. -/
theorem steepest_session {objectives constraints : List (Term α)} {initial : Tensor α}
    {paths : Option (List String)}
    (hstart : (o.start objectives constraints initial paths).result = .ok s₀)
    (hsize : o.historySize = 0) (calls : List (Call α)) :
    Session.go (Preconditioner.steepest.answer o) { state := s₀ } calls =
      (o.session s₀ calls).forget := by
  induction calls using List.reverseRecOn with
  | nil =>
    obtain ⟨_, _, _, _, _, _, rfl⟩ := start_eq_ok hstart
    rfl
  | append_singleton calls call ih =>
    obtain ⟨_, history⟩ := session_history hstart calls
    have hcall := Preconditioner.steepest_answer history hsize call
    rw [Session.go_concat, ih, session_concat, Session.forget_after]
    exact congrArg _ hcall

/-- **Without a memory the method is that of steepest descent.** With a capacity of zero every run, call
by call, is the one that takes the gradient itself for the direction: it is in the same state but for
the last point of the memory, has reported the same events, and answers every further call alike. In
every state the direction kept is the gradient, and the memory has no differences. -/
theorem session_steepest {objectives constraints : List (Term α)} {initial : Tensor α}
    {paths : Option (List String)} (hsize : o.historySize = 0)
    (hstart : (o.start objectives constraints initial paths).result = .ok s₀)
    (calls : List (Call α)) :
    (∀ s call, Preconditioner.ofMemory.answer o s call = o.answer s call) ∧
    (Session.go (Preconditioner.steepest.answer o) { state := s₀ } calls).state =
      (o.session s₀ calls).state.forget ∧
    (Session.go (Preconditioner.steepest.answer o) { state := s₀ } calls).log =
      (o.session s₀ calls).log ∧
    (∀ call, Preconditioner.steepest.answer o (o.session s₀ calls).state.forget call =
      (o.answer (o.session s₀ calls).state call).map State.forget) ∧
    (∀ slopes, (o.session s₀ calls).state.lastSlopes = some slopes →
      slopes.direction = slopes.gradient) ∧
    (o.session s₀ calls).state.memory.pairs = [] := by
  obtain ⟨_, history⟩ := session_history hstart calls
  have hsession := steepest_session hstart hsize calls
  refine ⟨fun _ _ => rfl, ?_, ?_, ?_, history.plain hsize,
    history.coherent.pairs_plain hsize⟩
  · rw [hsession]
    rfl
  · rw [hsession]
    rfl
  · intro call
    exact Preconditioner.steepest_answer history hsize call

/-- The settings of a run with short steps and without a memory. -/
def withoutMemory : Optimizer ℚ := { shortSteps with historySize := 0 }

/-- Two steps, a new start, and two steps of a phase. -/
def callsAnew : List (Call ℚ) :=
  [.run none 1 2, .resample (.array [.entry 1]), .step none 1, .step none 2]

theorem withoutMemory_steepest : ∃ s₀, withoutMemory.historySize = 0 ∧
    (withoutMemory.start [⟨"equal", [.varying 0, .number 3], .objective⟩] [] (.array [.entry 0])
      none).result = .ok s₀ ∧
    (withoutMemory.session s₀ callsAnew).state.memory.steps = 2 ∧
    (Session.go (Preconditioner.steepest.answer withoutMemory) { state := s₀ } callsAnew).state =
      (withoutMemory.session s₀ callsAnew).state.forget ∧
    ∃ slopes, (withoutMemory.session s₀ callsAnew).state.lastSlopes = some slopes ∧
      slopes.direction = slopes.gradient := by
  have h : ((withoutMemory.start [⟨"equal", [.varying 0, .number 3], .objective⟩] []
      (.array [.entry 0]) none).result.map fun s₀ =>
        let s := (withoutMemory.session s₀ callsAnew).state
        s.memory.steps == 2 && s.lastSlopes.isSome).toOption = some true := by decide +kernel
  obtain ⟨s₀, hstart, htest⟩ := map_eq_ok_iff.mp (toOption_eq_some_iff.mp h)
  simp only [Bool.and_eq_true, beq_iff_eq, Option.isSome_iff_exists] at htest
  obtain ⟨hsteps, slopes, hslopes⟩ := htest
  obtain ⟨_, hstate, _, _, hplain, _⟩ := session_steepest rfl hstart callsAnew
  exact ⟨s₀, rfl, hstart, hsteps, hstate, slopes, hslopes, hplain slopes hslopes⟩

end Optimizer

end DiagramLayout
