import DiagramLayout.Proofs.Optimizer.Weight
import Mathlib.Data.List.Induction

/-!
# Runs call by call

A caller steps, runs and starts anew, each time from the latest state. A call that ends with a fault
leaves the caller with the state from before, though its reports have been seen.
-/

namespace DiagramLayout

/-- What a caller asks for. Steps and runs are given the store of shapes as it is then. -/
inductive Call (α : Type) where
  | step (store : Option (Shapes.Store α)) (budget : Int)
  | run (store : Option (Shapes.Store α)) (budget calls : Int)
  | resample (initial : Tensor α)

/-- Whether a call asks for a single step or for a new start. -/
def Call.isSingle {α : Type} : Call α → Bool
  | .run _ _ _ => false
  | _ => true

/-- The latest state of a caller, and everything that has been reported. -/
structure Session (α : Type) where
  state : State α
  log : List (Event α) := []

namespace Session

variable {α : Type} {answer : State α → Call α → Turn α (State α)} {x : Session α}

/-- After a turn; a fault leaves the state as it was. -/
def after (x : Session α) (turn : Turn α (State α)) : Session α where
  state := match turn.result with
    | .ok s => s
    | .error _ => x.state
  log := x.log ++ turn.events

/-- Calls in a row, each of the latest state. -/
def go (answer : State α → Call α → Turn α (State α)) (x : Session α) (calls : List (Call α)) :
    Session α :=
  calls.foldl (fun x call => x.after (answer x.state call)) x

theorem go_append (before later : List (Call α)) :
    go answer x (before ++ later) = go answer (go answer x before) later :=
  List.foldl_append

theorem go_concat (before : List (Call α)) (call : Call α) :
    go answer x (before ++ [call]) =
      (go answer x before).after (answer (go answer x before).state call) :=
  go_append before [call]

/-- What every call keeps, calls in a row keep. -/
theorem go_keeps {P : Session α → Prop} (start : P x)
    (call : ∀ x call, P x → P (x.after (answer x.state call))) (calls : List (Call α)) :
    P (go answer x calls) := by
  induction calls generalizing x with
  | nil => exact start
  | cons c calls ih => exact ih (call x c start)

theorem state_after_ok {turn : Turn α (State α)} {s : State α} (h : turn.result = .ok s) :
    (x.after turn).state = s := by
  simp only [after, h]

theorem state_after_error {turn : Turn α (State α)} {cause : Fault} (h : turn.result = .error cause) :
    (x.after turn).state = x.state := by
  simp only [after, h]

end Session

variable {α : Type} [Scalar α]

/-- What a call does to a state. A step that has nothing to do gives the state itself. -/
def Preconditioner.answer (p : Preconditioner α) (o : Optimizer α) (s : State α) :
    Call α → Turn α (State α)
  | .step store budget =>
    let turn := o.step s store budget p
    { result := turn.result.map fun next => next.getD s, events := turn.events, store := turn.store }
  | .run store budget calls => o.run s store budget calls p
  | .resample initial => o.resample s initial

namespace Optimizer

variable {o : Optimizer α} {s s₀ s' : State α} {store : Option (Shapes.Store α)}
  {events : List (Event α)}

/-- What a call does to a state, with directions from the memory. -/
def answer (o : Optimizer α) : State α → Call α → Turn α (State α) := Preconditioner.ofMemory.answer o

theorem answer_step (budget : Int) : o.answer s (.step store budget) =
    { result := (o.step s store budget).result.map fun next => next.getD s
      events := (o.step s store budget).events, store := (o.step s store budget).store } := rfl

theorem answer_run (budget calls : Int) :
    o.answer s (.run store budget calls) = o.run s store budget calls := rfl

theorem answer_resample (initial : Tensor α) :
    o.answer s (.resample initial) = o.resample s initial := rfl

/-- Calls in a row from a start. -/
def session (o : Optimizer α) (s₀ : State α) (calls : List (Call α)) : Session α :=
  Session.go o.answer { state := s₀ } calls

theorem session_concat (calls : List (Call α)) (call : Call α) :
    o.session s₀ (calls ++ [call]) =
      (o.session s₀ calls).after (o.answer (o.session s₀ calls).state call) :=
  Session.go_concat calls call

theorem session_log_concat (calls : List (Call α)) (call : Call α) :
    (o.session s₀ (calls ++ [call])).log =
      (o.session s₀ calls).log ++ (o.answer (o.session s₀ calls).state call).events := by
  rw [session_concat]
  rfl

/-- The latest state of a caller is a state of a run. -/
theorem session_history {objectives constraints : List (Term α)} {initial : Tensor α}
    {paths : Option (List String)}
    (hstart : (o.start objectives constraints initial paths).result = .ok s₀) (calls : List (Call α)) :
    ∃ log, o.History s₀ log (o.session s₀ calls).state := by
  apply Session.go_keeps (P := fun x => ∃ log, o.History s₀ log x.state) ⟨[], .start hstart⟩
  rintro x call ⟨log, history⟩
  cases hresult : (o.answer x.state call).result with
  | error cause =>
    rw [Session.state_after_error hresult]
    exact ⟨log, history⟩
  | ok s' =>
    rw [Session.state_after_ok hresult]
    cases call with
    | step store budget =>
      obtain ⟨next, hnext, rfl⟩ := map_eq_ok_iff.mp hresult
      exact ⟨_, history.step store budget hnext⟩
    | run store budget calls => exact ⟨_, history.run store budget calls hresult⟩
    | resample initial => exact ⟨_, history.resample initial hresult⟩

/-! ## Calls that end with a fault -/

omit [Scalar α] in
theorem resample_refused_events {initial : Tensor α} {cause : Fault}
    (h : (o.resample s initial).result = .error cause) : (o.resample s initial).events = [] := by
  unfold resample at h ⊢
  split
  · rfl
  · split
    · split
      · next hshape => simp_all
      · rfl
    · rfl

/-- What an interrupted step has reported: nothing but that a problem is empty, or a phase that was not
stopped by a number. -/
theorem advance_faulted {budget : Nat} {cause : Fault} {store' : Option (Shapes.Store α)}
    (h : o.advance s store budget = (.error (.fault cause), events, store')) :
    (∀ event ∈ events, event = .warning .emptyProblem) ∨
      s.status = .running ∧ ∃ e further ending,
        Ended o s e s.values s.memory further events ending ∧ ∀ n, ending ≠ .error (.numeric n) := by
  have hreports := o.advance_events s store budget
  rw [h] at hreports
  rcases hreports with ⟨e, _, hrunning, he, _⟩ | hquiet
  · simp only [advance, hrunning] at h
    split at h
    · cases h
      exact .inl (by simp)
    · cases budget with
      | zero => cases h
      | succ further =>
        have hended := o.descend_ended s e further s.values s.memory
        simp only [runPhase, he] at h
        split at h
        · next hdescend =>
          rw [hdescend] at hended
          cases h
          exact .inr ⟨hrunning, e, further, _, hended, by simp⟩
        · next hdescend =>
          rw [hdescend] at hended
          simp only [Prod.mk.injEq] at h
          obtain ⟨-, rfl, -⟩ := h
          exact .inr ⟨hrunning, e, further, _, hended, by simp⟩
  · exact .inl hquiet

theorem step_faulted {budget : Int} {cause : Fault}
    (h : (o.step s store budget).result = .error cause) :
    (∀ event ∈ (o.step s store budget).events, event = .warning .emptyProblem) ∨
      s.status = .running ∧ ∃ e further ending,
        Ended o s e s.values s.memory further (o.step s store budget).events ending ∧
          ∀ n, ending ≠ .error (.numeric n) := by
  by_cases hbudget : 0 ≤ budget
  · by_cases hterminal : s.status.isTerminal = true
    · rw [step_terminal hbudget hterminal] at h
      cases h
    · rw [step_eq_advance hbudget (by simpa using hterminal)] at h ⊢
      rcases hadvance : o.advance s store budget.toNat with ⟨outcome, events, store'⟩
      rw [hadvance] at h
      cases outcome with
      | ok next => cases next <;> cases h
      | error interruption =>
        cases interruption with
        | numeric n => cases h
        | fault cause' => exact advance_faulted hadvance
  · have hneg : budget < 0 := by omega
    exact .inl (by simp [step, hneg])

/-! ## Runs -/

/-- The steps of a run, up to one that ends with a fault. -/
def runSteps (o : Optimizer α) (budget : Int) :
    (calls : Nat) → State α → Option (Shapes.Store α) → List (Call α)
  | 0, _, _ => []
  | calls + 1, s, store =>
    if s.status.isTerminal then []
    else
      let turn := o.step s store budget
      .step store budget :: match turn.result with
        | .error _ => []
        | .ok next => runSteps o budget calls (next.getD s) turn.store

/-- The single calls that a call makes. -/
def singles (o : Optimizer α) (s : State α) : Call α → List (Call α)
  | .run store budget calls => if calls < 0 then [] else o.runSteps budget calls.toNat s store
  | .step store budget => [.step store budget]
  | .resample initial => [.resample initial]

/-- The single calls that calls in a row make, each of the latest state. After a run that ends with a
fault that is the state that its last step to return led to. -/
def unrolled (o : Optimizer α) (s₀ : State α) (calls : List (Call α)) : List (Call α) :=
  calls.foldl (fun done call => done ++ o.singles (o.session s₀ done).state call) []

theorem unrolled_concat (calls : List (Call α)) (call : Call α) :
    o.unrolled s₀ (calls ++ [call]) =
      o.unrolled s₀ calls ++ o.singles (o.session s₀ (o.unrolled s₀ calls)).state call :=
  List.foldl_append

theorem runSteps_single (budget : Int) (calls : Nat) (s : State α) (store : Option (Shapes.Store α)) :
    ∀ call ∈ o.runSteps budget calls s store, call.isSingle = true := by
  induction calls generalizing s store with
  | zero => simp [runSteps]
  | succ calls ih =>
    unfold runSteps
    split
    · simp
    · refine List.forall_mem_cons.mpr ⟨rfl, ?_⟩
      split
      · simp
      · exact ih _ _

theorem unrolled_single (o : Optimizer α) (s₀ : State α) (calls : List (Call α)) :
    ∀ call ∈ o.unrolled s₀ calls, call.isSingle = true := by
  induction calls using List.reverseRecOn with
  | nil => simp [unrolled]
  | append_singleton calls call ih =>
    rw [unrolled_concat]
    refine List.forall_mem_append.mpr ⟨ih, ?_⟩
    cases call with
    | step | resample => simp [singles, Call.isSingle]
    | run store budget limit =>
      simp only [singles]
      split
      · simp
      · exact runSteps_single _ _ _ _

/-- The steps of a run report what it reports, and lead to where it leads if it returns. -/
theorem go_runSteps (o : Optimizer α) (x : Session α) (store : Option (Shapes.Store α)) (budget : Int)
    (calls : Nat) :
    (Session.go o.answer x (o.runSteps budget calls x.state store)).log =
        x.log ++ (o.runFor budget calls x.state store).events ∧
      ∀ s', (o.runFor budget calls x.state store).result = .ok s' →
        (Session.go o.answer x (o.runSteps budget calls x.state store)).state = s' := by
  induction calls generalizing x store with
  | zero => exact ⟨by simp [runSteps, runFor, Session.go], fun s' h => Except.ok.inj h⟩
  | succ calls ih =>
    unfold runSteps runFor
    split
    · exact ⟨by simp [Session.go], fun s' h => Except.ok.inj h⟩
    · simp only
      cases hresult : (o.step x.state store budget).result with
      | error cause =>
        refine ⟨by simp [Session.go, Session.after, answer_step], ?_⟩
        intro s' h
        cases h
      | ok next =>
        have hanswer : (o.answer x.state (.step store budget)).result = .ok (next.getD x.state) := by
          simp [answer_step, hresult, Except.map]
        obtain ⟨hlog, hstate⟩ :=
          ih (x.after (o.answer x.state (.step store budget))) (o.step x.state store budget).store
        rw [Session.state_after_ok hanswer] at hlog hstate
        rw [← List.append_assoc]
        exact ⟨hlog, hstate⟩

/-- Calls in a row are the single calls that they make, if every run among them returns. -/
theorem session_unrolled (calls : List (Call α))
    (hreturns : ∀ before call after, calls = before ++ call :: after →
      call.isSingle = true ∨ ∃ s', (o.answer (o.session s₀ before).state call).result = .ok s') :
    o.session s₀ (o.unrolled s₀ calls) = o.session s₀ calls := by
  induction calls using List.reverseRecOn with
  | nil => rfl
  | append_singleton calls call ih =>
    have hcalls : o.session s₀ (o.unrolled s₀ calls) = o.session s₀ calls := by
      refine ih fun before call' after hsplit => hreturns before call' (after ++ [call]) ?_
      simp [hsplit]
    have happend (later : List (Call α)) : o.session s₀ (o.unrolled s₀ calls ++ later) =
        Session.go o.answer (o.session s₀ calls) later := by
      rw [← hcalls]
      exact Session.go_append _ later
    rw [unrolled_concat, happend, hcalls, session_concat]
    cases call with
    | step | resample => rfl
    | run store budget limit =>
      obtain hsingle | ⟨s', hresult⟩ := hreturns calls _ [] rfl
      · cases hsingle
      · simp only [answer_run, run, singles] at hresult ⊢
        split at hresult
        · cases hresult
        · next hlimit =>
          obtain ⟨hlog, hstate⟩ := o.go_runSteps (o.session s₀ calls) store budget limit.toNat
          simp only [hlimit, ↓reduceIte, Session.after, hresult]
          rw [← hlog, ← hstate s' hresult]

end Optimizer

end DiagramLayout
