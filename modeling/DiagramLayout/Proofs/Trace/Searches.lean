import DiagramLayout.Proofs.LineSearch.Trials
import DiagramLayout.Proofs.Optimizer.LastReading
import DiagramLayout.Proofs.Trace.Mirror

/-!
# The rows of line searches

A tracker of searches tells them apart by the trials numbered zero. It counts them right because every
search makes a trial and only its first one has this number.

* `Event.failsUpdate`: the failure of a step after its search;
* `Optimizer.Accounted`: events made of whole searches, each with an iteration or such a failure;
  `Optimizer.Ended.accounted`, `Optimizer.Stepped.accounted`, `Optimizer.session_accounted`: those of a
  phase, of a step and of a run;
* `Optimizer.turns`: the steps of a run; `Optimizer.step_failsUpdate`, `Optimizer.session_failsUpdate`: a
  step reports such a failure exactly if it ended with it, so a run reports as many as there are;
* `Trace.SearchTracker.Grouped`: the rows of a tracker search by search;
* `Optimizer.session_search_rows`: the rows that a tracker makes of a run.
-/

namespace DiagramLayout

open LineSearch

variable {α : Type}

namespace Event

/-- The trial that an event reports. -/
@[simp] def trial? : Event α → Option (Trial α)
  | .trial t => some t
  | _ => none

/-- The trials among events. -/
def trials (events : List (Event α)) : List (Trial α) := events.filterMap trial?

/-- Whether an event is the failure of a step whose updated variables are not finite. -/
def failsUpdate : Event α → Bool
  | .warning (.noLayout cause _ _) => decide (cause.quantity = .update)
  | _ => false

variable {before after events : List (Event α)}

@[simp] theorem trials_append : trials (before ++ after) = trials before ++ trials after :=
  List.filterMap_append

@[simp] theorem trials_singleton (event : Event α) : trials [event] = event.trial?.toList := by
  cases event <;> rfl

@[simp] theorem trials_map (ts : List (Trial α)) : trials (ts.map .trial) = ts := by
  simp [trials, List.filterMap_map, Function.comp_def]

end Event

/-- A step that failed because its updated variables were not finite. -/
def Turn.FailsUpdate (turn : Turn α (Option (State α))) : Prop :=
  ∃ (s : State α) (cause : NonFinite), turn.result = .ok (some s) ∧
    s.status = .failed (some cause.message) ∧ cause.quantity = .update

/-- The message of a failure tells whether the updated variables were not finite. -/
theorem NonFinite.update_of_message {n n' : NonFinite} (h : n.message = n'.message)
    (hupdate : n'.quantity = .update) : n.quantity = .update := by
  unfold NonFinite.message at h
  rw [hupdate] at h
  cases hquantity : n.quantity with
  | update => rfl
  | values | energy | gradient =>
    rw [hquantity] at h
    have hlist := congrArg String.toList h
    simp [Quantity.name, String.toList_append] at hlist

namespace Optimizer

open Event (iterations trials failsUpdate)

variable {events before after : List (Event α)} {ts : List (Trial α)}

/-! ## Whole searches -/

/-- Events made of whole searches, as many as there are iterations and failures after a search. -/
def Accounted (events : List (Event α)) : Prop :=
  ∃ searches : List (List (Trial α)), trials events = searches.flatten ∧
    (∀ ts ∈ searches, Searched ts) ∧
    searches.length = (iterations events).length + events.countP failsUpdate

namespace Accounted

/-- Events that have nothing to do with searches. -/
theorem quiet (h : ∀ event ∈ events, event.trial? = none ∧ event.iteration? = none ∧
    event.failsUpdate = false) : Accounted events := by
  have htrials : trials events = [] := List.filterMap_eq_nil_iff.mpr fun event hevent =>
    (h event hevent).1
  have hiterations : iterations events = [] := Event.iterations_eq_nil fun event hevent =>
    (h event hevent).2.1
  have hfailures : events.countP failsUpdate = 0 := List.countP_eq_zero.mpr fun event hevent => by
    simp [(h event hevent).2.2]
  exact ⟨[], by rw [htrials]; rfl, by simp, by simp [hiterations, hfailures]⟩

theorem warnings (h : ∀ event ∈ events, event = .warning .emptyProblem) : Accounted events := by
  refine .quiet fun event hevent => ?_
  rw [h event hevent]
  exact ⟨rfl, rfl, rfl⟩

theorem change (old new : Status) : Accounted (Event.change old new : List (Event α)) := by
  refine .quiet fun event hevent => ?_
  unfold Event.change at hevent
  split at hevent
  · cases hevent
  · rw [List.mem_singleton.mp hevent]
    exact ⟨rfl, rfl, rfl⟩

theorem append (h : Accounted before) (h' : Accounted after) : Accounted (before ++ after) := by
  obtain ⟨searches, htrials, hsearched, hcount⟩ := h
  obtain ⟨searches', htrials', hsearched', hcount'⟩ := h'
  refine ⟨searches ++ searches', by simp [htrials, htrials'],
    List.forall_mem_append.mpr ⟨hsearched, hsearched'⟩, ?_⟩
  rw [List.length_append, Event.iterations_append, List.length_append, List.countP_append]
  omega

/-- A search, and its iteration or the failure after it. -/
theorem single (h : Searched ts) {event : Event α} (htrial : event.trial? = none)
    (hone : (iterations [event]).length + [event].countP failsUpdate = 1) :
    Accounted (ts.map .trial ++ [event]) := by
  have htrials : trials (ts.map .trial ++ [event]) = ts := by
    rw [Event.trials_append, Event.trials_map, Event.trials_singleton, htrial]
    exact List.append_nil ts
  refine ⟨[ts], by simpa using htrials, by simpa using h, ?_⟩
  have hnone : (ts.map Event.trial).countP failsUpdate = 0 := by
    simp [List.countP_map, Function.comp_def, Event.failsUpdate]
  rw [Event.iterations_append, Event.iterations_trials, List.nil_append, List.countP_append, hnone,
    Nat.zero_add, hone]
  rfl

end Accounted

variable [Scalar α] {o : Optimizer α} {s s' : State α} {e : WeightedEnergy α} {xs : List α}
  {m : Lbfgs.Memory α}

/-! ## Iterations -/

theorem read_ne_update {n : NonFinite} (h : read e m xs = .error (.numeric n)) :
    n.quantity ≠ .update := by
  have hfinite {q : Quantity} {v : List α} (hq : q ≠ .update)
      (h : ensureFinite q v = .error (.numeric n)) : n.quantity ≠ .update := by
    obtain rfl := Interruption.numeric.inj (ensureFinite_eq_error h)
    exact hq
  unfold read at h
  rcases bind_eq_error_iff.mp h with h | ⟨_, _, h⟩
  · exact hfinite (by decide) h
  rcases bind_eq_error_iff.mp h with h | ⟨_, _, h⟩
  · exact absurd h Interruption.lift_ne_numeric
  rcases bind_eq_error_iff.mp h with h | ⟨_, _, h⟩
  · exact absurd h Interruption.lift_ne_numeric
  rcases bind_eq_error_iff.mp h with h | ⟨_, _, h⟩
  · exact hfinite (by decide) h
  rcases bind_eq_error_iff.mp h with h | ⟨_, _, h⟩
  · exact hfinite (by decide) h
  rcases bind_eq_error_iff.mp h with h | ⟨_, _, h⟩
  · exact absurd h Interruption.lift_ne_numeric
  · cases h

section
variable (hsearches : o.searches = true) (hcheck : o.lineSearch.check = .ok ())
include hsearches hcheck

theorem stepLength_searched {r : Reading α} {found : Result α}
    (h : o.stepLength e xs r = .ok found) : Searched found.trials := by
  rw [stepLength, if_pos hsearches] at h
  exact search_searched hcheck h

/-- An interrupted iteration has made no search, or a whole one before its variables were updated. -/
theorem iterate_interrupted {cause : Interruption} (h : o.iterate e xs m = .interrupted ts cause) :
    (ts = [] ∧ ∀ n, cause = .numeric n → n.quantity ≠ .update) ∨
      Searched ts ∧ ∃ n, cause = .numeric n ∧ n.quantity = .update := by
  have hends := o.iterates e xs m
  rw [h] at hends
  cases hends with
  | unread hread => exact .inl ⟨rfl, fun n hn => read_ne_update (hn ▸ hread)⟩
  | unsearched => exact .inl ⟨rfl, by simp⟩
  | unfinished _ hfound hfinite =>
    exact .inr ⟨stepLength_searched hsearches hcheck hfound, _, ensureFinite_eq_error hfinite, rfl⟩

/-! ## Phases -/

theorem Walk.accounted {start : List α} {memory : Lbfgs.Memory α} {number : Nat}
    (walk : Walk o s e start memory number events xs m) : Accounted events := by
  induction walk with
  | start => exact .quiet (by simp)
  | move _ hiterate ih =>
    obtain ⟨_, _, hfound, _⟩ := iterate_moved hiterate
    rw [List.append_assoc]
    exact ih.append (.single (stepLength_searched hsearches hcheck hfound) rfl rfl)

/-- A phase that was not stopped by a number is made of whole searches. -/
theorem Ended.accounted {start : List α} {memory : Lbfgs.Memory α} {further : Nat}
    {ending : Except Interruption (Descent α)} (h : Ended o s e start memory further events ending)
    (hending : ∀ n, ending ≠ .error (.numeric n)) : Accounted events := by
  cases h with
  | settled walk _ _ => exact walk.accounted hsearches hcheck
  | spent walk hiterate => exact (walk.move hiterate).accounted hsearches hcheck
  | interrupted walk _ hiterate =>
    rcases iterate_interrupted hsearches hcheck hiterate with ⟨rfl, _⟩ | ⟨_, n, rfl, _⟩
    · simpa using walk.accounted hsearches hcheck
    · exact absurd rfl (hending n)

/-- A phase that was stopped by a number is made of whole searches with the failure that is reported. -/
theorem Ended.accounted_failed {start : List α} {memory : Lbfgs.Memory α} {further : Nat}
    {cause : NonFinite} (h : Ended o s e start memory further events (.error (.numeric cause)))
    (round : Nat) (weight : α) :
    Accounted (events ++ [.warning (.noLayout cause round weight)]) := by
  cases h with
  | interrupted walk _ hiterate =>
    have hwalk := walk.accounted hsearches hcheck
    rcases iterate_interrupted hsearches hcheck hiterate with ⟨rfl, hcause⟩ | ⟨hsearched, n, hn, hupdate⟩
    · have hother := hcause cause rfl
      refine .append (by simpa using hwalk) (.quiet ?_)
      simp [Event.failsUpdate, hother]
    · obtain rfl := Interruption.numeric.inj hn
      rw [List.append_assoc]
      exact hwalk.append (.single hsearched rfl (by simp [Event.failsUpdate, hupdate]))

/-! ## Steps -/

theorem Stepped.accounted {budget : Nat} (h : Stepped o s budget s' events) : Accounted events := by
  have hstatus (old new : Status) : Accounted ([.status old new] : List (Event α)) := .quiet (by
    simp [Event.failsUpdate])
  cases h with
  | idle => exact .quiet (by simp)
  | @started _ _ _ before _ _ henergy _ _ =>
    exact .append (.warnings (compiled_warnings henergy)) (hstatus _ _)
  | phase _ _ _ _ hended =>
    exact (hended.accounted hsearches hcheck (by simp)).append (.change _ _)
  | converged | continued => exact hstatus _ _
  | @failed cause before _ hcause =>
    have hsplit (status : Status) : before ++ [.warning (.noLayout cause s.round s.weight),
        .status s.status status] = (before ++ [.warning (.noLayout cause s.round s.weight)]) ++
          [.status s.status status] := by simp
    rw [hsplit]
    refine .append ?_ (hstatus _ _)
    rcases hcause with ⟨hfinite, rfl⟩ | ⟨_, _, _, _, _, hended⟩
    · obtain rfl := Interruption.numeric.inj (ensureFinite_eq_error hfinite)
      exact .quiet (by simp [Event.failsUpdate])
    · exact hended.accounted_failed hsearches hcheck _ _

/-- Whatever a step ends with, its searches are accounted for. -/
theorem step_accounted (s : State α) (store : Option (Shapes.Store α)) (budget : Int) :
    Accounted (o.step s store budget).events := by
  cases hresult : (o.step s store budget).result with
  | ok next => exact (step_stepped hresult).2.accounted hsearches hcheck
  | error cause =>
    rcases step_faulted hresult with hwarnings | ⟨_, _, _, _, hended, hending⟩
    · exact .warnings hwarnings
    · exact hended.accounted hsearches hcheck hending

/-! ## Runs -/

theorem runFor_accounted (budget : Int) (calls : Nat) (s : State α)
    (store : Option (Shapes.Store α)) : Accounted (o.runFor budget calls s store).events := by
  induction calls generalizing s store with
  | zero => exact .quiet (by simp [runFor])
  | succ calls ih =>
    have hstep := step_accounted hsearches hcheck s store budget
    unfold runFor
    split
    · exact .quiet (by simp)
    · simp only
      split
      · exact hstep
      · exact hstep.append (ih _ _)

theorem answer_accounted (s : State α) (call : Call α) : Accounted (o.answer s call).events := by
  cases call with
  | step store budget => exact step_accounted hsearches hcheck s store budget
  | run store budget calls =>
    rw [answer_run, run]
    split
    · exact .quiet (by simp)
    · exact runFor_accounted hsearches hcheck budget calls.toNat s store
  | resample initial =>
    rw [answer_resample]
    cases hresult : (o.resample s initial).result with
    | ok s' =>
      obtain ⟨_, _, hevents, _⟩ := resample_eq_ok hresult
      rw [hevents]
      exact .change _ _
    | error cause =>
      rw [resample_refused_events hresult]
      exact .quiet (by simp)

/-- Calls in a row report whole searches. -/
theorem session_accounted (s₀ : State α) (calls : List (Call α)) :
    Accounted (o.session s₀ calls).log := by
  apply Session.go_keeps (P := fun x => Accounted x.log) (.quiet (by simp))
  intro x call haccounted
  exact haccounted.append (answer_accounted hsearches hcheck x.state call)

end

/-! ## Failures after a search -/

/-- A phase reports no failure. -/
theorem Ended.countP_failsUpdate {start : List α} {memory : Lbfgs.Memory α} {further : Nat}
    {ending : Except Interruption (Descent α)} (h : Ended o s e start memory further events ending) :
    events.countP failsUpdate = 0 :=
  List.countP_eq_zero.mpr (h.each (P := fun event => ¬failsUpdate event = true)
    (by simp [Event.failsUpdate]) (by simp [Event.failsUpdate]))

omit [Scalar α] in
theorem warnings_countP_failsUpdate (h : ∀ event ∈ events, event = .warning .emptyProblem) :
    events.countP failsUpdate = 0 :=
  List.countP_eq_zero.mpr fun event hevent => by simp [h event hevent, Event.failsUpdate]

omit [Scalar α] in
theorem change_countP_failsUpdate (old new : Status) :
    (Event.change old new : List (Event α)).countP failsUpdate = 0 := by
  unfold Event.change
  split <;> simp [Event.failsUpdate]

/-- Only a step that fails reports a failure, and that once. -/
theorem Stepped.countP_failsUpdate {budget : Nat} (h : Stepped o s budget s' events) :
    (events.countP failsUpdate = 0 ∧
        (s.status.isTerminal = false → ∀ message, s'.status ≠ .failed message)) ∨
      ∃ cause : NonFinite, s.status.isTerminal = false ∧ s'.status = .failed (some cause.message) ∧
        events.countP failsUpdate = if cause.quantity = .update then 1 else 0 := by
  cases h with
  | idle hidle =>
    refine .inl ⟨rfl, fun hgoing message hfailed => ?_⟩
    rw [hfailed] at hgoing
    cases hgoing
  | @started _ _ _ before _ _ henergy _ _ =>
    refine .inl ⟨?_, by simp⟩
    rw [List.countP_append, warnings_countP_failsUpdate (compiled_warnings henergy)]
    rfl
  | @phase _ _ d _ _ _ _ _ hphase =>
    refine .inl ⟨by rw [List.countP_append, hphase.countP_failsUpdate, change_countP_failsUpdate], fun _ message => ?_⟩
    rcases o.afterPhase_status s d with hstatus | hstatus <;> simp [hstatus]
  | converged | continued => exact .inl ⟨rfl, by simp⟩
  | @failed cause before hgoing hcause =>
    refine .inr ⟨cause, hgoing, rfl, ?_⟩
    have hbefore : before.countP failsUpdate = 0 := by
      rcases hcause with ⟨_, rfl⟩ | ⟨_, _, _, _, _, hphase⟩
      · rfl
      · exact hphase.countP_failsUpdate
    rw [List.countP_append, hbefore]
    by_cases hupdate : cause.quantity = .update <;> simp [Event.failsUpdate, hupdate]

open Classical in
/-- A step reports that its updated variables were not finite exactly if it failed because of them, and
then it does so once. -/
theorem step_failsUpdate (o : Optimizer α) (s : State α) (store : Option (Shapes.Store α))
    (budget : Int) : (o.step s store budget).events.countP failsUpdate =
      if (o.step s store budget).FailsUpdate then 1 else 0 := by
  cases hresult : (o.step s store budget).result with
  | error cause =>
    have hother : ¬(o.step s store budget).FailsUpdate := by
      rintro ⟨_, _, hok, _⟩
      exact nomatch hresult.symm.trans hok
    rw [if_neg hother]
    rcases step_faulted hresult with hwarnings | ⟨_, _, _, _, hended, _⟩
    · exact warnings_countP_failsUpdate hwarnings
    · exact hended.countP_failsUpdate
  | ok next =>
    obtain ⟨hbudget, hstepped⟩ := step_stepped hresult
    rcases hstepped.countP_failsUpdate with ⟨hzero, hgoing⟩ | ⟨cause, hgoing, hfailed, hcount⟩
    · have hother : ¬(o.step s store budget).FailsUpdate := by
        rintro ⟨s', cause, hnext, hfailed, _⟩
        obtain rfl : next = some s' := Except.ok.inj (hresult.symm.trans hnext)
        -- At its end a run has no other state to go to.
        by_cases hterminal : s.status.isTerminal = true
        · rw [step_terminal hbudget hterminal] at hresult
          cases hresult
        · exact hgoing (by simpa using hterminal) _ hfailed
      rw [hzero, if_neg hother]
    · obtain ⟨s', rfl⟩ : ∃ s', next = some s' := by
        cases next with
        | some s' => exact ⟨s', rfl⟩
        | none =>
          rw [Option.getD_none] at hfailed
          rw [hfailed] at hgoing
          cases hgoing
      have hsame : (o.step s store budget).FailsUpdate ↔ cause.quantity = .update := by
        refine ⟨?_, fun hupdate => ⟨s', cause, hresult, hfailed, hupdate⟩⟩
        rintro ⟨s'', cause', hnext, hfailed', hupdate⟩
        obtain rfl : s' = s'' := Option.some.inj (Except.ok.inj (hresult.symm.trans hnext))
        have hstatus := hfailed.symm.trans hfailed'
        exact NonFinite.update_of_message (by simpa using hstatus) hupdate
      rw [hcount]
      simp only [hsame]

/-- The turns of the steps of a run, up to one that ends with a fault. -/
def runTurns (o : Optimizer α) (budget : Int) :
    (calls : Nat) → State α → Option (Shapes.Store α) → List (Turn α (Option (State α)))
  | 0, _, _ => []
  | calls + 1, s, store =>
    if s.status.isTerminal then []
    else
      let turn := o.step s store budget
      turn :: match turn.result with
        | .error _ => []
        | .ok next => runTurns o budget calls (next.getD s) turn.store

/-- The turns of the steps that a call makes. -/
def callTurns (o : Optimizer α) (s : State α) : Call α → List (Turn α (Option (State α)))
  | .step store budget => [o.step s store budget]
  | .run store budget calls => if calls < 0 then [] else o.runTurns budget calls.toNat s store
  | .resample _ => []

/-- The turns of the steps that calls in a row make. -/
def turns (o : Optimizer α) : State α → List (Call α) → List (Turn α (Option (State α)))
  | _, [] => []
  | s, call :: calls =>
    o.callTurns s call ++ turns o (Session.after { state := s } (o.answer s call)).state calls

open Classical in
theorem runFor_failsUpdate (o : Optimizer α) (budget : Int) (calls : Nat) (s : State α)
    (store : Option (Shapes.Store α)) : (o.runFor budget calls s store).events.countP failsUpdate =
      (o.runTurns budget calls s store).countP fun turn => turn.FailsUpdate := by
  induction calls generalizing s store with
  | zero => rfl
  | succ calls ih =>
    have hstep := o.step_failsUpdate s store budget
    unfold runFor runTurns
    split
    · rfl
    · simp only
      cases (o.step s store budget).result with
      | error cause => simp [hstep]
      | ok next => simp [List.countP_cons, hstep, ih, Nat.add_comm]

open Classical in
theorem answer_failsUpdate (o : Optimizer α) (s : State α) (call : Call α) :
    (o.answer s call).events.countP failsUpdate =
      (o.callTurns s call).countP fun turn => turn.FailsUpdate := by
  cases call with
  | step store budget => simp [answer_step, callTurns, step_failsUpdate]
  | run store budget calls =>
    simp only [answer_run, run, callTurns]
    split
    · rfl
    · exact o.runFor_failsUpdate budget calls.toNat s store
  | resample initial =>
    simp only [answer_resample, callTurns, List.countP_nil]
    cases hresult : (o.resample s initial).result with
    | ok s' =>
      obtain ⟨_, _, hevents, _⟩ := resample_eq_ok hresult
      rw [hevents, change_countP_failsUpdate]
    | error cause =>
      rw [resample_refused_events hresult]
      rfl

open Classical in
/-- Calls in a row report as many failures after a search as steps of theirs failed in this way. -/
theorem session_failsUpdate (o : Optimizer α) (s₀ : State α) (calls : List (Call α)) :
    (o.session s₀ calls).log.countP failsUpdate =
      (o.turns s₀ calls).countP fun turn => turn.FailsUpdate := by
  have onward (x : Session α) : (Session.go o.answer x calls).log.countP failsUpdate =
      x.log.countP failsUpdate + (o.turns x.state calls).countP fun turn => turn.FailsUpdate := by
    induction calls generalizing x with
    | nil => rfl
    | cons call calls ih =>
      have hafter : (x.after (o.answer x.state call)).log.countP failsUpdate =
          x.log.countP failsUpdate + (o.callTurns x.state call).countP fun turn =>
            turn.FailsUpdate := by
        rw [← o.answer_failsUpdate x.state call]
        exact List.countP_append
      rw [turns, List.countP_append, ← Nat.add_assoc, ← hafter]
      exact ih (x.after (o.answer x.state call))
  exact (onward { state := s₀ }).trans (Nat.zero_add _)

end Optimizer

/-! ## Rows -/

namespace Trace.SearchTracker

variable {t : SearchTracker α} {ts : List (Trial α)} {events : List (Event α)}

/-- Events in a row. -/
def observeAll (t : SearchTracker α) (events : List (Event α)) : SearchTracker α :=
  events.foldl SearchTracker.observe t

/-- The trials of the rows of one search. -/
def trialsOf (t : SearchTracker α) (search : Nat) : List (Trial α) :=
  (t.rows.filter fun r => r.search == search).map TrialRow.trial

/-- The rows of a tracker are those of whole searches, one after the other. -/
structure Grouped (t : SearchTracker α) : Prop where
  bounds : ∀ r ∈ t.rows, 1 ≤ r.search ∧ r.search ≤ t.search
  inOrder : (t.rows.map TrialRow.search).Pairwise (· ≤ ·)
  searched : ∀ search, 1 ≤ search → search ≤ t.search → Searched (t.trialsOf search)

/-- Only the trials among events are seen. -/
theorem observeAll_eq (t : SearchTracker α) (events : List (Event α)) :
    t.observeAll events = (Event.trials events).foldl SearchTracker.tried t := by
  induction events generalizing t with
  | nil => rfl
  | cons event events ih => cases event <;> exact ih _

/-- The trials after the first one of a search are rows of this search. -/
theorem foldl_tried_rest (t : SearchTracker α) (h : ∀ trial ∈ ts, trial.number ≠ 0) :
    ts.foldl SearchTracker.tried t =
      { t with rows := t.rows ++ ts.map fun trial => { run := t.run, search := t.search, trial } } := by
  induction ts generalizing t with
  | nil => simp
  | cons trial ts ih =>
    obtain ⟨htrial, hrest⟩ := List.forall_mem_cons.mp h
    rw [List.foldl_cons, ih _ hrest]
    simp [tried, htrial]

/-- A whole search is counted once, and its trials are the rows of this search. -/
theorem foldl_tried (t : SearchTracker α) (h : Searched ts) : ts.foldl SearchTracker.tried t =
    { t with
      rows := t.rows ++ ts.map fun trial => { run := t.run, search := t.search + 1, trial }
      search := t.search + 1 } := by
  obtain ⟨first, rest, rfl, hfirst, hrest⟩ := h.eq_cons
  rw [List.foldl_cons, foldl_tried_rest _ hrest]
  simp [tried, hfirst]

theorem Grouped.search (grouped : t.Grouped) (h : Searched ts) :
    (ts.foldl SearchTracker.tried t).Grouped := by
  rw [foldl_tried t h]
  refine ⟨?_, ?_, ?_⟩
  · intro r hr
    rcases List.mem_append.mp hr with hr | hr
    · obtain ⟨hfirst, hlast⟩ := grouped.bounds r hr
      exact ⟨hfirst, Nat.le_succ_of_le hlast⟩
    · obtain ⟨trial, _, rfl⟩ := List.mem_map.mp hr
      exact ⟨Nat.succ_pos _, le_rfl⟩
  · rw [List.map_append]
    refine List.pairwise_append.mpr ⟨grouped.inOrder, ?_, ?_⟩
    · simp [Function.comp_def, List.pairwise_replicate]
    · intro n hn n' hn'
      obtain ⟨r, hr, rfl⟩ := List.mem_map.mp hn
      obtain ⟨r', hr', rfl⟩ := List.mem_map.mp hn'
      obtain ⟨trial, _, rfl⟩ := List.mem_map.mp hr'
      exact Nat.le_succ_of_le (grouped.bounds r hr).2
  · intro search hfirst hlast
    simp only at hlast
    by_cases hnew : search = t.search + 1
    · subst hnew
      have hold : t.rows.filter (fun r => r.search == t.search + 1) = [] := by
        refine List.filter_eq_nil_iff.mpr fun r hr => ?_
        have hbound := (grouped.bounds r hr).2
        simp only [beq_iff_eq]
        omega
      simpa [trialsOf, hold, List.filter_map, Function.comp_def] using h
    · have hadded : (ts.map fun trial => ({ run := t.run, search := t.search + 1, trial } :
          TrialRow α)).filter (fun r => r.search == search) = [] := by
        simp only [List.filter_eq_nil_iff, List.forall_mem_map, beq_iff_eq]
        intro _ _
        omega
      have hsearched := grouped.searched search hfirst (by omega)
      simpa [trialsOf, hadded] using hsearched

/-- What a new tracker has seen of whole searches. -/
theorem grouped_observeAll (run : String) {searches : List (List (Trial α))}
    (htrials : Event.trials events = searches.flatten) (hsearched : ∀ ts ∈ searches, Searched ts) :
    (({ run } : SearchTracker α).observeAll events).Grouped ∧
      (({ run } : SearchTracker α).observeAll events).search = searches.length := by
  rw [observeAll_eq, htrials]
  have onward (t : SearchTracker α) (grouped : t.Grouped) :
      (searches.flatten.foldl SearchTracker.tried t).Grouped ∧
        (searches.flatten.foldl SearchTracker.tried t).search = t.search + searches.length := by
    clear htrials
    induction searches generalizing t with
    | nil => exact ⟨grouped, rfl⟩
    | cons ts searches ih =>
      obtain ⟨hts, hrest⟩ := List.forall_mem_cons.mp hsearched
      rw [List.flatten_cons, List.foldl_append]
      obtain ⟨hgrouped, hcount⟩ := ih hrest _ (grouped.search hts)
      have hone : (ts.foldl SearchTracker.tried t).search = t.search + 1 :=
        congrArg SearchTracker.search (foldl_tried t hts)
      refine ⟨hgrouped, hcount.trans ?_⟩
      rw [hone, List.length_cons]
      omega
  have hnew : ({ run } : SearchTracker α).Grouped := ⟨by simp, by simp, fun search hfirst hlast => by
    simp only at hlast
    omega⟩
  simpa using onward { run } hnew

end Trace.SearchTracker

namespace Optimizer

open Trace
open Event (failsUpdate)

variable [Scalar α] {o : Optimizer α}

open Classical in
/-- **The rows of line searches.** Two trackers have seen a run from the start, call by call, where steps
are searched for. There are as many searches as iterations and steps that failed because of their updated
variables. The rows of each search are numbered from zero, and there is one at least; only the last of
them may have passed both tests, and none has passed the second test alone. -/
theorem session_search_rows (hsearches : o.searches = true) (hcheck : o.lineSearch.check = .ok ())
    (s₀ : State α) (calls : List (Call α)) (run : String) (clock : Option α)
    (timed : List (α × Event α)) (htimed : timed.map Prod.snd = (o.session s₀ calls).log) :
    (({ run } : SearchTracker α).observeAll (o.session s₀ calls).log).search =
      (Tracker.seen run clock timed).rows.length +
        ((o.turns s₀ calls).countP fun turn => turn.FailsUpdate) ∧
    (({ run } : SearchTracker α).observeAll (o.session s₀ calls).log).Grouped := by
  obtain ⟨searches, htrials, hsearched, hcount⟩ := session_accounted hsearches hcheck s₀ calls
  obtain ⟨grouped, hsearch⟩ := SearchTracker.grouped_observeAll run htrials hsearched
  have hrows := congrArg List.length (Tracker.kept_seen run clock timed).iterations
  rw [List.length_map, htimed] at hrows
  have hfailures := o.session_failsUpdate s₀ calls
  exact ⟨by omega, grouped⟩

/-- The settings of a run in doubles that searches with a single long trial. -/
def longTrial : Optimizer Float :=
  { inDoubles with
    lineSearch := { LineSearch.Params.standard with initialStep := 1e308, maxSteps := 0 }
    breaksEarly := false }

/-- An iteration at the minimum, and a step from elsewhere that is too long. -/
def callsAway : List (Call Float) := [.run none 1 2, .resample (.array [.entry 0]), .run none 1 2]

open Classical in
theorem longTrial_search_rows : ∃ s₀,
    (longTrial.start [⟨"equal", [.varying 0, .number 3], .objective⟩] [] (.array [.entry 3])
      none).result = .ok s₀ ∧
    (Tracker.seen "trace" none
      ((longTrial.session s₀ callsAway).log.map fun event => (0, event))).rows.length = 1 ∧
    ((longTrial.turns s₀ callsAway).countP fun turn => turn.FailsUpdate) = 1 ∧
    (({ run := "trace" } : SearchTracker Float).observeAll
      (longTrial.session s₀ callsAway).log).search = 2 ∧
    Searched ((({ run := "trace" } : SearchTracker Float).observeAll
      (longTrial.session s₀ callsAway).log).trialsOf 2) := by
  have h : ((longTrial.start [⟨"equal", [.varying 0, .number 3], .objective⟩] []
      (.array [.entry 3]) none).result.map fun s₀ =>
        let log := (longTrial.session s₀ callsAway).log
        ((Tracker.seen "trace" none (log.map fun event => (0, event))).rows.length,
          log.countP failsUpdate)).toOption = some (1, 1) := by decide +kernel
  obtain ⟨s₀, hstart, hcounts⟩ := map_eq_ok_iff.mp (toOption_eq_some_iff.mp h)
  obtain ⟨hrows, hfailures⟩ := Prod.mk.inj hcounts
  rw [session_failsUpdate] at hfailures
  have hsearches : longTrial.searches = true := rfl
  have hcheck : longTrial.lineSearch.check = .ok () := by decide +kernel
  obtain ⟨hsearch, grouped⟩ := session_search_rows hsearches hcheck s₀ callsAway "trace" none
    ((longTrial.session s₀ callsAway).log.map fun event => (0, event)) (by simp)
  rw [hrows, hfailures] at hsearch
  exact ⟨s₀, hstart, hrows, hfailures, hsearch, grouped.searched 2 (by omega) (by omega)⟩

end Optimizer

end DiagramLayout
