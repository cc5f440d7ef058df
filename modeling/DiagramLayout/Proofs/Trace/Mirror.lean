import DiagramLayout.Proofs.Optimizer.Session
import DiagramLayout.Proofs.Trace.Tracker

/-!
# The status that a tracker knows

A step reports what happened in it and then its change of status, if there is one. So a tracker that sees
every event knows the status of the state, and what it knew when it made a row was that a phase is
running.
-/

namespace DiagramLayout

variable {α : Type} [Scalar α]

/-! ## The events of a step -/

namespace Optimizer

open Event (iterations changes)

variable {o : Optimizer α} {s s₀ s' : State α} {log events : List (Event α)}

/-- What trials and iterations have, the events of a walk have. -/
theorem Walk.each {e : WeightedEnergy α} {start xs : List α} {memory m : Lbfgs.Memory α} {number : Nat}
    (walk : Walk o s e start memory number events xs m) {P : Event α → Prop}
    (trial : ∀ t, P (.trial t)) (iteration : ∀ i, P (.iteration i)) : ∀ event ∈ events, P event := by
  induction walk with
  | start => simp
  | move _ _ ih =>
    simp only [List.forall_mem_append, List.forall_mem_map, List.forall_mem_singleton]
    exact ⟨⟨ih, fun t _ => trial t⟩, iteration _⟩

/-- What trials and iterations have, the events of a phase have. -/
theorem Ended.each {e : WeightedEnergy α} {start : List α} {memory : Lbfgs.Memory α} {further : Nat}
    {ending : Except Interruption (Descent α)} (h : Ended o s e start memory further events ending)
    {P : Event α → Prop} (trial : ∀ t, P (.trial t)) (iteration : ∀ i, P (.iteration i)) :
    ∀ event ∈ events, P event := by
  cases h with
  | settled walk _ _ => exact walk.each trial iteration
  | spent walk hiterate => exact (walk.move hiterate).each trial iteration
  | interrupted walk _ _ =>
    simp only [List.forall_mem_append, List.forall_mem_map]
    exact ⟨walk.each trial iteration, fun t _ => trial t⟩

theorem Ended.quiet {e : WeightedEnergy α} {start : List α} {memory : Lbfgs.Memory α} {further : Nat}
    {ending : Except Interruption (Descent α)} (h : Ended o s e start memory further events ending) :
    ∀ event ∈ events, event.change? = none :=
  h.each (P := fun event => event.change? = none) (fun _ => rfl) fun _ => rfl

/-- Before a round is started there is no report but that the problem is empty. -/
theorem compiled_warnings {energy : Energy α} (h : s.energy = some energy ∧ events = [] ∨
    s.energy = none ∧ o.compile s.problem = (.ok energy, events)) :
    ∀ event ∈ events, event = .warning .emptyProblem := by
  rcases h with ⟨_, rfl⟩ | ⟨_, hcompile⟩
  · simp
  · unfold compile at hcompile
    split at hcompile
    · cases hcompile
      split <;> simp
    · cases hcompile

/-- Events that lead from one state to another: what happens in a phase, which is running, and then the
change of status, if there is one. -/
structure Leads (s s' : State α) (events : List (Event α)) : Prop where
  same : s.status.name = s'.status.name → s'.status = s.status
  report : ∃ report, events = report ++ Event.change s.status s'.status ∧
    (∀ event ∈ report, event.change? = none) ∧ (iterations report ≠ [] → s.status = .running)

omit [Scalar α] in
theorem Leads.changes_eq (h : Leads s s' events) :
    changes events = if s.status.name = s'.status.name then [] else [(s.status, s'.status)] := by
  obtain ⟨report, rfl, hquiet, _⟩ := h.report
  rw [Event.changes_append, Event.changes_eq_nil hquiet, List.nil_append, Event.changes_change]

omit [Scalar α] in
/-- Events without a change of status, of a running phase if there are iterations among them. -/
theorem Leads.refl (hquiet : ∀ event ∈ events, event.change? = none)
    (hrunning : iterations events ≠ [] → s.status = .running) : Leads s s events where
  same := fun _ => rfl
  report := ⟨events, by simp [Event.change], hquiet, hrunning⟩

omit [Scalar α] in
/-- Warnings of an empty problem. -/
theorem Leads.warnings (h : ∀ event ∈ events, event = .warning .emptyProblem) : Leads s s events := by
  refine .refl (fun event hevent => ?_) fun hiterations => ?_
  · rw [h event hevent]
    rfl
  · refine absurd (Event.iterations_eq_nil fun event hevent => ?_) hiterations
    rw [h event hevent]
    rfl

/-- A step reports what happened in it, and then its change of status. -/
theorem Stepped.leads {budget : Nat} (h : Stepped o s budget s' events) : Leads s s' events := by
  cases h with
  | idle => exact .refl (by simp) (by simp)
  | @started _ _ _ before _ hfresh henergy _ _ =>
    have hwarnings : Leads s s before := .warnings (compiled_warnings henergy)
    obtain ⟨report, hreport, hquiet, hrunning⟩ := hwarnings.report
    obtain rfl : before = report := by simpa [Event.change] using hreport
    exact ⟨by simp [hfresh, Status.name], before, by simp [Event.change, hfresh, Status.name], hquiet,
      hrunning⟩
  | @phase e further d before _ hrunning _ _ hended =>
    refine ⟨?_, before, by rw [hrunning], hended.quiet, fun _ => hrunning⟩
    rw [hrunning]
    rcases o.afterPhase_status s d with hstatus | hstatus <;> simp [hstatus, Status.name]
  | converged _ hsettled _ =>
    exact ⟨by simp [hsettled, Status.name], [], by simp [Event.change, hsettled, Status.name], by simp,
      by simp⟩
  | continued _ hsettled _ _ _ _ =>
    exact ⟨by simp [hsettled, Status.name], [], by simp [Event.change, hsettled, Status.name], by simp,
      by simp⟩
  | @failed cause before hgoing hcause =>
    have hname : s.status.name ≠ (Status.failed (some cause.message)).name := by
      cases hstatus : s.status with
      | converged | failed _ => rw [hstatus] at hgoing; cases hgoing
      | fresh | running | settled => simp [Status.name]
    have hquiet : ∀ event ∈ before, event.change? = none := by
      rcases hcause with ⟨_, rfl⟩ | ⟨_, _, _, _, _, hended⟩
      · simp
      · exact hended.quiet
    refine ⟨fun h => absurd h hname, before ++ [.warning (.noLayout cause s.round s.weight)],
      by simp [Event.change, hname], List.forall_mem_append.mpr ⟨hquiet, by simp⟩, ?_⟩
    intro hiterations
    rcases hcause with ⟨_, rfl⟩ | ⟨_, _, hrunning, _⟩
    · simp at hiterations
    · exact hrunning

theorem step_leads {store : Option (Shapes.Store α)} {budget : Int} {next : Option (State α)}
    (h : (o.step s store budget).result = .ok next) :
    Leads s (next.getD s) (o.step s store budget).events := (step_stepped h).2.leads

/-- A step that ends with a fault has reported no change of status. -/
theorem step_faulted_leads {store : Option (Shapes.Store α)} {budget : Int} {cause : Fault}
    (h : (o.step s store budget).result = .error cause) :
    Leads s s (o.step s store budget).events := by
  rcases step_faulted h with hwarnings | ⟨hrunning, _, _, _, hended, _⟩
  · exact .warnings hwarnings
  · exact .refl hended.quiet fun _ => hrunning

omit [Scalar α] in
theorem resample_leads {initial : Tensor α} (h : (o.resample s initial).result = .ok s') :
    Leads s s' (o.resample s initial).events := by
  obtain ⟨values, _, hevents, rfl⟩ := resample_eq_ok h
  refine ⟨fun hname => ?_, [], by simpa using hevents, by simp, by simp⟩
  cases hstatus : s.status <;> simp_all [Status.name]

/-- A single call leads to the state after it, whatever it ends with. -/
theorem answer_leads (o : Optimizer α) (x : Session α) {call : Call α} (hsingle : call.isSingle = true) :
    Leads x.state (x.after (o.answer x.state call)).state (o.answer x.state call).events := by
  cases hresult : (o.answer x.state call).result with
  | ok s' =>
    rw [Session.state_after_ok hresult]
    cases call with
    | run => cases hsingle
    | step store budget =>
      obtain ⟨next, hnext, rfl⟩ := map_eq_ok_iff.mp hresult
      exact step_leads hnext
    | resample initial => exact resample_leads hresult
  | error cause =>
    rw [Session.state_after_error hresult]
    cases call with
    | run => cases hsingle
    | step store budget =>
      cases hstep : (o.step x.state store budget).result with
      | ok next => simp [answer_step, hstep, Except.map] at hresult
      | error cause' => exact step_faulted_leads hstep
    | resample initial =>
      have hnone : (o.answer x.state (.resample initial)).events = [] := resample_refused_events hresult
      rw [hnone]
      exact .refl (by simp) (by simp)

end Optimizer

/-! ## Trackers and states -/

namespace Trace

open Event (iterations)

/-- A tracker knows the status of a state, and all of its rows were made in a running phase. -/
structure Tracks (t : Tracker α) (s : State α) : Prop where
  status : t.status = s.status
  running : ∀ row ∈ t.rows, row.status = .running

namespace Tracks

variable {o : Optimizer α} {t : Tracker α} {s s' : State α} {timed : List (α × Event α)}

theorem observe (h : Tracks t s) (now : α) {event : Event α} (hquiet : event.change? = none)
    (hrunning : iterations [event] ≠ [] → s.status = .running) : Tracks (t.observe now event) s := by
  cases event with
  | trial | warning => exact h
  | status => cases hquiet
  | iteration i =>
    refine ⟨h.status, List.forall_mem_append.mpr ⟨h.running, ?_⟩⟩
    simp only [List.forall_mem_singleton, Tracker.row, h.status]
    exact hrunning (by simp)

/-- What happens without a change of status. -/
theorem report (h : Tracks t s) (hquiet : ∀ event ∈ timed.map Prod.snd, event.change? = none)
    (hrunning : iterations (timed.map Prod.snd) ≠ [] → s.status = .running) :
    Tracks (t.observeAll timed) s := by
  induction timed generalizing t with
  | nil => exact h
  | cons observed timed ih =>
    obtain ⟨hevent, hrest⟩ := List.forall_mem_cons.mp hquiet
    have hsplit : iterations ((observed :: timed).map Prod.snd) =
        iterations [observed.2] ++ iterations (timed.map Prod.snd) := by
      rw [← Event.iterations_append]
      rfl
    rw [hsplit] at hrunning
    refine ih (h.observe observed.1 hevent fun hone => ?_) hrest fun hmore => ?_
    · exact hrunning (List.append_ne_nil_of_left_ne_nil hone _)
    · exact hrunning (List.append_ne_nil_of_right_ne_nil _ hmore)

theorem change (h : Tracks t s) (htimed : timed.map Prod.snd = Event.change s.status s'.status)
    (hsame : s.status.name = s'.status.name → s'.status = s.status) :
    Tracks (t.observeAll timed) s' := by
  unfold Event.change at htimed
  split at htimed
  · next hname =>
    obtain rfl := List.map_eq_nil_iff.mp htimed
    exact ⟨h.status.trans (hsame hname).symm, h.running⟩
  · obtain ⟨⟨now, event⟩, rfl, hevent⟩ := List.map_eq_singleton_iff.mp htimed
    obtain rfl : event = .status s.status s'.status := hevent
    exact ⟨rfl, h.running⟩

/-- A tracker that knows a state knows every state that what it sees leads to. -/
theorem leads (h : Tracks t s) (hleads : Optimizer.Leads s s' (timed.map Prod.snd)) :
    Tracks (t.observeAll timed) s' := by
  obtain ⟨report, hevents, hquiet, hrunning⟩ := hleads.report
  obtain ⟨before, after, rfl, rfl, hafter⟩ := List.map_eq_append_iff.mp hevents
  rw [Tracker.observeAll_append]
  exact (h.report hquiet hrunning).change hafter hleads.same

end Tracks

end Trace

/-! ## Trackers of a run -/

namespace Optimizer

open Trace

variable {o : Optimizer α} {s s₀ : State α} {log : List (Event α)}

theorem start_tracked {objectives constraints : List (Term α)} {initial : Tensor α}
    {paths : Option (List String)}
    (h : (o.start objectives constraints initial paths).result = .ok s₀) (run : String)
    (clock : Option α) : Tracks { run, clock } s₀ := by
  obtain ⟨_, _, _, _, _, _, rfl⟩ := start_eq_ok h
  exact ⟨rfl, by simp⟩

/-- A tracker that has seen a history knows its state. -/
theorem History.tracked (h : o.History s₀ log s) (run : String) (clock : Option α) :
    ∀ timed : List (α × Event α), timed.map Prod.snd = log →
      Tracks (Tracker.seen run clock timed) s := by
  have onward {log events : List (Event α)} {s s' : State α} (hleads : Leads s s' events)
      (ih : ∀ timed : List (α × Event α), timed.map Prod.snd = log →
        Tracks (Tracker.seen run clock timed) s) :
      ∀ timed : List (α × Event α), timed.map Prod.snd = log ++ events →
        Tracks (Tracker.seen run clock timed) s' := by
    intro timed htimed
    obtain ⟨before, after, rfl, hbefore, rfl⟩ := List.map_eq_append_iff.mp htimed
    rw [Tracker.seen_append]
    exact (ih before hbefore).leads hleads
  refine h.steps (P := fun log s => ∀ timed : List (α × Event α), timed.map Prod.snd = log →
    Tracks (Tracker.seen run clock timed) s) ?_ ?_ ?_
  · intro _ _ _ _ hstart timed htimed
    obtain rfl := List.map_eq_nil_iff.mp htimed
    exact start_tracked hstart run clock
  · intro _ _ _ _ _ _ hstep ih
    exact onward hstep.leads ih
  · intro _ _ _ _ _ hresample ih
    exact onward (resample_leads hresample) ih

end Optimizer

end DiagramLayout
