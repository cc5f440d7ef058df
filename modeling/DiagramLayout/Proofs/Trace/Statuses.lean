import DiagramLayout.Proofs.Optimizer.Escapes
import DiagramLayout.Proofs.Trace.Mirror
import DiagramLayout.Trace.Record
import Mathlib.Data.List.Infix

/-!
# The rows of changes of status

A run is the steps that it makes. If one of them ends with a fault the run does, and its caller has the
state from before it; what the steps before the fault have reported was seen all the same
(`Optimizer.steepGrowth_status_ahead`).
-/

namespace DiagramLayout

/-! ## Lists of statuses -/

namespace Status

/-- The changes along a list of statuses; a status of the same name is no change. -/
def changes : List Status → List (Status × Status)
  | old :: new :: rest => (if old.name = new.name then [] else [(old, new)]) ++ changes (new :: rest)
  | _ => []

theorem changes_concat (before : List Status) (old new : Status) :
    changes (before ++ [old, new]) =
      changes (before ++ [old]) ++ if old.name = new.name then [] else [(old, new)] := by
  induction before with
  | nil => simp [changes]
  | cons status before ih =>
    cases before with
    | nil => simp [changes]
    | cons next before => simpa [changes] using ih

theorem mem_of_mem_changes {statuses : List Status} {change : Status × Status}
    (h : change ∈ changes statuses) : change.2 ∈ statuses := by
  induction statuses with
  | nil => cases h
  | cons old rest ih =>
    cases rest with
    | nil => cases h
    | cons new rest =>
      rw [changes] at h
      rcases List.mem_append.mp h with h | h
      · split at h
        · cases h
        · obtain rfl := List.mem_singleton.mp h
          simp
      · exact List.mem_cons_of_mem _ (ih h)

end Status

/-- Changes that lead to a status: the first one is from the status of a start, every other from where
the one before led to, and none leads to a status of the same name. -/
structure StatusPath (changes : List (Status × Status)) (status : Status) : Prop where
  first : ∀ c ∈ changes.head?, c.1 = .fresh
  linked : changes.IsChain fun c c' => c'.1 = c.2
  proper : ∀ c ∈ changes, c.1.name ≠ c.2.name
  last : status = (changes.getLast?.map Prod.snd).getD .fresh

namespace StatusPath

theorem start : StatusPath [] .fresh := ⟨by simp, .nil, by simp, rfl⟩

theorem concat {changes : List (Status × Status)} {old new : Status} (h : StatusPath changes old)
    (hnew : old.name ≠ new.name) : StatusPath (changes ++ [(old, new)]) new where
  first := by
    intro c hc
    cases changes with
    | nil =>
      obtain rfl : (old, new) = c := by simpa using hc
      exact h.last
    | cons first rest => exact h.first c (by simpa using hc)
  linked := by
    refine List.isChain_append.mpr ⟨h.linked, .singleton _, ?_⟩
    intro c hc c' hc'
    obtain rfl : (old, new) = c' := by simpa using hc'
    have hlast := h.last
    rw [Option.mem_def.mp hc] at hlast
    exact hlast
  proper := List.forall_mem_append.mpr ⟨h.proper, by simpa using hnew⟩
  last := by simp

end StatusPath

namespace Optimizer

open Trace
open Event (changes)

variable {α : Type} [Scalar α] {o : Optimizer α} {s s₀ : State α} {log : List (Event α)}
  {objectives constraints : List (Term α)} {initial : Tensor α} {paths : Option (List String)}

/-! ## Single calls -/

/-- The statuses of the latest states of a caller: at the start, and after each call. -/
def statuses (o : Optimizer α) (s₀ : State α) (calls : List (Call α)) : List Status :=
  calls.inits.map fun before => (o.session s₀ before).state.status

theorem statuses_concat (calls : List (Call α)) (call : Call α) :
    o.statuses s₀ (calls ++ [call]) =
      o.statuses s₀ calls ++ [(o.session s₀ (calls ++ [call])).state.status] := by
  simp [statuses, List.inits_append]

/-- The latest status is the last one. -/
theorem exists_statuses_eq (o : Optimizer α) (s₀ : State α) (calls : List (Call α)) :
    ∃ before, o.statuses s₀ calls = before ++ [(o.session s₀ calls).state.status] := by
  induction calls using List.reverseRecOn with
  | nil => exact ⟨[], rfl⟩
  | append_singleton calls call _ => exact ⟨_, statuses_concat calls call⟩

/-- What is reported of single calls is every change of the status. -/
theorem session_changes (o : Optimizer α) (s₀ : State α) (calls : List (Call α))
    (hsingle : ∀ call ∈ calls, call.isSingle = true) :
    changes (o.session s₀ calls).log = Status.changes (o.statuses s₀ calls) := by
  induction calls using List.reverseRecOn with
  | nil => rfl
  | append_singleton calls call ih =>
    obtain ⟨hcalls, hcall⟩ := List.forall_mem_append.mp hsingle
    have hleads := o.answer_leads (o.session s₀ calls) (hcall call (by simp))
    obtain ⟨before, hbefore⟩ := o.exists_statuses_eq s₀ calls
    rw [session_log_concat, Event.changes_append, ih hcalls, hleads.changes_eq, ← session_concat,
      statuses_concat, hbefore, List.append_assoc]
    exact (Status.changes_concat before _ _).symm

/-- What is reported of single calls leads to the latest status. -/
theorem session_statusPath (hstart : (o.start objectives constraints initial paths).result = .ok s₀)
    (calls : List (Call α)) (hsingle : ∀ call ∈ calls, call.isSingle = true) :
    StatusPath (changes (o.session s₀ calls).log) (o.session s₀ calls).state.status := by
  induction calls using List.reverseRecOn with
  | nil =>
    obtain ⟨_, _, _, _, _, _, rfl⟩ := start_eq_ok hstart
    exact .start
  | append_singleton calls call ih =>
    obtain ⟨hcalls, hcall⟩ := List.forall_mem_append.mp hsingle
    have hleads := o.answer_leads (o.session s₀ calls) (hcall call (by simp))
    rw [session_log_concat, Event.changes_append, hleads.changes_eq, ← session_concat]
    rw [← session_concat] at hleads
    split
    · next hname =>
      rw [List.append_nil, hleads.same hname]
      exact ih hcalls
    · next hname => exact (ih hcalls).concat hname

/-- A tracker that has seen single calls knows the latest status. -/
theorem session_tracked (hstart : (o.start objectives constraints initial paths).result = .ok s₀)
    (calls : List (Call α)) (hsingle : ∀ call ∈ calls, call.isSingle = true) (run : String)
    (clock : Option α) (timed : List (α × Event α))
    (htimed : timed.map Prod.snd = (o.session s₀ calls).log) :
    Tracks (Tracker.seen run clock timed) (o.session s₀ calls).state := by
  induction calls using List.reverseRecOn generalizing timed with
  | nil =>
    obtain rfl := List.map_eq_nil_iff.mp htimed
    exact start_tracked hstart run clock
  | append_singleton calls call ih =>
    obtain ⟨hcalls, hcall⟩ := List.forall_mem_append.mp hsingle
    rw [session_concat] at htimed ⊢
    obtain ⟨before, after, rfl, hbefore, hafter⟩ := List.map_eq_append_iff.mp htimed
    rw [Tracker.seen_append]
    refine (ih hcalls before hbefore).leads ?_
    rw [hafter]
    exact o.answer_leads _ (hcall call (by simp))

/-! ## Failures -/

/-- A run that has failed has a message. -/
theorem History.message (h : o.History s₀ log s) {message : Option String}
    (hfailed : s.status = .failed message) : ∃ text, message = some text := by
  have hmessage : ∀ message, s.status = .failed message → ∃ text, message = some text := by
    refine h.steps (P := fun _ s => ∀ message, s.status = .failed message →
      ∃ text, message = some text) ?_ ?_ ?_
    · intro _ _ _ _ hstart message hfailed
      obtain ⟨_, _, _, _, _, _, rfl⟩ := start_eq_ok hstart
      cases hfailed
    · intro _ s s' _ _ _ hstep ih message hfailed
      cases hstep with
      | idle => exact ih message hfailed
      | started | converged | continued => cases hfailed
      | @phase _ _ d _ _ _ _ _ _ =>
        rcases o.afterPhase_status s d with hstatus | hstatus <;> rw [hstatus] at hfailed <;>
          cases hfailed
      | failed =>
        cases hfailed
        exact ⟨_, rfl⟩
    · intro _ _ _ _ _ hresample _ message hfailed
      obtain ⟨_, _, _, rfl⟩ := resample_eq_ok hresample
      cases hfailed
  exact hmessage message hfailed

/-- What stands in the row of a change: the message of a failure, and no text for any other status. -/
theorem session_message (hstart : (o.start objectives constraints initial paths).result = .ok s₀)
    {calls : List (Call α)} {change : Status × Status}
    (h : change ∈ Status.changes (o.statuses s₀ calls)) (row : StatusRow) (hrow : row.new = change.2) :
    (∃ text, row.new = .failed (some text) ∧ ("message", .text text) ∈ row.record) ∨
      (¬∃ message, row.new = .failed message) ∧ ("message", .text "") ∈ row.record := by
  have hmessage : ("message", .text (row.new.message?.getD "")) ∈ row.record := by
    simp [StatusRow.record]
  obtain ⟨before, _, hstatus⟩ := List.mem_map.mp (Status.mem_of_mem_changes h)
  cases hnew : row.new with
  | failed message =>
    obtain ⟨_, history⟩ := session_history hstart before
    obtain ⟨text, rfl⟩ := history.message (hstatus.trans (hrow.symm.trans hnew))
    rw [hnew] at hmessage
    exact .inl ⟨text, rfl, hmessage⟩
  | fresh | running | settled | converged =>
    rw [hnew] at hmessage
    exact .inr ⟨by simp, hmessage⟩

/-- **The rows of changes of status.** A tracker has seen calls in a row from the start, where a run
counts as the single calls that it makes, and so leads to the state that the last of them to return gave.
It knows the status of the latest state. Its rows are the changes of the status from one single call to the
next, in order: the first one is from a new state, every other from where the one before led to, and none
to a status of the same name. A row has the message of a failure, or an empty one, and the number of the
iteration rows that there were when it was made. If every run returns, the latest state and all that was
reported are those of the calls themselves. -/
theorem session_status_rows
    (hstart : (o.start objectives constraints initial paths).result = .ok s₀) (calls : List (Call α))
    (run : String) (clock : Option α) (timed : List (α × Event α))
    (htimed : timed.map Prod.snd = (o.session s₀ (o.unrolled s₀ calls)).log) :
    (∀ call ∈ o.unrolled s₀ calls, call.isSingle = true) ∧
    ((∀ before call after, calls = before ++ call :: after →
        call.isSingle = true ∨ ∃ s', (o.answer (o.session s₀ before).state call).result = .ok s') →
      o.session s₀ (o.unrolled s₀ calls) = o.session s₀ calls) ∧
    (Tracker.seen run clock timed).status = (o.session s₀ (o.unrolled s₀ calls)).state.status ∧
    (Tracker.seen run clock timed).statusRows.map (fun r => (r.old, r.new)) =
      Status.changes (o.statuses s₀ (o.unrolled s₀ calls)) ∧
    (∀ r ∈ (Tracker.seen run clock timed).statusRows.head?, r.old = .fresh) ∧
    (Tracker.seen run clock timed).statusRows.IsChain (fun r r' => r'.old = r.new) ∧
    (∀ r ∈ (Tracker.seen run clock timed).statusRows, r.old.name ≠ r.new.name ∧
      ((∃ text, r.new = .failed (some text) ∧ ("message", .text text) ∈ r.record) ∨
        (¬∃ message, r.new = .failed message) ∧ ("message", .text "") ∈ r.record)) ∧
    ∀ k r, (Tracker.seen run clock timed).statusRows[k]? = some r →
      ∃ before now after, timed = before ++ (now, .status r.old r.new) :: after ∧
        (Tracker.seen run clock before).statusRows.length = k ∧
        r.step = (Tracker.seen run clock before).rows.length := by
  have hsingle := o.unrolled_single s₀ calls
  have hchanges : (Tracker.seen run clock timed).statusRows.map (fun r => (r.old, r.new)) =
      changes (o.session s₀ (o.unrolled s₀ calls)).log := by
    rw [← htimed]
    exact (Tracker.kept_seen run clock timed).changes
  have path := session_statusPath hstart _ hsingle
  rw [← hchanges] at path
  have hpairs := hchanges.trans (session_changes o s₀ _ hsingle)
  refine ⟨hsingle, session_unrolled calls,
    (session_tracked hstart _ hsingle run clock timed htimed).status, hpairs, ?_, ?_, ?_,
    fun k r => Tracker.exists_statusRow_split run clock timed⟩
  · intro r hr
    exact path.first (r.old, r.new) (by rw [List.head?_map, Option.mem_def.mp hr]; rfl)
  · exact (List.isChain_map _).mp path.linked
  · intro r hr
    have hmem := List.mem_map_of_mem (f := fun r : StatusRow => (r.old, r.new)) hr
    refine ⟨path.proper _ hmem, ?_⟩
    rw [hpairs] at hmem
    exact session_message hstart hmem r rfl

/-- A run of two steps, a step that is refused, and a new start. -/
def callsToAnew : List (Call ℚ) := [.run none 1 2, .step none (-1), .resample (.array [.entry 1])]

theorem callsToAnew_status_rows : ∃ s₀ r r',
    (shortSteps.start [⟨"equal", [.varying 0, .number 3], .objective⟩] [] (.array [.entry 0])
      none).result = .ok s₀ ∧
    (Tracker.seen "trace" none ((shortSteps.session s₀ (shortSteps.unrolled s₀ callsToAnew)).log.map
      fun event => (0, event))).statusRows = [r, r'] ∧
    (r.old, r.new) = (.fresh, .running) ∧ r'.old = r.new ∧ r'.new = .fresh ∧
    ("message", .text "") ∈ r'.record := by
  have h : ((shortSteps.start [⟨"equal", [.varying 0, .number 3], .objective⟩] []
      (.array [.entry 0]) none).result.map fun s₀ => (Tracker.seen "trace" none
        ((shortSteps.session s₀ (shortSteps.unrolled s₀ callsToAnew)).log.map
          fun event => ((0 : ℚ), event))).statusRows.map StatusRow.new).toOption =
      some [.running, .fresh] := by decide +kernel
  obtain ⟨s₀, hstart, hnew⟩ := map_eq_ok_iff.mp (toOption_eq_some_iff.mp h)
  obtain ⟨r, rest, hrows, hr, hrest⟩ := List.map_eq_cons_iff.mp hnew
  obtain ⟨r', rfl, hr'⟩ := List.map_eq_singleton_iff.mp hrest
  obtain ⟨_, _, _, _, hfirst, hchain, hmessage, _⟩ :=
    session_status_rows hstart callsToAnew "trace" none
      ((shortSteps.session s₀ (shortSteps.unrolled s₀ callsToAnew)).log.map fun event => (0, event))
      (by simp)
  rw [hrows] at hfirst hchain hmessage
  refine ⟨s₀, r, r', hstart, hrows, by rw [hfirst r rfl, hr], by simpa using hchain, hr', ?_⟩
  rcases (hmessage r' (by simp)).2 with ⟨text, hfailed, _⟩ | ⟨_, hempty⟩
  · rw [hr'] at hfailed
    cases hfailed
  · exact hempty

/-- A run that ends with a fault leaves its caller with the state from before it, and a tracker knows the
status of a later one. -/
theorem steepGrowth_status_ahead : ¬ ∀ (o : Optimizer Float) (objectives constraints : List (Term Float))
    (initial : Tensor Float) (s₀ : State Float) (calls : List (Call Float)) (run : String)
    (clock : Option Float) (timed : List (Float × Event Float)), o.check = .ok () →
      o.lineSearch.check = .ok () →
      (o.start objectives constraints initial none).result = .ok s₀ →
      timed.map Prod.snd = (o.session s₀ calls).log →
      (Tracker.seen run clock timed).status.name = (o.session s₀ calls).state.status.name := by
  intro h
  have hrun : ((steepGrowth.start [⟨"equal", [.varying 0, .number 3], .objective⟩] []
      (.array [.entry 0]) none).result.map fun s₀ =>
        let x := steepGrowth.session s₀ [.run none 100 20]
        ((Tracker.seen "trace" none (x.log.map fun event => (0, event))).status,
          x.state.status)).toOption = some (.settled, .fresh) := by decide +kernel
  obtain ⟨s₀, hstart, hstatus⟩ := map_eq_ok_iff.mp (toOption_eq_some_iff.mp hrun)
  obtain ⟨htracker, hstate⟩ := Prod.mk.inj hstatus
  have hsame := h steepGrowth _ _ _ s₀ [.run none 100 20] "trace" none
    ((steepGrowth.session s₀ [.run none 100 20]).log.map fun event => (0, event))
    (by decide +kernel) (by decide +kernel) hstart (by simp)
  rw [htracker, hstate] at hsame
  exact absurd hsame (by decide)

end Optimizer

end DiagramLayout
