import DiagramLayout.Trace.Tracker
import Mathlib.Data.List.Chain
import Mathlib.Data.List.Induction

namespace DiagramLayout

variable {α : Type}

/-! ## Events by kind -/

namespace Event

/-- The iteration that an event reports. -/
@[simp] def iteration? : Event α → Option (Iteration α)
  | .iteration i => some i
  | _ => none

/-- The change of status that an event reports. -/
@[simp] def change? : Event α → Option (Status × Status)
  | .status old new => some (old, new)
  | _ => none

/-- The iterations among events. -/
def iterations (events : List (Event α)) : List (Iteration α) := events.filterMap iteration?

/-- The changes of status among events. -/
def changes (events : List (Event α)) : List (Status × Status) := events.filterMap change?

variable {before after events : List (Event α)}

@[simp] theorem iterations_nil : iterations ([] : List (Event α)) = [] := rfl

@[simp] theorem iterations_append :
    iterations (before ++ after) = iterations before ++ iterations after := List.filterMap_append

@[simp] theorem iterations_singleton (event : Event α) :
    iterations [event] = event.iteration?.toList := by cases event <;> rfl

@[simp] theorem iterations_trials (trials : List (LineSearch.Trial α)) :
    iterations (trials.map .trial) = [] := by simp [iterations, iteration?]

theorem mem_iterations {i : Iteration α} : i ∈ iterations events ↔ .iteration i ∈ events := by
  simp only [iterations, List.mem_filterMap]
  constructor
  · rintro ⟨event, hevent, hi⟩
    cases event with
    | iteration j => cases hi; exact hevent
    | trial | status | warning => cases hi
  · intro h
    exact ⟨_, h, rfl⟩

theorem iterations_eq_nil (h : ∀ event ∈ events, event.iteration? = none) : iterations events = [] :=
  List.filterMap_eq_nil_iff.mpr h

@[simp] theorem changes_nil : changes ([] : List (Event α)) = [] := rfl

@[simp] theorem changes_append : changes (before ++ after) = changes before ++ changes after :=
  List.filterMap_append

@[simp] theorem changes_singleton (event : Event α) : changes [event] = event.change?.toList := by
  cases event <;> rfl

theorem changes_eq_nil (h : ∀ event ∈ events, event.change? = none) : changes events = [] :=
  List.filterMap_eq_nil_iff.mpr h

@[simp] theorem iterations_change (old new : Status) :
    iterations (change old new : List (Event α)) = [] := by
  unfold change
  split <;> rfl

theorem changes_change (old new : Status) :
    changes (change old new : List (Event α)) = if old.name = new.name then [] else [(old, new)] := by
  unfold change
  split <;> rfl

end Event

namespace Trace

open Event (iterations changes)

/-- The change of the energy from one row to the next: rows of different rounds have different weights
and are not compared. -/
def IterationRow.changeTo [Scalar α] (before after : IterationRow α) : Option α :=
  if before.iteration.round = after.iteration.round then
    some (after.iteration.energy - before.iteration.energy)
  else none

namespace Tracker

variable [Scalar α] {t : Tracker α} {log : List (Event α)} {timed : List (α × Event α)}

/-- Events in a row, each at a reading of the clock. -/
def observeAll (t : Tracker α) (timed : List (α × Event α)) : Tracker α :=
  timed.foldl (fun t observed => t.observe observed.1 observed.2) t

theorem observeAll_append (t : Tracker α) (before after : List (α × Event α)) :
    t.observeAll (before ++ after) = (t.observeAll before).observeAll after := List.foldl_append

theorem observeAll_concat (t : Tracker α) (timed : List (α × Event α)) (observed : α × Event α) :
    t.observeAll (timed ++ [observed]) = (t.observeAll timed).observe observed.1 observed.2 :=
  t.observeAll_append timed [observed]

/-- A tracker that was new before events in a row. -/
def seen (run : String) (clock : Option α) (timed : List (α × Event α)) : Tracker α :=
  ({ run, clock } : Tracker α).observeAll timed

theorem seen_append (run : String) (clock : Option α) (before after : List (α × Event α)) :
    seen run clock (before ++ after) = (seen run clock before).observeAll after :=
  observeAll_append _ before after

theorem seen_concat (run : String) (clock : Option α) (timed : List (α × Event α))
    (observed : α × Event α) : seen run clock (timed ++ [observed]) =
      (seen run clock timed).observe observed.1 observed.2 := observeAll_concat _ timed observed

/-! ## Rows -/

/-- The rows of a tracker were made of certain events: a row for each iteration, numbered from one, with
the change of the energy since the row before, and a row for each change of status. -/
structure Kept (t : Tracker α) (log : List (Event α)) : Prop where
  iterations : t.rows.map IterationRow.iteration = iterations log
  changes : t.statusRows.map (fun r => (r.old, r.new)) = changes log
  step : t.step = t.rows.length
  numbered : t.rows.map IterationRow.step = List.range' 1 t.rows.length
  last : t.last = t.rows.getLast?.map fun r => (r.iteration.round, r.iteration.energy)
  first : ∀ r ∈ t.rows.head?, r.change = none
  compared : t.rows.IsChain fun r r' => r'.change = r.changeTo r'

theorem Kept.change_eq (h : t.Kept log) (now : α) (i : Iteration α) :
    (t.row now i).change = t.rows.getLast?.bind fun r => r.changeTo (t.row now i) := by
  simp only [row, change, h.last]
  cases t.rows.getLast? <;> rfl

theorem Kept.iterated (h : t.Kept log) (now : α) (i : Iteration α) :
    (t.iterated now i).Kept (log ++ [.iteration i]) where
  iterations := by simp [Tracker.iterated, row, h.iterations]
  changes := by simp [Tracker.iterated, h.changes]
  step := by simp [Tracker.iterated, h.step]
  numbered := by
    simp only [Tracker.iterated, List.map_append, h.numbered, List.length_append, List.map_cons,
      List.map_nil, List.length_singleton, List.range'_concat]
    simp [row, h.step, Nat.add_comm]
  last := by simp [Tracker.iterated, row]
  first := by
    intro r hr
    cases hrows : t.rows with
    | nil =>
      simp only [Tracker.iterated, hrows, List.nil_append, List.head?_cons, Option.mem_some] at hr
      rw [← hr, h.change_eq, hrows]
      rfl
    | cons r' rows =>
      refine h.first r ?_
      simpa [Tracker.iterated, hrows] using hr
  compared := by
    refine List.isChain_append.mpr ⟨h.compared, .singleton _, ?_⟩
    intro r hr r' hr'
    obtain rfl : t.row now i = r' := by simpa using hr'
    rw [h.change_eq, Option.mem_def.mp hr]
    rfl

theorem Kept.changed (h : t.Kept log) (old new : Status) :
    (t.changed old new).Kept (log ++ [.status old new]) :=
  { h with
    iterations := by simp [Tracker.changed, h.iterations]
    changes := by simp [Tracker.changed, h.changes] }

/-- Every event keeps the rows in step with what was seen. -/
theorem Kept.observe (h : t.Kept log) (now : α) (event : Event α) :
    (t.observe now event).Kept (log ++ [event]) := by
  cases event with
  | iteration i => exact h.iterated now i
  | status old new => exact h.changed old new
  | trial | warning =>
    exact { h with
      iterations := by simp [Tracker.observe, h.iterations]
      changes := by simp [Tracker.observe, h.changes] }

theorem Kept.observeAll (h : t.Kept log) (timed : List (α × Event α)) :
    (t.observeAll timed).Kept (log ++ timed.map Prod.snd) := by
  induction timed generalizing t log with
  | nil => simpa [Tracker.observeAll] using h
  | cons observed timed ih =>
    have hrest := ih (h.observe observed.1 observed.2)
    rwa [List.append_assoc] at hrest

/-- The rows of a tracker that was new. -/
theorem kept_seen (run : String) (clock : Option α) (timed : List (α × Event α)) :
    (seen run clock timed).Kept (timed.map Prod.snd) := by
  have hnew : ({ run, clock } : Tracker α).Kept [] := by
    constructor <;> simp [Event.iterations, Event.changes]
  exact hnew.observeAll timed

/-- A tracker adds a row for each iteration that it sees. -/
theorem exists_rows_append (t : Tracker α) (timed : List (α × Event α)) :
    ∃ rows, (t.observeAll timed).rows = t.rows ++ rows ∧
      rows.map IterationRow.iteration = iterations (timed.map Prod.snd) := by
  induction timed using List.reverseRecOn with
  | nil => exact ⟨[], by simp [observeAll], rfl⟩
  | append_singleton timed observed ih =>
    obtain ⟨rows, hrows, hiterations⟩ := ih
    obtain ⟨now, event⟩ := observed
    rw [observeAll_concat, List.map_append, Event.iterations_append, ← hiterations]
    cases event with
    | iteration i =>
      refine ⟨rows ++ [(t.observeAll timed).row now i], ?_, by simp [row]⟩
      simp [observe, iterated, hrows]
    | trial | status | warning => exact ⟨rows, hrows, by simp⟩

/-- The row of a change of status was made when the change was seen. It has the number of the iteration
rows there were then. -/
theorem exists_statusRow_split (run : String) (clock : Option α) (timed : List (α × Event α))
    {k : Nat} {row : StatusRow}
    (h : (seen run clock timed).statusRows[k]? = some row) :
    ∃ before now after, timed = before ++ (now, .status row.old row.new) :: after ∧
      (seen run clock before).statusRows.length = k ∧
      row.step = (seen run clock before).rows.length := by
  induction timed using List.reverseRecOn with
  | nil => simp [seen, observeAll] at h
  | append_singleton timed observed ih =>
    have earlier (h' : (seen run clock timed).statusRows[k]? = some row) :
        ∃ before now after, timed ++ [observed] = before ++ (now, .status row.old row.new) :: after ∧
          (seen run clock before).statusRows.length = k ∧
          row.step = (seen run clock before).rows.length := by
      obtain ⟨before, now, after, rfl, hk, hstep⟩ := ih h'
      exact ⟨before, now, after ++ [observed], by simp, hk, hstep⟩
    rw [seen_concat] at h
    obtain ⟨now, event⟩ := observed
    cases event with
    | trial | iteration | warning => exact earlier h
    | status old new =>
      simp only [observe, changed, List.getElem?_append] at h
      split at h
      · exact earlier h
      · next hlength =>
        rw [List.getElem?_singleton] at h
        split at h
        · obtain rfl := Option.some.inj h
          exact ⟨timed, now, [], rfl, by omega, (kept_seen run clock timed).step⟩
        · cases h

end Tracker

end Trace

end DiagramLayout
