import DiagramLayout.Fault
import DiagramLayout.Shapes.Store

namespace DiagramLayout

variable {α β γ : Type} {P : Fault → Prop}

theorem require_eq_ok_iff {kept : Bool} {rule : Rule} : require kept rule = .ok () ↔ kept = true := by
  cases kept <;> simp [require]

theorem require_eq_error_iff {kept : Bool} {rule : Rule} {cause : Fault} :
    require kept rule = .error cause ↔ cause = .violated rule ∧ kept = false := by
  cases kept <;> simp [require, eq_comm]

/-- Where a computation fails, its fault has the property. -/
def FaultsIn (P : Fault → Prop) (r : Except Fault β) : Prop := ∀ cause, r = .error cause → P cause

namespace FaultsIn

@[simp] theorem ok (b : β) : FaultsIn P (.ok b) := by intro cause h; cases h

@[simp] theorem pure (b : β) : FaultsIn P (Pure.pure b) := ok b

theorem error {cause : Fault} (h : P cause) : FaultsIn P (.error cause : Except Fault β) := by
  intro _ heq
  cases heq
  exact h

theorem bind {r : Except Fault β} {f : β → Except Fault γ} (h : FaultsIn P r)
    (next : ∀ b, r = .ok b → FaultsIn P (f b)) : FaultsIn P (r >>= f) := by
  cases r with
  | ok b => exact next b rfl
  | error cause => exact error (h cause rfl)

theorem map {r : Except Fault β} (h : FaultsIn P r) (f : β → γ) : FaultsIn P (r.map f) := by
  cases r with
  | ok b => exact ok _
  | error cause => exact error (h cause rfl)

theorem mapM {f : β → Except Fault γ} (h : ∀ b, FaultsIn P (f b)) (bs : List β) :
    FaultsIn P (bs.mapM f) := by
  induction bs with
  | nil => exact .pure []
  | cons b bs ih =>
    rw [List.mapM_cons]
    exact .bind (h b) fun _ _ => .bind ih fun _ _ => .pure _

theorem require {rule : Rule} (h : P (.violated rule)) (kept : Bool) :
    FaultsIn P (DiagramLayout.require kept rule) := by
  cases kept with
  | true => exact ok ()
  | false => exact error h

end FaultsIn

/-- A rule of a state, which only the program itself could break. -/
def Fault.isInternal : Fault → Bool
  | .violated .objectiveReady | .violated .energyReady | .violated .memoryComplete
  | .violated .pairCount | .violated .pairsWithinMemory | .violated (.knownStatus _) => true
  | _ => false

namespace Shapes

theorem Path.read_faultsIn (hunreadable : P .unreadable) (hmalformed : ∀ path, P (.malformedPath path))
    (path : String) : FaultsIn P (Path.read path) := by
  unfold Path.read
  split
  · exact .ok _
  · split
    · split
      · exact .ok _
      · exact .error hunreadable
    · exact .error (hmalformed _)
  · exact .error (hmalformed _)

theorem Store.set_faultsIn (hunreadable : P .unreadable)
    (hmalformed : ∀ path, P (.malformedPath path)) (hunknown : ∀ path, P (.unknownPath path))
    (s : Store α) (path : String) (x : α) : FaultsIn P (s.set path x) := by
  refine .bind (Path.read_faultsIn hunreadable hmalformed path) fun p _ => ?_
  split
  · exact .pure _
  · split
    · split
      · exact .pure _
      · exact .error (hunknown _)
    · exact .error (hunknown _)

/-- Writing values back fails on paths only. -/
theorem Store.insert_faultsIn (hunreadable : P .unreadable)
    (hmalformed : ∀ path, P (.malformedPath path)) (hunknown : ∀ path, P (.unknownPath path))
    (s : Store α) (values : List (String × α)) : FaultsIn P (s.insert values).1 := by
  unfold insert
  induction values generalizing s with
  | nil => exact .ok ()
  | cons entry values ih =>
    unfold each
    split
    · exact ih _
    · next hset => exact .error (set_faultsIn hunreadable hmalformed hunknown s _ _ _ hset)

end Shapes

end DiagramLayout
