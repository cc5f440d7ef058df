import DiagramLayout.Graph.Record

/-!
# Formulas

A formula is a computation made of elementary operations on values. It is written once and read in
two ways: computed on numbers, and recorded on a graph, where operations without a handle are still
computed at once.
-/

namespace DiagramLayout

/-- A computation that asks for elementary operations and ends with a result or a fault. -/
inductive Formula (α β : Type) where
  | done (b : β)
  | fault (f : Fault)
  | operate (op : Op) (operands : List (Value α)) (next : Value α → Formula α β)

namespace Formula

variable {α β γ : Type}

/-- One formula after another. -/
def bind : Formula α β → (β → Formula α γ) → Formula α γ
  | done b, f => f b
  | fault e, _ => fault e
  | operate op operands next, f => operate op operands fun v => (next v).bind f

instance : Monad (Formula α) where
  pure := done
  bind := bind

theorem bind_done (m : Formula α β) : m.bind done = m := by
  induction m with
  | done b => rfl
  | fault e => rfl
  | operate op operands next ih => exact congrArg (operate op operands) (funext ih)

theorem bind_bind {δ : Type} (m : Formula α β) (f : β → Formula α γ) (g : γ → Formula α δ) :
    (m.bind f).bind g = m.bind fun b => (f b).bind g := by
  induction m with
  | done b => rfl
  | fault e => rfl
  | operate op operands next ih => exact congrArg (operate op operands) (funext ih)

instance : LawfulMonad (Formula α) :=
  LawfulMonad.mk' (Formula α) bind_done (fun _ _ => rfl) bind_bind

/-- One elementary operation. -/
def apply (op : Op) (operands : List (Value α)) : Formula α (Value α) := operate op operands done

/-- A result that needs no operation. -/
def ofExcept : Except Fault β → Formula α β
  | .ok b => done b
  | .error e => fault e

/-- A rule that has to hold. -/
def demand (kept : Bool) (rule : Rule) : Formula α Unit := ofExcept (require kept rule)

variable [Scalar α]

/-- A formula computed on numbers. -/
def eval : Formula α β → Except Fault β
  | done b => .ok b
  | fault e => .error e
  | operate op operands next =>
    match op.onNumbers operands with
    | .ok v => (next v).eval
    | .error e => .error e

/-- A formula recorded on a graph. -/
def record : Formula α β → Recording α β
  | done b => pure b
  | fault e => throw e
  | operate op operands next => Graph.operate op operands >>= fun v => (next v).record

/-- On numbers one formula after another is computed step by step. -/
theorem eval_bind (m : Formula α β) (f : β → Formula α γ) :
    (m >>= f).eval = m.eval >>= fun b => (f b).eval := by
  change (m.bind f).eval = _
  induction m with
  | done b => rfl
  | fault e => rfl
  | operate op operands next ih =>
    simp only [bind, eval]
    cases op.onNumbers operands with
    | ok v => exact ih v
    | error e => rfl

/-- On a graph one operation is recorded as it is. -/
theorem record_apply (op : Op) (operands : List (Value α)) :
    (apply op operands).record = Graph.operate op operands := bind_pure (Graph.operate op operands)

/-- On a graph one formula after another is recorded step by step. -/
theorem record_bind (m : Formula α β) (f : β → Formula α γ) :
    (m >>= f).record = m.record >>= fun b => (f b).record := by
  change (m.bind f).record = _
  induction m with
  | done b => simp [bind, record]
  | fault e => rfl
  | operate op operands next ih => simp [bind, record, ih]

end Formula

end DiagramLayout
