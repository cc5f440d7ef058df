import DiagramLayout.Formula.Basic
import Mathlib.Data.List.Forall2
import Mathlib.Order.Basic

/-!
# Formulas that differ only in what stands for a handle

A formula cannot look into a handle. So when its arguments are exchanged for others of the same
form, each handle for what it stands for, it asks for the same operations and ends alike.

* `Counterpart`: whether a handle stands for a number or for another handle;
* `Value.Agrees`: two values of one form, handles on the left standing for their counterparts;
* `Formula.Agrees`: two formulas that ask for the same operations on values that agree, whatever
  agreeing results they are given;
* `Formula.Agrees.bind`, `Formula.Agrees.mapM`: formulas put together agree when their parts do.
-/

namespace DiagramLayout

/-- What stands opposite a handle. -/
inductive Counterpart where
  /-- The number that the handle's node has. -/
  | number
  /-- A handle of another graph. -/
  | handle
deriving DecidableEq

namespace Counterpart

variable {α : Type}

/-- The values that can stand opposite a handle. -/
def Admits : Counterpart → Value α → Prop
  | number, .number _ | number, .integer _ | number, .truth _ => True
  | handle, .handle _ => True
  | _, _ => False

/-- Like a handle, a counterpart has no items. -/
theorem Admits.items {k : Counterpart} {v : Value α} (h : k.Admits v) :
    v.items = .error .wrongForm := by
  cases k <;> cases v <;> first | rfl | exact h.elim

theorem Admits.isList {k : Counterpart} {v : Value α} (h : k.Admits v) : v.isList = false := by
  cases k <;> cases v <;> first | rfl | exact h.elim

theorem Admits.graph?_isSome {k : Counterpart} {v : Value α} (h : k.Admits v) :
    v.graph?.isSome = (k == .handle) := by
  cases k <;> cases v <;> first | rfl | exact h.elim

end Counterpart

/-- Which handles stand for which values. -/
abbrev Correspondence (α : Type) : Type := Handle → Value α → Prop

/-! ## Values -/

/-- Two values of one form: where the left one has a handle, the right one has its counterpart. -/
inductive Value.Agrees {α : Type} (k : Counterpart) (R : Correspondence α) :
    Value α → Value α → Prop where
  | handle {h : Handle} {w : Value α} : k.Admits w → R h w → Agrees k R (.handle h) w
  | number (x : α) : Agrees k R (.number x) (.number x)
  | integer (n : Int) : Agrees k R (.integer n) (.integer n)
  | text (s : String) : Agrees k R (.text s) (.text s)
  | truth (b : Bool) : Agrees k R (.truth b) (.truth b)
  | absent : Agrees k R .absent .absent
  | varying (i : Int) : Agrees k R (.varying i) (.varying i)
  | list {vs ws : List (Value α)} :
      List.Forall₂ (Value.Agrees k R) vs ws → Agrees k R (.list vs) (.list ws)

/-- Values that agree one by one. -/
abbrev Value.AgreeAll {α : Type} (k : Counterpart) (R : Correspondence α) :
    List (Value α) → List (Value α) → Prop :=
  List.Forall₂ (Value.Agrees k R)

namespace Value

variable {α : Type} {k : Counterpart} {R S : Correspondence α}

mutual

/-- Whether no handle occurs in a value. -/
def isPlain : Value α → Bool
  | handle _ => false
  | list vs => arePlain vs
  | _ => true

/-- Whether no handle occurs in several values. -/
def arePlain : List (Value α) → Bool
  | [] => true
  | v :: vs => isPlain v && arePlain vs

end

mutual

/-- More handles that stand for something do not disturb an agreement. -/
theorem Agrees.mono (le : R ≤ S) : ∀ {v w : Value α}, Agrees k R v w → Agrees k S v w
  | .handle _, _, .handle admits h => .handle admits (le _ _ h)
  | .number _, _, .number x => .number x
  | .integer _, _, .integer n => .integer n
  | .text _, _, .text s => .text s
  | .truth _, _, .truth b => .truth b
  | .absent, _, .absent => .absent
  | .varying _, _, .varying i => .varying i
  | .list _, _, .list hs => .list (AgreeAll.mono le hs)

theorem AgreeAll.mono (le : R ≤ S) : ∀ {vs ws : List (Value α)}, AgreeAll k R vs ws →
    AgreeAll k S vs ws
  | [], _, .nil => .nil
  | _ :: _, _, .cons h hs => .cons (Agrees.mono le h) (AgreeAll.mono le hs)

end

mutual

/-- A value without handles agrees with itself. -/
theorem Agrees.of_isPlain : ∀ {v : Value α}, v.isPlain = true → Agrees k R v v
  | .number x, _ => .number x
  | .integer n, _ => .integer n
  | .text s, _ => .text s
  | .truth b, _ => .truth b
  | .absent, _ => .absent
  | .varying i, _ => .varying i
  | .list _, h => .list (AgreeAll.of_arePlain h)

theorem AgreeAll.of_arePlain : ∀ {vs : List (Value α)}, arePlain vs = true → AgreeAll k R vs vs
  | [], _ => .nil
  | _ :: _, h =>
    have ⟨hv, hvs⟩ := Bool.and_eq_true_iff.mp h
    .cons (Agrees.of_isPlain hv) (AgreeAll.of_arePlain hvs)

end

theorem Agrees.isList {v w : Value α} (h : Agrees k R v w) : v.isList = w.isList := by
  cases h with
  | handle admits => exact admits.isList.symm
  | _ => rfl

end Value

/-- Two results: both values, which are related, or one fault. -/
inductive OutcomesAgree {β γ : Type} (rel : β → γ → Prop) :
    Except Fault β → Except Fault γ → Prop where
  | ok {b : β} {c : γ} : rel b c → OutcomesAgree rel (.ok b) (.ok c)
  | error (e : Fault) : OutcomesAgree rel (.error e) (.error e)

namespace Value

variable {α : Type} {k : Counterpart} {R : Correspondence α} {v w : Value α}

theorem Agrees.items (h : Agrees k R v w) :
    OutcomesAgree (AgreeAll k R) v.items w.items := by
  cases h with
  | handle admits => rw [admits.items]; exact .error _
  | text s =>
    refine .ok ?_
    induction s.toList with
    | nil => exact .nil
    | cons c cs ih => exact .cons (.text _) ih
  | list hs => exact .ok hs
  | _ => exact .error _

theorem AgreeAll.getElem? {vs ws : List (Value α)} (hs : AgreeAll k R vs ws) (i : Nat) :
    (∃ v w, vs[i]? = some v ∧ ws[i]? = some w ∧ Agrees k R v w) ∨
      (vs[i]? = none ∧ ws[i]? = none) := by
  induction hs generalizing i with
  | nil => exact .inr ⟨rfl, rfl⟩
  | cons h hs ih =>
    cases i with
    | zero => exact .inl ⟨_, _, rfl, rfl, h⟩
    | succ i => simpa using ih i

/-- Elements at one position agree. -/
theorem Agrees.item (h : Agrees k R v w) (position : Int) :
    OutcomesAgree (Agrees k R) (v.item position) (w.item position) := by
  have hitems := h.items
  have hlist := h.isList
  unfold Value.item
  generalize v.items = vs at hitems
  generalize w.items = ws at hitems
  cases hitems with
  | error e => exact .error e
  | ok hs =>
    simp only [hlist, hs.length_eq, bind, Except.bind]
    generalize (if position < 0 then position + _ else position) = i
    split
    · exact .error _
    · rcases AgreeAll.getElem? hs i.toNat with ⟨x, y, hx, hy, hxy⟩ | ⟨hx, hy⟩
      · simp only [hx, hy]; exact .ok hxy
      · simp only [hx, hy]; exact .error _

end Value

/-! ## Formulas -/

/-- The number of operands is one that the operation takes. -/
def Op.Takes (op : Op) (count : Nat) : Prop :=
  match op.arity? with
  | some n => count = n
  | none => 2 ≤ count

/-- Formulas that ask for the same operations on values that agree, and, for as long as the results
agree, go on alike to ends that are related. -/
inductive Formula.Agrees {α β γ : Type} (k : Counterpart) (rel : Correspondence α → β → γ → Prop) :
    Correspondence α → Formula α β → Formula α γ → Prop where
  | done {R : Correspondence α} {b : β} {c : γ} : rel R b c → Agrees k rel R (.done b) (.done c)
  | fault {R : Correspondence α} (e : Fault) : Agrees k rel R (.fault e) (.fault e)
  | operate {R : Correspondence α} {op : Op} {vs ws : List (Value α)}
      {next : Value α → Formula α β} {next' : Value α → Formula α γ} :
      op.Takes vs.length → Value.AgreeAll k R vs ws →
      (∀ S v w, R ≤ S → v.Agrees k S w → Agrees k rel S (next v) (next' w)) →
      Agrees k rel R (.operate op vs next) (.operate op ws next')

namespace Formula

variable {α β γ β' γ' : Type} {k : Counterpart} {R : Correspondence α}
  {rel : Correspondence α → β → γ → Prop} {rel' : Correspondence α → β' → γ' → Prop}

theorem Agrees.bind {m : Formula α β} {n : Formula α γ} {f : β → Formula α β'}
    {g : γ → Formula α γ'} (h : Agrees k rel R m n)
    (next : ∀ S b c, R ≤ S → rel S b c → Agrees k rel' S (f b) (g c)) :
    Agrees k rel' R (m >>= f) (n >>= g) := by
  change Agrees k rel' R (m.bind f) (n.bind g)
  induction h with
  | done h => exact next _ _ _ le_rfl h
  | fault e => exact .fault e
  | operate takes operands _ ih =>
    exact .operate takes operands fun S v w le hvw =>
      ih S v w le hvw fun T b c le' => next T b c (le.trans le')

theorem Agrees.ofExcept {m : Except Fault β} {n : Except Fault γ} (h : OutcomesAgree (rel R) m n) :
    Agrees k rel R (ofExcept m) (ofExcept n) := by
  cases h with
  | ok h => exact .done h
  | error e => exact .fault e

theorem Agrees.apply {op : Op} {vs ws : List (Value α)} (takes : op.Takes vs.length)
    (operands : Value.AgreeAll k R vs ws) :
    Agrees k (Value.Agrees k) R (apply op vs) (apply op ws) :=
  .operate takes operands fun _ _ _ _ h => .done h

/-- A function read from left to right over things that stay related. -/
theorem Agrees.mapM {δ δ' : Type} (item : Correspondence α → δ → δ' → Prop)
    (mono : ∀ {S T a b}, S ≤ T → item S a b → item T a b) {f : δ → Formula α β}
    {g : δ' → Formula α γ} {xs : List δ} {ys : List δ'} (hs : List.Forall₂ (item R) xs ys)
    (step : ∀ S a b, R ≤ S → item S a b → Agrees k rel S (f a) (g b))
    (relMono : ∀ {S T b c}, S ≤ T → rel S b c → rel T b c) :
    Agrees k (fun S => List.Forall₂ (rel S)) R (xs.mapM f) (ys.mapM g) := by
  induction xs generalizing ys R with
  | nil => cases hs; exact .done .nil
  | cons x xs ih =>
    cases hs with
    | cons h hs =>
      rw [List.mapM_cons, List.mapM_cons]
      refine (step R _ _ le_rfl h).bind ?_
      intro S b c le hbc
      have hs' := hs.imp fun _ _ => mono le
      refine (ih hs' fun T a b le' => step T a b (le.trans le')).bind ?_
      intro T bs cs le' hbcs
      exact .done (.cons (relMono le' hbc) hbcs)

end Formula

end DiagramLayout
