import DiagramLayout.Catalog
import DiagramLayout.Proofs.Formula.Agreement

/-!
# Functions that treat handles alike

The functions of vectors, the powers and the catalog map arguments that agree to formulas that
agree. A power is defined on handles only, so it agrees only where handles stand for handles.
-/

namespace DiagramLayout

variable {α : Type} {k : Counterpart} {R : Correspondence α}

open Formula Value

/-! ## Vectors -/

namespace Formula

/-- Formulas of values agree. -/
abbrev ValueAgrees (k : Counterpart) (R : Correspondence α) :
    Formula α (Value α) → Formula α (Value α) → Prop :=
  Formula.Agrees k (Value.Agrees k) R

theorem apply_one_agrees (op : Op) (hop : op.arity? = some 1) {v v' : Value α}
    (hv : Value.Agrees k R v v') : ValueAgrees k R (apply op [v]) (apply op [v']) :=
  .apply (by simp [Op.Takes, hop]) (.cons hv .nil)

theorem apply_two_agrees (op : Op) (hop : op.arity? = some 2) {u u' v v' : Value α}
    (hu : Value.Agrees k R u u') (hv : Value.Agrees k R v v') :
    ValueAgrees k R (apply op [u, v]) (apply op [u', v']) :=
  .apply (by simp [Op.Takes, hop]) (.cons hu (.cons hv .nil))

theorem itemsOf_agrees {v w : Value α} (h : Value.Agrees k R v w) :
    Formula.Agrees k (AgreeAll k) R (itemsOf v) (itemsOf w) :=
  .ofExcept h.items

/-- Two pairs of values agree one by one. -/
abbrev PairAgrees (k : Counterpart) (R : Correspondence α) (p q : Value α × Value α) : Prop :=
  Value.Agrees k R p.1 q.1 ∧ Value.Agrees k R p.2 q.2

theorem zip_agrees {us us' vs vs' : List (Value α)} (hus : AgreeAll k R us us')
    (hvs : AgreeAll k R vs vs') : List.Forall₂ (PairAgrees k R) (us.zip vs) (us'.zip vs') := by
  induction hus generalizing vs vs' with
  | nil => exact .nil
  | cons h hs ih =>
    cases hvs with
    | nil => exact .nil
    | cons h' hs' => exact .cons ⟨h, h'⟩ (ih hs')

theorem pairsOf_agrees {u u' v v' : Value α} (hu : Value.Agrees k R u u')
    (hv : Value.Agrees k R v v') :
    Formula.Agrees k (fun S => List.Forall₂ (PairAgrees k S)) R (pairsOf u v) (pairsOf u' v') := by
  refine (itemsOf_agrees hu).bind ?_
  intro S us us' le hus
  refine (itemsOf_agrees (hv.mono le)).bind ?_
  intro T vs vs' le' hvs
  have hus' := hus.mono le'
  have hdemand : Formula.Agrees (α := α) k (fun _ (_ _ : Unit) => True) T
      (demand (us.length == vs.length) .vectorLengths)
      (demand (us'.length == vs'.length) .vectorLengths) := by
    rw [hus'.length_eq, hvs.length_eq]
    unfold demand require
    split
    · exact .done trivial
    · exact .fault _
  exact hdemand.bind fun U _ _ le'' _ =>
    .done (zip_agrees (hus'.mono le'') (hvs.mono le''))

/-- One operation on each entry of a vector. -/
theorem mapM_apply_agrees (op : Op) {δ : Type} (item : Correspondence α → δ → δ → Prop)
    (mono : ∀ {S T a b}, S ≤ T → item S a b → item T a b) {f g : δ → List (Value α)}
    (takes : ∀ a, op.Takes (f a).length) {xs ys : List δ} (hs : List.Forall₂ (item R) xs ys)
    (operands : ∀ S a b, R ≤ S → item S a b → AgreeAll k S (f a) (g b)) :
    Formula.Agrees k (AgreeAll k) R (xs.mapM fun a => apply op (f a))
      (ys.mapM fun b => apply op (g b)) :=
  .mapM item mono hs (fun S a b le hab => .apply (takes a) (operands S a b le hab))
    fun le h => h.mono le

theorem zipped_agrees (op : Op) (hop : op.arity? = some 2) {u u' v v' : Value α}
    (hu : Value.Agrees k R u u') (hv : Value.Agrees k R v v') :
    Formula.Agrees k (AgreeAll k) R
      (pairsOf u v >>= fun pairs => pairs.mapM fun (a, b) => apply op [a, b])
      (pairsOf u' v' >>= fun pairs => pairs.mapM fun (a, b) => apply op [a, b]) :=
  (pairsOf_agrees hu hv).bind fun _ _ _ _ hs =>
    mapM_apply_agrees op (PairAgrees k) (fun le h => ⟨h.1.mono le, h.2.mono le⟩)
      (by simp [Op.Takes, hop]) hs fun _ _ _ _ h => .cons h.1 (.cons h.2 .nil)

theorem addVectors_agrees {u u' v v' : Value α} (hu : Value.Agrees k R u u')
    (hv : Value.Agrees k R v v') : ValueAgrees k R (addVectors u v) (addVectors u' v') := by
  simp only [addVectors, ← bind_assoc]
  exact (zipped_agrees .add rfl hu hv).bind fun _ _ _ _ hs => .done (.list hs)

theorem subVectors_agrees {u u' v v' : Value α} (hu : Value.Agrees k R u u')
    (hv : Value.Agrees k R v v') : ValueAgrees k R (subVectors u v) (subVectors u' v') := by
  simp only [subVectors, ← bind_assoc]
  exact (zipped_agrees .sub rfl hu hv).bind fun _ _ _ _ hs => .done (.list hs)

/-- One operation on each entry of a vector, beside other operands that stay the same. -/
theorem entrywise_agrees (op : Op) (f g : Value α → List (Value α))
    (takes : ∀ a, op.Takes (f a).length) {vs ws : List (Value α)} (hs : AgreeAll k R vs ws)
    (operands : ∀ S a b, R ≤ S → Value.Agrees k S a b → AgreeAll k S (f a) (g b)) :
    Formula.Agrees k (AgreeAll k) R (vs.mapM fun a => apply op (f a))
      (ws.mapM fun b => apply op (g b)) :=
  mapM_apply_agrees op (Value.Agrees k) (fun le h => h.mono le) takes hs operands

theorem scaleVector_agrees {c c' v v' : Value α} (hc : Value.Agrees k R c c')
    (hv : Value.Agrees k R v v') : ValueAgrees k R (scaleVector c v) (scaleVector c' v') := by
  refine (itemsOf_agrees hv).bind ?_
  intro S vs vs' le hvs
  have hentries := entrywise_agrees .mul (fun a => [c, a]) (fun a => [c', a]) (fun _ => rfl) hvs
    fun T a b le' h => .cons ((hc.mono le).mono le') (.cons h .nil)
  exact hentries.bind fun _ _ _ _ hs => .done (.list hs)

theorem quarterTurn_agrees {v v' : Value α} (hv : Value.Agrees k R v v') :
    ValueAgrees k R (quarterTurn v) (quarterTurn v') := by
  refine (itemsOf_agrees hv).bind ?_
  intro S vs vs' le hvs
  rcases hvs with _ | ⟨ha, _ | ⟨hb, _ | _⟩⟩
  · exact .fault _
  · exact .fault _
  · have hneg : ValueAgrees k S (apply .neg [_]) (apply .neg [_]) := .apply rfl (.cons hb .nil)
    exact hneg.bind fun T _ _ le' h => .done (.list (.cons h (.cons (ha.mono le') .nil)))
  · exact .fault _

theorem repeatedProduct_agrees {v v' : Value α} (hv : Value.Agrees k R v v') (n : Nat) :
    ValueAgrees k R (repeatedProduct v n) (repeatedProduct v' n) := by
  induction n with
  | zero => exact .done hv
  | succ n ih =>
    exact ih.bind fun S _ _ le h => .apply rfl (.cons h (.cons (hv.mono le) .nil))

variable [Scalar α]

theorem total_agrees {vs ws : List (Value α)} (hs : AgreeAll k R vs ws) :
    ValueAgrees k R (total vs) (total ws) := by
  cases hs with
  | nil => exact .done (.number _)
  | cons h hs =>
    cases hs with
    | nil => exact .done h
    | cons h' hs => exact .apply (by simp [Op.Takes, Op.arity?]) (.cons h (.cons h' hs))

theorem vectorSum_agrees {v w : Value α} (h : Value.Agrees k R v w) :
    ValueAgrees k R (vectorSum v) (vectorSum w) :=
  (itemsOf_agrees h).bind fun _ _ _ _ hs => total_agrees hs

theorem dotProduct_agrees {u u' v v' : Value α} (hu : Value.Agrees k R u u')
    (hv : Value.Agrees k R v v') : ValueAgrees k R (dotProduct u v) (dotProduct u' v') := by
  simp only [dotProduct, ← bind_assoc]
  exact (zipped_agrees .mul rfl hu hv).bind fun _ _ _ _ hs => total_agrees hs

theorem normSquared_agrees {v v' : Value α} (hv : Value.Agrees k R v v') :
    ValueAgrees k R (normSquared v) (normSquared v') :=
  (itemsOf_agrees hv).bind fun _ _ _ _ hvs =>
    (entrywise_agrees .square (fun a => [a]) (fun a => [a]) (fun _ => rfl) hvs
      fun _ _ _ _ h => .cons h .nil).bind fun _ _ _ _ hs => total_agrees hs

theorem norm_agrees {v v' : Value α} (hv : Value.Agrees k R v v') :
    ValueAgrees k R (norm v) (norm v') :=
  (normSquared_agrees hv).bind fun _ _ _ _ h => .apply rfl (.cons h .nil)

theorem distance_agrees {u u' v v' : Value α} (hu : Value.Agrees k R u u')
    (hv : Value.Agrees k R v v') : ValueAgrees k R (distance u v) (distance u' v') :=
  (subVectors_agrees hu hv).bind fun _ _ _ _ h => norm_agrees h

theorem normalize_agrees {v v' : Value α} (hv : Value.Agrees k R v v') :
    ValueAgrees k R (normalize v) (normalize v') := by
  refine (norm_agrees hv).bind ?_
  intro S n n' le hn
  have hlength : ValueAgrees k S (apply .add [n, .number Op.floor])
      (apply .add [n', .number Op.floor]) := .apply rfl (.cons hn (.cons (.number _) .nil))
  refine hlength.bind ?_
  intro T n n' le' hn
  refine (itemsOf_agrees ((hv.mono le).mono le')).bind ?_
  intro U vs vs' le'' hvs
  have hentries := entrywise_agrees .div (fun a => [a, n]) (fun a => [a, n']) (fun _ => rfl) hvs
    fun V a b le''' h => .cons h (.cons ((hn.mono le'').mono le''') .nil)
  exact hentries.bind fun _ _ _ _ hs => .done (.list hs)

/-! ## Powers -/

/-- Where handles stand for handles, a power is read the same way on both sides. -/
theorem power_agrees {b b' e e' : Value α} (hb : Value.Agrees .handle R b b')
    (he : Value.Agrees .handle R e e') : ValueAgrees .handle R (power b e) (power b' e') := by
  have hside : b.graph?.isNone = b'.graph?.isNone := by
    cases hb with
    | handle admits => simpa [Value.graph?] using admits.graph?_isSome.symm
    | _ => rfl
  have hunary {op : Op} (hop : op.arity? = some 1) : ValueAgrees .handle R (apply op [b])
      (apply op [b']) := .apply (by simp [Op.Takes, hop]) (.cons hb .nil)
  unfold power
  rw [hside]
  split
  · exact .fault _
  · cases he with
    | handle admits => cases e' <;> first | exact admits.elim | exact .fault _
    | number x =>
      simp only
      split
      · exact hunary rfl
      · split
        · exact hunary rfl
        · exact .fault _
    | integer n =>
      simp only
      split
      · exact hunary rfl
      · split
        · exact repeatedProduct_agrees hb _
        · exact .fault _
    | truth t =>
      cases t with
      | false => exact .fault _
      | true => exact .done hb
    | _ => exact .fault _

end Formula

/-! ## Functions with parameters -/

/-- Whether no handle occurs in a parameter's default. -/
def Parameter.hasPlainDefault (q : Parameter α) : Bool := q.default.all Value.isPlain

theorem Parameter.arePlain_defaults {parameters : List (Parameter α)} {values : List (Value α)}
    (plain : parameters.all hasPlainDefault = true) (h : defaults parameters = .ok values) :
    arePlain values = true := by
  induction parameters generalizing values with
  | nil => cases h; rfl
  | cons q qs ih =>
    obtain ⟨hq, hqs⟩ : q.hasPlainDefault = true ∧ qs.all hasPlainDefault = true := by
      simpa using plain
    unfold defaults at h
    cases hv : q.default with
    | none => simp [hv] at h
    | some v =>
      simp only [hv] at h
      cases hrest : defaults qs with
      | error e => simp [hrest, Except.map] at h
      | ok rest =>
        simp only [hrest, Except.map, Except.ok.injEq] at h
        subst h
        exact Bool.and_eq_true_iff.mpr ⟨by simpa [hasPlainDefault, hv] using hq, ih hqs hrest⟩

/-- Arguments that agree fill the parameters alike; defaults stand for themselves. -/
theorem TermFunction.bind_agrees {parameters : List (Parameter α)}
    (plain : parameters.all Parameter.hasPlainDefault = true) {vs ws : List (Value α)}
    (hs : AgreeAll k R vs ws) :
    (∃ cause, bind parameters vs = .error cause ∧ bind parameters ws = .error cause) ∨
      ∃ vs' ws', bind parameters vs = .ok vs' ∧ bind parameters ws = .ok ws' ∧
        AgreeAll k R vs' ws' := by
  unfold bind
  rw [hs.length_eq]
  by_cases hmany : parameters.length < ws.length
  · exact .inl ⟨.tooMany, by simp [hmany]⟩
  · simp only [hmany, ↓reduceIte]
    cases hrest : Parameter.defaults (parameters.drop ws.length) with
    | error cause => exact .inl ⟨cause, rfl, rfl⟩
    | ok rest =>
      have hplain : arePlain rest = true := by
        refine Parameter.arePlain_defaults (List.all_eq_true.mpr fun q hq => ?_) hrest
        exact List.all_eq_true.mp plain q (List.mem_of_mem_drop hq)
      exact .inr ⟨_, _, rfl, rfl, List.rel_append hs (AgreeAll.of_arePlain hplain)⟩

theorem TermFunction.call_agrees_of_body {f : TermFunction α}
    (plain : f.parameters.all Parameter.hasPlainDefault = true)
    (body : ∀ {vs ws}, AgreeAll k R vs ws → ValueAgrees k R (f.body vs) (f.body ws))
    {vs ws : List (Value α)} (hs : AgreeAll k R vs ws) :
    ValueAgrees k R (f.call vs) (f.call ws) := by
  unfold call
  rcases bind_agrees plain hs with ⟨cause, h, h'⟩ | ⟨vs', ws', h, h', hfilled⟩
  · rw [h, h']; exact .fault _
  · rw [h, h']; exact body hfilled

/-! ## The catalog -/

variable [Scalar α]

theorem penalty_agrees {c c' : Value α} (h : Value.Agrees k R c c') :
    ValueAgrees k R (penalty c) (penalty c') := by
  have hmax : ValueAgrees k R (apply .max [c, .number 0.0]) (apply .max [c', .number 0.0]) :=
    .apply rfl (.cons h (.cons (.number _) .nil))
  exact hmax.bind fun _ _ _ _ h => .apply rfl (.cons h .nil)

theorem distanceSquared_agrees {u u' v v' : Value α} (hu : Value.Agrees k R u u')
    (hv : Value.Agrees k R v v') :
    ValueAgrees k R (subVectors u v >>= normSquared) (subVectors u' v' >>= normSquared) :=
  (subVectors_agrees hu hv).bind fun _ _ _ _ h => normSquared_agrees h

theorem Objective.call_agrees (o : Objective) {vs ws : List (Value α)}
    (hs : AgreeAll k R vs ws) : ValueAgrees k R (o.function.call vs) (o.function.call ws) := by
  refine TermFunction.call_agrees_of_body (by cases o <;> rfl) (fun {vs ws} hs => ?_) hs
  cases o with
  | equal =>
    rcases hs with _ | ⟨ha, _ | ⟨hb, _ | _⟩⟩
    case cons.cons.nil =>
      exact (apply_two_agrees .sub rfl ha hb).bind fun _ _ _ _ h => apply_one_agrees .square rfl h
    all_goals exact .fault _
  | minimal =>
    rcases hs with _ | ⟨hx, _ | _⟩
    case cons.nil => exact .done hx
    all_goals exact .fault _
  | maximal =>
    rcases hs with _ | ⟨hx, _ | _⟩
    case cons.nil => exact apply_one_agrees .neg rfl hx
    all_goals exact .fault _
  | near =>
    rcases hs with _ | ⟨hp, _ | ⟨hq, _ | ⟨ho, _ | _⟩⟩⟩
    case cons.cons.cons.nil =>
      exact (distanceSquared_agrees hp hq).bind fun _ _ _ le h =>
        apply_two_agrees .add rfl h (ho.mono le)
    all_goals exact .fault _
  | sameCenter =>
    rcases hs with _ | ⟨hp, _ | ⟨hq, _ | _⟩⟩
    case cons.cons.nil => exact distanceSquared_agrees hp hq
    all_goals exact .fault _
  | repel =>
    rcases hs with _ | ⟨hp, _ | ⟨hq, _ | ⟨hw, _ | _⟩⟩⟩
    case cons.cons.cons.nil =>
      refine (distanceSquared_agrees hp hq).bind ?_
      intro S d d' le hd
      exact (apply_two_agrees .add rfl hd (.number _)).bind fun T _ _ le' h =>
        apply_two_agrees .div rfl ((hw.mono le).mono le') h
    all_goals exact .fault _

theorem Constraint.call_agrees (c : Constraint) {vs ws : List (Value α)}
    (hs : AgreeAll k R vs ws) : ValueAgrees k R (c.function.call vs) (c.function.call ws) := by
  refine TermFunction.call_agrees_of_body (by cases c <;> rfl) (fun {vs ws} hs => ?_) hs
  cases c with
  | equal =>
    rcases hs with _ | ⟨ha, _ | ⟨hb, _ | _⟩⟩
    case cons.cons.nil =>
      exact (apply_two_agrees .sub rfl ha hb).bind fun _ _ _ _ h => apply_one_agrees .abs rfl h
    all_goals exact .fault _
  | lessThan =>
    rcases hs with _ | ⟨ha, _ | ⟨hb, _ | ⟨hp, _ | _⟩⟩⟩
    case cons.cons.cons.nil =>
      exact (apply_two_agrees .sub rfl ha hb).bind fun _ _ _ le h =>
        apply_two_agrees .add rfl h (hp.mono le)
    all_goals exact .fault _
  | greaterThan =>
    rcases hs with _ | ⟨ha, _ | ⟨hb, _ | ⟨hp, _ | _⟩⟩⟩
    case cons.cons.cons.nil =>
      exact (apply_two_agrees .sub rfl hb ha).bind fun _ _ _ le h =>
        apply_two_agrees .add rfl h (hp.mono le)
    all_goals exact .fault _
  | contains =>
    rcases hs with _ | ⟨hc, _ | ⟨hr, _ | ⟨hc', _ | ⟨hr', _ | ⟨hp, _ | _⟩⟩⟩⟩⟩
    case cons.cons.cons.cons.cons.nil =>
      refine (distance_agrees hc hc').bind ?_
      intro S d d' le hd
      refine (apply_two_agrees .add rfl hd (hr'.mono le)).bind ?_
      intro T e e' le' he
      refine (apply_two_agrees .sub rfl he ((hr.mono le).mono le')).bind ?_
      intro U _ _ le'' h
      exact apply_two_agrees .add rfl h (((hp.mono le).mono le').mono le'')
    all_goals exact .fault _
  | disjoint =>
    rcases hs with _ | ⟨hc, _ | ⟨hr, _ | ⟨hc', _ | ⟨hr', _ | ⟨hp, _ | _⟩⟩⟩⟩⟩
    case cons.cons.cons.cons.cons.nil =>
      refine (apply_two_agrees .add rfl hr hr').bind ?_
      intro S e e' le he
      refine (distance_agrees (hc.mono le) (hc'.mono le)).bind ?_
      intro T d d' le' hd
      refine (apply_two_agrees .sub rfl (he.mono le') hd).bind ?_
      intro U _ _ le'' h
      exact apply_two_agrees .add rfl h (((hp.mono le).mono le').mono le'')
    all_goals exact .fault _
  | atDist =>
    rcases hs with _ | ⟨hp, _ | ⟨hq, _ | ⟨hl, _ | _⟩⟩⟩
    case cons.cons.cons.nil =>
      refine (distance_agrees hp hq).bind ?_
      intro S d d' le hd
      exact (apply_two_agrees .sub rfl hd (hl.mono le)).bind fun _ _ _ _ h =>
        apply_one_agrees .abs rfl h
    all_goals exact .fault _

end DiagramLayout
