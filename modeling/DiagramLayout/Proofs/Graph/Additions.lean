import DiagramLayout.Energy.Compile
import DiagramLayout.Proofs.Energy.Recorded

/-!
# What recordings leave as it is

A recording only ever adds nodes, and inputs only where arguments are bound, so a property of graphs
that new nodes keep is kept by all recordings, whatever the functions of the terms are and whether
the recording ends or fails.
-/

namespace DiagramLayout

variable {α β γ : Type} {inputs : Nat → Prop} {I : Graph α → Prop}

/-- Every new node keeps a property of graphs, if an input is a certain one. -/
def Graph.Persists (inputs : Nat → Prop) (I : Graph α → Prop) : Prop :=
  ∀ g node, I g → (∀ i, node = .input i → inputs i) → I (g.push node).2

/-- A recording keeps a property of graphs, whether it ends or fails. -/
def Recording.Preserves (I : Graph α → Prop) (r : Recording α β) : Prop :=
  ∀ g : Graph α, I g → I (r.on g).2

/-- After a recording that ends the graph has a property. -/
def Recording.Ensures (I : Graph α → Prop) (r : Recording α β) : Prop :=
  ∀ g b g', r.on g = (.ok b, g') → I g'

namespace Graph

theorem persists_number (inputs : Nat → Prop) (n : Nat) :
    Persists inputs fun g : Graph α => g.number = n :=
  fun _ _ h _ => h

theorem persists_mem (inputs : Nat → Prop) (node : Node α) :
    Persists inputs fun g : Graph α => node ∈ g.nodes :=
  fun _ _ h _ => List.mem_cons_of_mem _ h

end Graph

/-! ## Rules -/

namespace Recording

theorem on_bind_eq_ok {r : Recording α β} {f : β → Recording α γ} {g g' : Graph α} {c : γ}
    (h : (r >>= f).on g = (.ok c, g')) :
    ∃ b g₁, r.on g = (.ok b, g₁) ∧ (f b).on g₁ = (.ok c, g') := by
  rw [on_bind] at h
  rcases hr : r.on g with ⟨outcome, g₁⟩
  rw [hr] at h
  cases outcome with
  | ok b => exact ⟨b, g₁, rfl, h⟩
  | error e => cases h

namespace Preserves

theorem pure (b : β) : Preserves I (Pure.pure b : Recording α β) := fun _ h => h

theorem throw (e : Fault) : Preserves I (MonadExcept.throw e : Recording α β) := fun _ h => h

theorem ofExcept (r : Except Fault β) : Preserves I (Recording.ofExcept r : Recording α β) :=
  fun _ h => h

theorem bind {r : Recording α β} {f : β → Recording α γ} (h : Preserves I r)
    (next : ∀ b, Preserves I (f b)) : Preserves I (r >>= f) := by
  intro g hg
  have hr := h g hg
  rw [on_bind]
  rcases hon : r.on g with ⟨outcome, g'⟩
  rw [hon] at hr
  cases outcome with
  | ok b => exact next b g' hr
  | error e => exact hr

theorem mapM {f : β → Recording α γ} {bs : List β} (h : ∀ b ∈ bs, Preserves I (f b)) :
    Preserves I (bs.mapM f) := by
  induction bs with
  | nil => exact .pure []
  | cons b bs ih =>
    obtain ⟨hb, hbs⟩ := List.forall_mem_cons.mp h
    rw [List.mapM_cons]
    exact .bind hb fun c => .bind (ih hbs) fun cs => .pure _

theorem building {r : Recording α β} (h : r.Preserves I) (term : String) :
    (r.building term).Preserves I := by
  intro g hg
  have hr := h g hg
  obtain ⟨e, hon⟩ := Recording.on_building term r g
  rcases hrg : r.on g with ⟨outcome, g'⟩
  rw [hrg] at hon hr
  rw [hon]
  cases outcome <;> exact hr

theorem node {r : Recording α (Value α)} (h : r.Preserves I) : (Recording.node r).Preserves I := by
  refine .bind h fun v => ?_
  split
  · exact .pure _
  · exact .throw _

/-- What held before a recording that ended holds after it. -/
theorem of_on {r : Recording α β} (h : r.Preserves I) {g g' : Graph α} {outcome : Except Fault β}
    (hon : r.on g = (outcome, g')) (hg : I g) : I g' := by
  have := h g hg
  rwa [hon] at this

end Preserves

namespace Ensures

theorem of_first {r : Recording α β} {f : β → Recording α γ} (h : Ensures I r)
    (next : ∀ b, Preserves I (f b)) : Ensures I (r >>= f) := by
  intro g c g' hon
  obtain ⟨b, g₁, hr, hf⟩ := on_bind_eq_ok hon
  exact (next b).of_on hf (h g b g₁ hr)

theorem of_next {r : Recording α β} {f : β → Recording α γ} (h : ∀ b, Ensures I (f b)) :
    Ensures I (r >>= f) := by
  intro g c g' hon
  obtain ⟨b, g₁, _, hf⟩ := on_bind_eq_ok hon
  exact h b g₁ c g' hf

theorem mapM {f : β → Recording α γ} {bs : List β} {b : β} (hb : b ∈ bs) (h : Ensures I (f b))
    (stays : ∀ c ∈ bs, Preserves I (f c)) : Ensures I (bs.mapM f) := by
  induction bs with
  | nil => cases hb
  | cons c bs ih =>
    obtain ⟨_, hbs⟩ := List.forall_mem_cons.mp stays
    rw [List.mapM_cons]
    rcases List.mem_cons.mp hb with rfl | hb
    · exact .of_first h fun _ => .bind (.mapM hbs) fun _ => .pure _
    · exact .of_next fun _ => .of_first (ih hb hbs) fun _ => .pure _

end Ensures

end Recording

/-! ## Nodes -/

namespace Graph

theorem record_preserves (persists : Persists inputs I) {node : Node α} (h : node.input? = none) :
    (record node).Preserves I := by
  intro g hg
  rw [on_record]
  refine persists g node hg fun i hi => ?_
  rw [hi] at h
  cases h

theorem own_preserves (h : Handle) : (own h : Recording α Handle).Preserves I := by
  intro g hg
  rw [on_own]
  split <;> exact hg

theorem recordInput_preserves (persists : Persists inputs I) {index : Int}
    (allowed : 0 ≤ index → inputs index.toNat) :
    (recordInput index : Recording α (Value α)).Preserves I := by
  intro g hg
  rw [on_recordInput]
  split
  · exact hg
  · next hindex =>
    rcases g.input_cases index.toNat with ⟨_, _, hinput⟩ | ⟨_, hinput⟩
    · simpa only [hinput] using hg
    · simp only [hinput]
      refine persists g _ hg fun i hi => ?_
      cases hi
      exact allowed (by omega)

variable [Scalar α]

theorem recordConst_preserves (persists : Persists inputs I) (v : Value α) :
    (recordConst v).Preserves I :=
  .bind (.ofExcept _) fun _ => .bind (record_preserves persists rfl) fun _ => .pure _

theorem recordSlot_preserves (persists : Persists inputs I) (name : String) (default : Value α) :
    (recordSlot name default).Preserves I := by
  intro g hg
  rw [on_recordSlot]
  split
  · exact hg
  · split
    · next x _ =>
      rcases g.slot_cases name x with ⟨_, _, _, hslot⟩ | ⟨_, hslot⟩
      · simpa only [hslot] using hg
      · simp only [hslot]
        exact persists g _ hg fun i hi => nomatch hi
    · exact hg

mutual

theorem lift_preserves (persists : Persists inputs I) : ∀ v : Value α, (lift v).Preserves I
  | .handle h => .bind (own_preserves h) fun _ => .pure _
  | .list vs => .bind (liftAll_preserves persists vs) fun _ => .pure _
  | .number _ => .bind (record_preserves persists rfl) fun _ => .pure _
  | .integer _ | .truth _ => recordConst_preserves persists _
  | .text _ | .absent | .varying _ => .throw _

theorem liftAll_preserves (persists : Persists inputs I) :
    ∀ vs : List (Value α), (liftAll vs).Preserves I
  | [] => .pure []
  | v :: vs =>
    .bind (lift_preserves persists v) fun _ => .bind (liftAll_preserves persists vs) fun _ => .pure _

end

theorem operate_preserves (persists : Persists inputs I) (op : Op) (operands : List (Value α)) :
    (operate op operands).Preserves I := by
  unfold operate
  split
  · exact .bind (liftAll_preserves persists operands) fun _ => .bind (.ofExcept _) fun _ =>
      .bind (record_preserves persists rfl) fun _ => .pure _
  · exact .ofExcept _

mutual

/-- Binding an argument adds the inputs that it refers to. -/
theorem bindArgument_preserves (persists : Persists inputs I) : ∀ {v : Value α},
    (∀ i ∈ v.indices, 0 ≤ i → inputs i.toNat) → (bindArgument v).Preserves I
  | .varying i, allowed => recordInput_preserves persists (allowed i (by simp [Value.indices]))
  | .list _, allowed => .bind (bindArguments_preserves persists allowed) fun _ => .pure _
  | .truth _, _ | .text _, _ | .absent, _ => .throw _
  | .number _, _ | .integer _, _ | .handle _, _ => lift_preserves persists _

theorem bindArguments_preserves (persists : Persists inputs I) : ∀ {vs : List (Value α)},
    (∀ i ∈ Value.indicesOfAll vs, 0 ≤ i → inputs i.toNat) → (bindArguments vs).Preserves I
  | [], _ => .pure []
  | v :: vs, allowed => by
    simp only [Value.indicesOfAll, List.mem_append] at allowed
    exact .bind (bindArgument_preserves persists fun i hi => allowed i (.inl hi)) fun _ =>
      .bind (bindArguments_preserves persists fun i hi => allowed i (.inr hi)) fun _ => .pure _

end

end Graph

/-! ## Terms and energies -/

variable [Scalar α] (persists : Graph.Persists inputs I)
include persists

/-- Whatever a formula computes, it adds no inputs. -/
theorem Formula.record_preserves (m : Formula α β) : m.record.Preserves I := by
  induction m with
  | done b => exact .pure b
  | fault e => exact .throw e
  | operate op operands next ih => exact .bind (Graph.operate_preserves persists op operands) ih

/-- What a term does with its arguments adds no inputs. -/
theorem ResolvedTerm.applied_preserves (t : ResolvedTerm α) (arguments : List (Value α)) :
    Recording.Preserves I (do
      let result ← Recording.building t.term.text (t.function.call arguments).record
      if result.isList then throw (.notScalar t.term.text) else Graph.lift result) := by
  refine .bind ((Formula.record_preserves persists _).building _) fun result => ?_
  split
  · exact .throw _
  · exact Graph.lift_preserves persists _

/-- A term adds the inputs that it refers to. -/
theorem ResolvedTerm.record_preserves {t : ResolvedTerm α}
    (allowed : ∀ i ∈ t.term.indices, 0 ≤ i → inputs i.toNat) : t.record.Preserves I := by
  rw [record_eq]
  exact .bind (Graph.bindArguments_preserves persists allowed) (t.applied_preserves persists)

/-- The penalty of a constraint adds no more inputs than the constraint. -/
theorem ResolvedTerm.penalized_preserves {t : ResolvedTerm α} (penalty : TermFunction α)
    (allowed : ∀ i ∈ t.term.indices, 0 ≤ i → inputs i.toNat) :
    Recording.Preserves I (do (penalty.call [← t.record]).record) :=
  .bind (record_preserves persists allowed) fun _ => Formula.record_preserves persists _

omit persists in
/-- Neither a term nor its penalty changes the number of the graph. -/
theorem ResolvedTerm.number_stays (t : ResolvedTerm α) (penalty : TermFunction α) (n : Nat) :
    t.record.Preserves (·.number = n) ∧
      Recording.Preserves (·.number = n) (do (penalty.call [← t.record]).record) := by
  have persists := Graph.persists_number (α := α) (fun _ => True) n
  exact ⟨t.record_preserves persists fun _ _ _ => trivial,
    t.penalized_preserves persists penalty fun _ _ _ => trivial⟩

theorem Energy.combine_preserves (scale : α) (objectives penalties : List (Value α)) :
    (combine scale objectives penalties).Preserves I :=
  .bind (Graph.record_preserves persists rfl) fun _ =>
    .bind (Graph.recordSlot_preserves persists _ _) fun _ =>
      .bind (Formula.record_preserves persists _) fun _ =>
        .bind (Formula.record_preserves persists _) fun _ =>
          .bind (Graph.operate_preserves persists _ _) fun _ =>
            .bind (Graph.operate_preserves persists _ _) fun _ =>
              .bind (Graph.operate_preserves persists _ _) fun _ => Graph.lift_preserves persists _

theorem Energy.build_preserves {objectives constraints : List (ResolvedTerm α)} (scale : α)
    (penalty : TermFunction α)
    (allowed : ∀ t ∈ objectives ++ constraints, ∀ i ∈ t.term.indices, 0 ≤ i → inputs i.toNat) :
    (build objectives constraints scale penalty).Preserves I := by
  obtain ⟨hobjectives, hconstraints⟩ := List.forall_mem_append.mp allowed
  exact .bind (.mapM fun t ht => ResolvedTerm.record_preserves persists (hobjectives t ht)) fun _ =>
    .bind (.mapM fun t ht =>
      ResolvedTerm.penalized_preserves persists penalty (hconstraints t ht)) fun _ =>
      (combine_preserves persists _ _ _).node

end DiagramLayout
