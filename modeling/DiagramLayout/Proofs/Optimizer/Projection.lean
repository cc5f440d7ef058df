import DiagramLayout.Proofs.Optimizer.Weight
import DiagramLayout.Proofs.Shapes.Scalars
import Mathlib.Data.List.Nodup

/-!
# The store of shapes during a run

A phase that moves the variables writes them to the store, and nothing else does. So the store of shapes
always has the values of the state, and everything that is no variable stays as it was.
-/

namespace DiagramLayout

open Shapes (Path Store)

variable {α : Type} [Scalar α]

namespace Optimizer

variable {o : Optimizer α} {s s₀ s' : State α} {store store₀ : Option (Store α)}
  {events : List (Event α)} {e : WeightedEnergy α} {start xs : List α} {m memory : Lbfgs.Memory α}

/-! ## Steps -/

/-- Only a phase moves the variables. -/
theorem Stepped.values_eq {budget : Nat} (h : Stepped o s budget s' events)
    (hnot : s.status ≠ .running) : s'.values = s.values ∧ s'.paths = s.paths := by
  cases h with
  | phase _ hrunning => exact absurd hrunning hnot
  | idle | started | converged | continued | failed => exact ⟨rfl, rfl⟩

/-- A step that is not reported yet leaves the variables and the store, or it has done a phase and has
written its end to the store. -/
theorem advance_store (o : Optimizer α) (s : State α) (store : Option (Store α)) (budget : Nat) :
    ((o.advance s store budget).2.2 = store ∧ ∀ s', (o.advance s store budget).1 = .ok (some s') →
      s'.values = s.values ∧ s'.paths = s.paths) ∨
    ∃ e further events d, Ended o s e s.values s.memory further events (.ok d) ∧
      o.advance s store budget =
        (Interruption.lift ((project (o.afterPhase s d) store).1.map fun () => some (o.afterPhase s d)),
          events, (project (o.afterPhase s d) store).2) := by
  by_cases hrunning : s.status = .running
  · cases hfinite : ensureFinite .values s.values with
    | error cause => exact .inl (by simp [advance, hfinite])
    | ok _ =>
      cases budget with
      | zero => exact .inl (by simp [advance, hfinite, hrunning, runPhase])
      | succ further =>
        cases he : s.objective with
        | none => exact .inl (by simp [advance, hfinite, hrunning, runPhase, he])
        | some e =>
          have hended := o.descend_ended s e further s.values s.memory
          rcases hdescend : o.descend s e further 0 s.values s.memory with ⟨events, ending⟩
          rw [hdescend] at hended
          cases ending with
          | error cause => exact .inl (by simp [advance, hfinite, hrunning, runPhase, he, hdescend])
          | ok d =>
            refine .inr ⟨e, further, events, d, hended, ?_⟩
            simp only [advance, hfinite, hrunning, runPhase, he, hdescend]
  · refine .inl ⟨?_, fun s' hs' => ?_⟩
    · unfold advance
      split
      · rfl
      · split
        · rfl
        · next h => exact absurd h hrunning
        · rfl
        · rfl
    · rcases hadvance : o.advance s store budget with ⟨outcome, events, store'⟩
      rw [hadvance] at hs'
      subst hs'
      obtain ⟨_, ⟨hnone, _⟩ | ⟨t, ht, hstepped⟩⟩ := advance_eq_ok hadvance
      · cases hnone
      · cases ht
        exact hstepped.values_eq hrunning

/-- A step leaves the variables and the store, or it has done a phase and has written its end to the
store. -/
theorem step_store (o : Optimizer α) (s : State α) (store : Option (Store α)) (budget : Int) :
    ((o.step s store budget).store = store ∧ ∀ next, (o.step s store budget).result = .ok next →
      (next.getD s).values = s.values ∧ (next.getD s).paths = s.paths) ∨
    ∃ e further events d, Ended o s e s.values s.memory further events (.ok d) ∧
      (o.step s store budget).store = (project (o.afterPhase s d) store).2 ∧
      ((project (o.afterPhase s d) store).1 = .ok () →
        (o.step s store budget).result = .ok (some (o.afterPhase s d))) := by
  unfold step
  split
  · exact .inl ⟨rfl, fun _ h => nomatch h⟩
  · split
    · exact .inl ⟨rfl, by rintro _ ⟨⟩; exact ⟨rfl, rfl⟩⟩
    · rcases o.advance_store s store budget.toNat with ⟨hstore, hvalues⟩ |
        ⟨e, further, events, d, hended, heq⟩
      · refine .inl ?_
        split
        · next heq =>
          rw [heq] at hstore
          exact ⟨hstore, by rintro _ ⟨⟩; exact ⟨rfl, rfl⟩⟩
        · next s' _ _ heq =>
          rw [heq] at hstore hvalues
          exact ⟨hstore, by rintro _ ⟨⟩; exact hvalues s' rfl⟩
        · next heq =>
          rw [heq] at hstore
          exact ⟨hstore, by rintro _ ⟨⟩; exact ⟨rfl, rfl⟩⟩
        · next heq =>
          rw [heq] at hstore
          exact ⟨hstore, fun _ h => nomatch h⟩
      · refine .inr ⟨e, further, events, d, hended, ?_⟩
        rw [heq]
        cases hproject : (project (o.afterPhase s d) store).1 with
        | ok _ => exact ⟨rfl, fun _ => rfl⟩
        | error cause => exact ⟨rfl, fun h => nomatch h⟩

/-! ## Stores that follow a state -/

/-- States with their stores that steps and runs lead to, each taking what the one before has left. A
step that is refused leaves the state. -/
inductive Carried (o : Optimizer α) (s₀ : State α) (store₀ : Option (Store α)) :
    State α → Option (Store α) → Prop where
  | start : Carried o s₀ store₀ s₀ store₀
  | step {s : State α} {store : Option (Store α)} {next : Option (State α)} (budget : Int) :
      Carried o s₀ store₀ s store → (o.step s store budget).result = .ok next →
      Carried o s₀ store₀ (next.getD s) (o.step s store budget).store
  | refused {s : State α} {store : Option (Store α)} {cause : Fault} (budget : Int) :
      Carried o s₀ store₀ s store → (o.step s store budget).result = .error cause →
      Carried o s₀ store₀ s (o.step s store budget).store
  | run {s s' : State α} {store : Option (Store α)} (budget calls : Int) :
      Carried o s₀ store₀ s store → (o.run s store budget calls).result = .ok s' →
      Carried o s₀ store₀ s' (o.run s store budget calls).store

/-- A store has the values of a state at the places of the variables, and elsewhere the scalars that it
had at first. -/
def Mirrors (initial : Store α) (places : List Path) (s : State α) (store : Option (Store α)) : Prop :=
  s.paths = initial.varying ∧ ∃ shapes, store = some shapes ∧ shapes.varying = initial.varying ∧
    shapes.Holds places s.values ∧ ∀ p, p ∉ places → shapes.scalar? p = initial.scalar? p

section
variable {initial : Store α} {places : List Path} (hnames : Store.Names initial.varying places)
  (nodup : places.Nodup)
include hnames nodup

omit [Scalar α] in
/-- The variables written to a store that had others. -/
theorem Mirrors.project (h : Mirrors initial places s store) (hpaths : s'.paths = s.paths)
    (hlength : s'.values.length = s.values.length) :
    (project s' store).1 = .ok () ∧ Mirrors initial places s' (project s' store).2 := by
  obtain ⟨hpaths₀, shapes, rfl, hvarying, holds, hothers⟩ := h
  have hcount : s'.values.length = places.length := hlength.trans holds.length_eq.symm
  have hkeys : (s'.paths.zip s'.values).map Prod.fst = s'.paths := by
    refine List.map_fst_zip ?_
    rw [hcount, hpaths, hpaths₀, hnames.length_eq]
  have hprojection : s'.projection = initial.varying.zip s'.values := by
    rw [State.projection, Keyed.ofList_of_nodup, hpaths, hpaths₀]
    rw [hkeys, hpaths, hpaths₀]
    exact hnames.nodup nodup
  obtain ⟨shapes', hinsert, hvarying', holds', hothers'⟩ :=
    Store.insert_holds hnames nodup holds hlength
  cases hempty : s'.paths.isEmpty with
  | true =>
    -- Without paths there are no variables.
    have hnil : places = [] := by
      have hvarying : initial.varying = [] := by
        rw [← hpaths₀, ← hpaths]
        exact List.isEmpty_iff.mp hempty
      rw [hvarying] at hnames
      cases hnames
      rfl
    subst hnil
    have hvalues : s'.values = [] := List.eq_nil_of_length_eq_zero hcount
    simp only [Optimizer.project, hempty, ↓reduceIte]
    exact ⟨trivial, hpaths.trans hpaths₀, shapes, rfl, hvarying, hvalues ▸ .nil, hothers⟩
  | false =>
    simp only [Optimizer.project, hempty, Bool.false_eq_true, ↓reduceIte, hprojection, hinsert]
    refine ⟨trivial, hpaths.trans hpaths₀, shapes', rfl, hvarying'.trans hvarying, holds', ?_⟩
    exact fun p hp => (hothers' p hp).trans (hothers p hp)

/-- A step keeps the store at the values of the state, whatever it ends with. -/
theorem Mirrors.step (h : Mirrors initial places s store) (budget : Int) :
    (∀ next, (o.step s store budget).result = .ok next →
      Mirrors initial places (next.getD s) (o.step s store budget).store) ∧
    ∀ cause, (o.step s store budget).result = .error cause →
      Mirrors initial places s (o.step s store budget).store := by
  rcases o.step_store s store budget with ⟨hstore, hvalues⟩ | ⟨e, further, events, d, hended, hstore, hok⟩
  · rw [hstore]
    refine ⟨fun next hnext => ?_, fun _ _ => h⟩
    obtain ⟨hvalues, hpaths⟩ := hvalues next hnext
    obtain ⟨hpaths₀, shapes, hshapes, hvarying, holds, hothers⟩ := h
    exact ⟨hpaths.trans hpaths₀, shapes, hshapes, hvarying, hvalues ▸ holds, hothers⟩
  · have hpaths : (o.afterPhase s d).paths = s.paths := rfl
    obtain ⟨hwritten, hmirrors⟩ := h.project hnames nodup hpaths hended.length_eq
    rw [hstore, hok hwritten]
    refine ⟨?_, fun _ hcause => nomatch hcause⟩
    rintro _ ⟨⟩
    exact hmirrors

/-- A run keeps the store at the values of the state. -/
theorem Mirrors.run (h : Mirrors initial places s store) {budget calls : Int}
    (hrun : (o.run s store budget calls).result = .ok s') :
    Mirrors initial places s' (o.run s store budget calls).store :=
  run_keeps (P := fun _ t store => Mirrors initial places t store)
    (fun hmirrors hresult => (hmirrors.step hnames nodup budget).1 _ hresult) h hrun

theorem Carried.mirrors (h : o.Carried s₀ store₀ s store) (h₀ : Mirrors initial places s₀ store₀) :
    Mirrors initial places s store := by
  induction h with
  | start => exact h₀
  | step budget _ hresult ih => exact (ih.step hnames nodup budget).1 _ hresult
  | refused budget _ hresult ih => exact (ih.step hnames nodup budget).2 _ hresult
  | run budget calls _ hresult ih => exact ih.run hnames nodup hresult

end

/-! ## Runs -/

variable {objectives constraints : List (Term α)}

/-- **The store of shapes follows the state.** If the paths that are declared varying name different
scalars of the store, and a run starts from their values, then in all states that steps and runs lead to
the variables of the store have the values of the state, and every other scalar is the one that was there
at first. Steps that fail or are refused are no exception. -/
theorem Carried.store_follows {shapes : Store α} {places : List Path} {x₀ : List α}
    (hnames : Store.Names shapes.varying places) (nodup : places.Nodup)
    (hstored : ∀ p ∈ places, (shapes.scalar? p).isSome = true) (hvalues : shapes.values = .ok x₀)
    (hstart : (o.start objectives constraints (.array (x₀.map .entry)) (some shapes.varying)).result =
      .ok s₀)
    (h : o.Carried s₀ (some shapes) s store) :
    ∃ shapes', store = some shapes' ∧ shapes'.values = .ok s.values ∧
      shapes'.varying = shapes.varying ∧ ∀ p, p ∉ places → shapes'.scalar? p = shapes.scalar? p := by
  have holds : shapes.Holds places x₀ := by
    obtain ⟨xs, hxs⟩ := Store.exists_holds hstored
    obtain rfl : xs = x₀ := Except.ok.inj ((hxs.values hnames).symm.trans hvalues)
    exact hxs
  have hs₀ : s₀.values = x₀ ∧ s₀.paths = shapes.varying := by
    obtain ⟨values, names, _, hstarted, _, _, rfl⟩ := start_eq_ok hstart
    obtain ⟨hflat, ⟨hnone, _⟩ | ⟨hpaths, _⟩⟩ := startValues_eq_ok hstarted
    · cases hnone
    · rw [Tensor.flat?_entries] at hflat
      exact ⟨(Option.some.inj hflat).symm, (Option.some.inj hpaths).symm⟩
  have h₀ : Mirrors shapes places s₀ (some shapes) :=
    ⟨hs₀.2, shapes, rfl, rfl, hs₀.1 ▸ holds, fun _ _ => rfl⟩
  obtain ⟨_, shapes', hshapes', hvarying, holds', hothers⟩ := h.mirrors hnames nodup h₀
  exact ⟨shapes', hshapes', holds'.values (hvarying ▸ hnames), hvarying, hothers⟩

/-- A circle that can be moved sideways. -/
def slidingCircle : Store ℚ where
  shapes := [("A", [("center", .list [.number 0, .number 1]), ("r", .number 5)])]
  varying := ["A.center.0"]

/-- A run moves the circle to three. Its height and its radius stay. -/
theorem slidingCircle_store_follows : ∃ s₀ s store, exactly.Carried s₀ (some slidingCircle) s store ∧
    s.status = .converged ∧ ∃ circle, store = some circle ∧ circle.values = .ok [3] ∧
      circle.scalar? ⟨"A", "center", some 1⟩ = some 1 ∧ circle.scalar? ⟨"A", "r", none⟩ = some 5 := by
  obtain ⟨s₀, s, hstart, hrun, htest⟩ := @exists_start_of_run ℚ _ exactly (some slidingCircle)
    [⟨"equal", [.varying 0, .number 3], .objective⟩] [] (.array ([0].map .entry))
    (some slidingCircle.varying) 5 20
    (fun _ s => decide (s.status = .converged ∧ s.values = [3])) (by decide +kernel)
  obtain ⟨hstatus, hvalue⟩ := of_decide_eq_true htest
  have carried := Carried.start.run 5 20 hrun
  have hnames : Store.Names slidingCircle.varying [⟨"A", "center", some 0⟩] :=
    .cons (toOption_eq_some_iff.mp (by decide +kernel)) .nil
  have hzero : slidingCircle.values = .ok [0] := toOption_eq_some_iff.mp (by decide +kernel)
  obtain ⟨circle, hcircle, hvalues, _, hothers⟩ := Carried.store_follows hnames
    (List.nodup_singleton _) (by decide +kernel) hzero hstart carried
  refine ⟨s₀, s, _, carried, hstatus, circle, hcircle, hvalue ▸ hvalues, ?_, ?_⟩
  · rw [hothers _ (by decide)]
    decide +kernel
  · rw [hothers _ (by decide)]
    decide +kernel

end Optimizer

end DiagramLayout
