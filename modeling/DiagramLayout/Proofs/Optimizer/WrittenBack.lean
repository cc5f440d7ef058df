import DiagramLayout.Proofs.Optimizer.Projection
import DiagramLayout.Proofs.Optimizer.Splitting
import DiagramLayout.Proofs.Shapes.Writable

/-!
# Variables that cannot be written back

Texts are the only values of a store whose components can be read but not written. (So can those of
other sequences that are no lists, which are not among the values here; they are refused in the same
way.) A run from declared paths none of which is in a text is never held up by its store; any other run
is, at the end of every phase, with some of the variables written.
-/

namespace DiagramLayout

open Shapes (Path Store)

variable {α : Type} [Scalar α]

namespace Optimizer

variable {o : Optimizer α} {s s₀ s' : State α} {store store₀ store' : Option (Store α)}

/-! ## Steps with and without a store -/

theorem advance_unrefused (hwritten : ∀ e further events d,
    Ended o s e s.values s.memory further events (.ok d) →
      (project (o.afterPhase s d) store).1 = .ok ()) (budget : Nat) :
    (o.advance s store budget).1 = (o.advance s none budget).1 := by
  unfold advance
  split
  · rfl
  · split
    · rfl
    · cases budget with
      | zero => rfl
      | succ further =>
        cases he : s.objective with
        | none => simp only [runPhase, he]
        | some e =>
          have hended := o.descend_ended s e further s.values s.memory
          rcases hdescend : o.descend s e further 0 s.values s.memory with ⟨events, ending⟩
          rw [hdescend] at hended
          cases ending with
          | error cause => simp only [runPhase, he, hdescend]
          | ok d =>
            have hsome := hwritten e further events d hended
            have hnone : (project (o.afterPhase s d) none).1 = .ok () := rfl
            simp only [runPhase, he, hdescend, hsome, hnone]
    · rfl
    · rfl

/-- A store that takes what a phase writes leaves a step as it is without a store. -/
theorem step_unrefused (hwritten : ∀ e further events d,
    Ended o s e s.values s.memory further events (.ok d) →
      (project (o.afterPhase s d) store).1 = .ok ()) (budget : Int) :
    (o.step s store budget).result = (o.step s none budget).result := by
  have houtcome := advance_unrefused hwritten budget.toNat
  unfold step
  split
  · rfl
  · split
    · rfl
    · generalize o.advance s store budget.toNat = advanced at houtcome ⊢
      generalize o.advance s none budget.toNat = advanced' at houtcome ⊢
      obtain ⟨outcome, _, _⟩ := advanced
      obtain ⟨_, _, _⟩ := advanced'
      cases houtcome
      rcases outcome with (cause | cause) | (_ | s') <;> rfl

/-- A store that refuses what a phase writes ends the step with its fault. -/
theorem step_refused {budget : Int} {cause : Fault} (hrunning : s.status = .running)
    (hresult : (o.step s none budget).result = .ok (some s')) (hgoing : s'.status.isTerminal = false)
    (hrefused : project s' store = (.error cause, store')) :
    (o.step s store budget).result = .error cause ∧ (o.step s store budget).store = store' := by
  obtain ⟨hbudget, hstepped⟩ := step_stepped hresult
  rw [Option.getD_some] at hstepped
  generalize (o.step s none budget).events = reported at hstepped
  cases hstepped with
  | idle hidle =>
    rcases hidle with hterminal | ⟨hfinite, _, hzero⟩
    · rw [hrunning] at hterminal
      cases hterminal
    · rw [step_eq_advance hbudget (by rw [hrunning]; rfl), hzero] at hresult
      simp [advance, hfinite, hrunning, runPhase] at hresult
  | started _ hfresh => cases hrunning.symm.trans hfresh
  | converged _ hsettled => cases hrunning.symm.trans hsettled
  | continued _ hsettled => cases hrunning.symm.trans hsettled
  | failed => cases hgoing
  | @phase e further _ _ hfinite _ he hfurther _ =>
    have hstep (store : Option (Store α)) := o.step_running store hrunning hfinite he
      (by omega : budget = further + 1)
    rw [hstep none] at hresult
    rw [hstep store]
    generalize o.descend s e further 0 s.values s.memory = descended at hresult ⊢
    obtain ⟨events, (cause | cause) | d⟩ := descended
    · obtain heq := Option.some.inj (Except.ok.inj hresult)
      rw [← heq] at hgoing
      cases hgoing
    · cases hresult
    · have hnone : (project (o.afterPhase s d) none).1 = .ok () := rfl
      rw [conclude_written hnone] at hresult
      obtain heq := Option.some.inj (Except.ok.inj hresult)
      rw [← heq] at hrefused
      rw [conclude_refused (congrArg Prod.fst hrefused), hrefused]
      exact ⟨rfl, rfl⟩

/-! ## Stores of declared paths -/

/-- A state that has the variables of a store of shapes, with a store that has the same lists as that
one. -/
structure Backed (initial : Store α) (s : State α) (store : Option (Store α)) : Prop where
  paths : s.paths = initial.varying
  count : s.count = initial.varying.length
  alike : ∃ shapes, store = some shapes ∧ initial.Alike shapes

namespace Backed

variable {shapes : List (String × List (String × Value α))} {initial : Store α}
  (declared : Store.Declared shapes initial) (h : Backed initial s store)
include declared h

omit [Scalar α] in
/-- The values of the variables are written to the paths that were declared. -/
theorem project_eq : ∃ held, store = some held ∧ initial.Alike held ∧
    project s store = ((held.insert (initial.varying.zip s.values)).1,
      some (held.insert (initial.varying.zip s.values)).2) := by
  obtain ⟨held, rfl, halike⟩ := h.alike
  refine ⟨held, rfl, halike, ?_⟩
  cases hempty : initial.varying.isEmpty with
  | true =>
    have hnil := List.isEmpty_iff.mp hempty
    simp only [project, h.paths, hempty, ↓reduceIte]
    rw [hnil]
    rfl
  | false =>
    have hprojection : s.projection = initial.varying.zip s.values := by
      rw [State.projection, h.paths, declared.entries_eq h.count]
    simp only [project, h.paths, hempty, Bool.false_eq_true, ↓reduceIte, hprojection]

omit [Scalar α] in
theorem project_writable (hwritable : initial.Writable) : (project s store).1 = .ok () := by
  obtain ⟨held, _, halike, hproject⟩ := h.project_eq declared
  obtain ⟨t, hinsert⟩ := declared.insert_writable hwritable halike s.values
  rw [hproject, hinsert]

omit [Scalar α] in
theorem project_blocked {before : List String} {path : String} (hblocked : initial.Blocked before path) :
    ∃ held t, store = some held ∧ held.insert (before.zip s.values) = (.ok (), t) ∧
      project s store = (.error (.unknownPath path), some t) := by
  obtain ⟨held, hstore, halike, hproject⟩ := h.project_eq declared
  obtain ⟨t, hwritten, hrefused⟩ := declared.insert_blocked hblocked halike h.count
  rw [hrefused] at hproject
  exact ⟨held, t, hstore, hwritten, hproject⟩

omit declared in
theorem afterPhase {e : WeightedEnergy α} {further : ℕ} {events : List (Event α)} {d : Descent α}
    (hended : Ended o s e s.values s.memory further events (.ok d)) :
    Backed initial (o.afterPhase s d) store :=
  ⟨h.paths, hended.length_eq.trans h.count, h.alike⟩

omit declared in
theorem stepped {budget : Nat} {events : List (Event α)} (hstepped : Stepped o s budget s' events) :
    s'.paths = initial.varying ∧ s'.count = initial.varying.length := by
  cases hstepped with
  | phase _ _ _ _ hended => exact ⟨h.paths, hended.length_eq.trans h.count⟩
  | idle | started | converged | continued | failed => exact ⟨h.paths, h.count⟩

/-- A step keeps the lists of the store and the variables of the state, whatever it ends with. -/
theorem step (budget : Int) :
    (∀ next, (o.step s store budget).result = .ok next →
      Backed initial (next.getD s) (o.step s store budget).store) ∧
    ∀ cause, (o.step s store budget).result = .error cause →
      Backed initial s (o.step s store budget).store := by
  have halike : ∃ held, (o.step s store budget).store = some held ∧ initial.Alike held := by
    rcases o.step_store s store budget with ⟨hstore, _⟩ | ⟨e, further, events, d, hended, hstore, _⟩
    · rw [hstore]
      exact h.alike
    · obtain ⟨held, _, halike, hproject⟩ := (h.afterPhase hended).project_eq declared
      rw [hstore, hproject]
      exact ⟨_, rfl, declared.alike_insert halike _⟩
  refine ⟨fun next hnext => ?_, fun _ _ => ⟨h.paths, h.count, halike⟩⟩
  obtain ⟨hpaths, hcount⟩ := h.stepped (step_stepped hnext).2
  exact ⟨hpaths, hcount, halike⟩

end Backed

variable {shapes : List (String × List (String × Value α))} {initial : Store α}

theorem Carried.backed (declared : Store.Declared shapes initial) (h : o.Carried s₀ store₀ s store)
    (h₀ : Backed initial s₀ store₀) : Backed initial s store := by
  induction h with
  | start => exact h₀
  | step budget _ hresult ih => exact (ih.step declared budget).1 _ hresult
  | refused budget _ hresult ih => exact (ih.step declared budget).2 _ hresult
  | run budget calls _ hresult ih =>
    exact run_keeps (P := fun _ t store => Backed initial t store)
      (fun backed hstep => (backed.step declared budget).1 _ hstep) ih hresult

theorem start_backed {objectives constraints : List (Term α)} {x₀ : Tensor α}
    (h : (o.start objectives constraints x₀ (some initial.varying)).result = .ok s₀) :
    Backed initial s₀ (some initial) := by
  obtain ⟨values, names, _, hstarted, _, _, rfl⟩ := start_eq_ok h
  obtain ⟨_, ⟨hnone, _⟩ | ⟨hnames, hcount⟩⟩ := startValues_eq_ok hstarted
  · cases hnone
  · cases hnames
    exact ⟨rfl, hcount.symm, initial, rfl, fun _ => rfl⟩

/-- The states with their stores that a run leads to whose variables are the declared paths of a store,
whatever its terms and the values at its start are. -/
def RunsOn (o : Optimizer α) (initial : Store α) (s : State α) (store : Option (Store α)) : Prop :=
  ∃ objectives constraints x₀ s₀,
    (o.start objectives constraints x₀ (some initial.varying)).result = .ok s₀ ∧
      o.Carried s₀ (some initial) s store

theorem RunsOn.backed (h : o.RunsOn initial s store) (declared : Store.Declared shapes initial) :
    Backed initial s store := by
  obtain ⟨_, _, _, s₀, hstart, carried⟩ := h
  exact carried.backed declared (start_backed hstart)

/-- **Which variables are written back.** If no declared path is that of a character, numbers for all
variables are written, and in a run on these variables every step ends as it does without a store. If there
is such a path, writing stops at the first one: the variables that were declared before it have been
written then and the others have not. In a run on these variables this is how every phase ends that
without a store would have come to its end. -/
theorem declared_written_back (h : Store.Declared shapes initial) :
    (initial.Writable ∨ ∃ before path, initial.Blocked before path) ∧
    (initial.Writable →
      (∀ xs, xs.length = initial.varying.length →
        ∃ t, initial.insert (Keyed.ofList (initial.varying.zip xs)) = (.ok (), t)) ∧
      ∀ (o : Optimizer α) s store budget, o.RunsOn initial s store →
        (o.step s store budget).result = (o.step s none budget).result) ∧
    ∀ before path, initial.Blocked before path →
      (∀ xs, xs.length = initial.varying.length → ∃ t, initial.insert (before.zip xs) = (.ok (), t) ∧
        initial.insert (Keyed.ofList (initial.varying.zip xs)) = (.error (.unknownPath path), t)) ∧
      ∀ (o : Optimizer α) s store budget s', o.RunsOn initial s store → s.status = .running →
        (o.step s none budget).result = .ok (some s') → s'.status.isTerminal = false →
        ∃ held t, store = some held ∧ held.insert (before.zip s'.values) = (.ok (), t) ∧
          (o.step s store budget).result = .error (.unknownPath path) ∧
          (o.step s store budget).store = some t := by
  refine ⟨initial.writable_or_blocked, fun hwritable => ⟨fun xs hlength => ?_, ?_⟩,
    fun before path hblocked => ⟨fun xs hlength => ?_, ?_⟩⟩
  · rw [h.entries_eq hlength]
    exact h.insert_writable hwritable (fun _ => rfl) xs
  · intro o s store budget runs
    refine step_unrefused (fun _ _ _ _ hended => ?_) budget
    exact ((runs.backed h).afterPhase hended).project_writable h hwritable
  · rw [h.entries_eq hlength]
    exact h.insert_blocked hblocked (fun _ => rfl) hlength
  · intro o s store budget s' runs hrunning hresult hgoing
    obtain ⟨hpaths, hcount⟩ := (runs.backed h).stepped (step_stepped hresult).2
    have backed : Backed initial s' store := ⟨hpaths, hcount, (runs.backed h).alike⟩
    obtain ⟨held, t, hstore, hwritten, hproject⟩ := backed.project_blocked h hblocked
    exact ⟨held, t, hstore, hwritten, step_refused hrunning hresult hgoing hproject⟩

/-- A circle with a name. Its radius is a variable, and so is the first character of its name. -/
def namedCircle : Store ℚ :=
  (({ shapes := [("A", [("r", .number 5), ("name", .text "7")])] } : Store ℚ).declare
    ["A.r", "A.name.0"]).2

/-- A phase moves the radius to three. Its end is refused when that has been written. -/
theorem namedCircle_written_back : ∃ s store t, exactly.RunsOn namedCircle s store ∧
      (exactly.step s store 20).result = .error (.unknownPath "A.name.0") ∧
      (exactly.step s store 20).store = some t ∧ t.scalar? ⟨"A", "r", none⟩ = some 3 := by
  have declared : Store.Declared _ namedCircle := .call _ .start
  have hradius : Path.read "A.r" = .ok ⟨"A", "r", none⟩ := by decide +kernel
  have hname : Path.read "A.name.0" = .ok ⟨"A", "name", some 0⟩ := by decide +kernel
  have hblocked : namedCircle.Blocked ["A.r"] "A.name.0" := by
    refine ⟨⟨[], by decide +kernel⟩, ?_, ⟨_, 0, "7", hname, rfl, rfl⟩⟩
    rw [List.forall_mem_singleton]
    rintro ⟨p, i, _, hread, hcomponent, _⟩
    cases hradius.symm.trans hread
    cases hcomponent
  obtain ⟨s₀, s, hstart, hrun, htest⟩ := @exists_start_of_run ℚ _ exactly
    (some namedCircle) [⟨"equal", [.varying 0, .number 3], .objective⟩] []
    (.array ([5, 7].map .entry)) (some namedCircle.varying) 20 1
    (fun _ s => decide (s.status = .running) &&
      ((exactly.step s none 20).result.toOption.join.any fun s' : State ℚ =>
        s'.values == [3, 7] && decide (s'.status = .settled))) (by decide +kernel)
  simp only [Bool.and_eq_true, decide_eq_true_eq] at htest
  obtain ⟨hrunning, htest⟩ := htest
  obtain ⟨s', hs', htest⟩ := (Option.any_eq_true _ _).mp htest
  simp only [Bool.and_eq_true, decide_eq_true_eq, beq_iff_eq] at htest
  have hresult := toOption_eq_some_iff.mp (Option.join_eq_some_iff.mp hs')
  have runs : exactly.RunsOn namedCircle s _ := ⟨_, _, _, s₀, hstart, Carried.start.run 20 1 hrun⟩
  obtain ⟨held, t, -, hwritten, hrefused, hstore⟩ := ((declared_written_back declared).2.2 _ _
    hblocked).2 _ _ _ 20 s' runs hrunning hresult (by rw [htest.2]; rfl)
  refine ⟨s, _, t, runs, hrefused, hstore, ?_⟩
  have hset : held.set "A.r" 3 = .ok (held.put ⟨"A", "r", none⟩ (.number 3)) :=
    Store.set_property hradius rfl
  simp only [htest.1, List.zip_cons_cons, Store.insert, Store.each, hset] at hwritten
  cases hwritten
  rw [Store.scalar?_put, if_pos ⟨rfl, rfl⟩]
  rfl

/-- The radius of the circle is written, the character is refused. -/
theorem namedCircle_refuses : namedCircle.varying = ["A.r", "A.name.0"] ∧
    (namedCircle.insert (Keyed.ofList [("A.r", 2), ("A.name.0", 3)])).1 =
      .error (.unknownPath "A.name.0") ∧
    (namedCircle.insert (Keyed.ofList [("A.r", 2), ("A.name.0", 3)])).2.scalar? ⟨"A", "r", none⟩ =
      some 2 := by
  decide +kernel

end Optimizer

end DiagramLayout
