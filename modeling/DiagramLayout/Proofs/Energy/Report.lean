import DiagramLayout.Proofs.Energy.Alone
import DiagramLayout.Proofs.Energy.OnNumbers
import DiagramLayout.Proofs.Energy.Refused
import DiagramLayout.Proofs.Keyed
import DiagramLayout.Proofs.Term.Printed

/-!
# The report of single terms

Every term of a problem has an entry of its own in the report, in the order of the terms, exactly if
no two terms of one kind look the same in print. Numbers are printed with six significant digits, so
terms may look the same though they are different; then one entry is left, of the last such term.
-/

namespace DiagramLayout

variable {α : Type}

/-! ## Keys -/

theorem TermKind.key_append_inj {k k' : TermKind} {s s' : String} :
    k.key ++ ":" ++ s = k'.key ++ ":" ++ s' ↔ k = k' ∧ s = s' := by
  constructor
  · intro h
    have hlists := congrArg String.toList h
    cases k <;> cases k' <;> simp [key] at hlists
    · exact ⟨rfl, String.toList_injective hlists⟩
    · exact ⟨rfl, String.toList_injective hlists⟩
  · rintro ⟨rfl, rfl⟩
    rfl

/-! ## A term alone -/

variable [Scalar α]

namespace Value

mutual

/-- What can be bound on a graph that no handle of it belongs to is an argument. -/
theorem isArgument_of_bindFault? {number : Nat} : ∀ {v : Value α}, v.nextGraph ≤ number →
    (leaves v).findSome? (bindFault? number) = none → v.IsArgument
  | .number x, _, _ => .number x
  | .integer n, _, _ => .integer n
  | .varying i, _, _ => .varying i
  | .list _, foreign, h => .list (areArguments_of_bindFault? foreign h)
  | .text _, _, h | .truth _, _, h | .absent, _, h => by simp [leaves, bindFault?] at h
  | .handle target, foreign, h => by
    rw [nextGraph] at foreign
    have hforeign : target.graph ≠ number := by omega
    simp [leaves, bindFault?, liftFault?, hforeign] at h

theorem areArguments_of_bindFault? {number : Nat} : ∀ {vs : List (Value α)},
    nextGraphOfAll vs ≤ number → (leavesOfAll vs).findSome? (bindFault? number) = none →
      AreArguments vs
  | [], _, _ => .nil
  | v :: vs, foreign, h => by
    rw [nextGraphOfAll] at foreign
    rw [leavesOfAll, List.findSome?_append, Option.or_eq_none_iff] at h
    exact .cons (isArgument_of_bindFault? (by omega) h.1)
      (areArguments_of_bindFault? (by omega) h.2)

end

end Value

namespace TermEnergy

variable {t : ResolvedTerm α} {e : TermEnergy α} {kind : TermKind} {allowed : Function → Bool}

/-- A term that was compiled alone has numbers, variables and lists for arguments. -/
theorem areArguments_of_compile (h : compile t = .ok e) : Value.AreArguments t.term.arguments := by
  obtain ⟨-, hon⟩ := compile_eq_ok h
  obtain ⟨w, g₁, hrecord, -⟩ := Recording.on_bind_eq_ok hon
  rw [ResolvedTerm.record_eq] at hrecord
  obtain ⟨ws, g₂, hbind, -⟩ := Recording.on_bind_eq_ok hrecord
  have hfault := Recording.fault?_of_ok hbind
  rw [Graph.bindArguments_fault?] at hfault
  exact Value.areArguments_of_bindFault? (Nat.le_refl _) hfault

/-- What the node of a term is known to have, the compiled term has. -/
theorem value_of_keeps {P : α → Prop} {xs : List α}
    (keeps : t.record.Keeps (· < xs.length) { number := Value.nextGraphOfAll t.term.arguments }
      fun g w => ∃ y, P y ∧ (Meaning.values { inputs := xs }).Denotes g w y)
    (h : compile t = .ok e) : ∃ y, P y ∧ e.value xs = .ok y := by
  obtain ⟨-, hon⟩ := compile_eq_ok h
  have hnode : t.record.node.Keeps (· < xs.length) { number := Value.nextGraphOfAll t.term.arguments }
      fun g n => ∃ y, P y ∧ n < g.size ∧ (Meaning.values { inputs := xs }).read g.nodes n = y := by
    refine .node (keeps.mono ?_)
    rintro g w ⟨y, hy, handle, rfl, -, hlt, hread⟩
    exact ⟨handle, rfl, y, hy, hlt, hread⟩
  obtain ⟨sound, -, y, hy, hlt, hread⟩ := hnode.of_ok hon
  refine ⟨y, hy, ?_⟩
  rw [value, ← hread]
  exact Graph.forward_eq_read sound hlt

/-- An entry belongs to a term, and has at every vector that is long enough the value that the term
has on every graph; a term without powers has this value on numbers too. -/
structure Reports (kind : TermKind) (t : ResolvedTerm α) (entry : String × TermEnergy α) : Prop where
  key : entry.1 = kind.key ++ ":" ++ t.term.text
  name : entry.2.name = t.term.text
  value : ∀ xs : List α, (∀ i ∈ t.term.indices, i < xs.length) → ∃ y,
    entry.2.value xs = .ok y ∧ t.Means (· < xs.length) (Meaning.values { inputs := xs }) y ∧
      (t.function.Composed (· != .power) → t.onNumbers xs = .ok y)

theorem entry_eq_ok {x : String × TermEnergy α} (h : entry kind t = .ok x) :
    compile t = .ok x.2 ∧ x.1 = kind.key ++ ":" ++ t.term.text := by
  obtain ⟨e, he, h⟩ := bind_eq_ok_iff.mp h
  cases h
  exact ⟨he, by rw [(compile_eq_ok he).1]⟩

theorem entry_reports (composed : t.function.Composed allowed) {x : String × TermEnergy α}
    (h : entry kind t = .ok x) : Reports kind t x := by
  obtain ⟨hcompile, hkey⟩ := entry_eq_ok h
  refine ⟨hkey, (compile_eq_ok hcompile).1, fun xs hxs => ?_⟩
  have hready {allowed : Function → Bool} (composed : t.function.Composed allowed) :
      t.Ready allowed xs.length (Value.nextGraphOfAll t.term.arguments) :=
    ⟨composed, fun i hi hnonneg => by have := hxs i hi; omega, Nat.le_refl _⟩
  have sound := Graph.sound_empty (α := α) (· < xs.length)
    (Value.nextGraphOfAll t.term.arguments)
  have alike : (Meaning.values { inputs := xs }).Alike (Meaning.values { inputs := xs }) :=
    ⟨rfl, rfl, rfl⟩
  have hmeans := ResolvedTerm.record_means alike (hready composed) sound
  obtain ⟨y, hy, hvalue⟩ := value_of_keeps hmeans hcompile
  refine ⟨y, hvalue, hy, fun plain => ?_⟩
  have hnumbers := ResolvedTerm.record_onNumbers (p := { inputs := xs }) rfl (hready plain) sound
  obtain ⟨z, hz, hvalue'⟩ := value_of_keeps hnumbers hcompile
  obtain rfl := Except.ok.inj (hvalue.symm.trans hvalue')
  exact hz

/-- Entries one by one, each belonging to its term. -/
theorem entries_report {resolved : List (ResolvedTerm α)} {entries : List (String × TermEnergy α)}
    (composed : ∀ t ∈ resolved, t.function.Composed allowed)
    (h : List.Forall₂ (fun t x => entry kind t = .ok x) resolved entries) :
    List.Forall₂ (Reports kind) resolved entries := by
  induction h with
  | nil => exact .nil
  | cons h _ ih =>
    obtain ⟨hhead, htail⟩ := List.forall_mem_cons.mp composed
    exact .cons (entry_reports hhead h) (ih htail)

end TermEnergy

/-! ## The report -/

namespace Problem

variable {p : Problem α} {library : Library α} {kind : TermKind} {allowed : Function → Bool}
  {objectives constraints resolved : List (ResolvedTerm α)}
  {first second entries table : List (String × TermEnergy α)}

/-- No two terms of one kind look the same in print. -/
def PrintsApart (p : Problem α) : Prop :=
  (p.objectives.map Term.imprint).Nodup ∧ (p.constraints.map Term.imprint).Nodup

/-- The keys of the entries of one kind are different exactly if the terms are in print. -/
theorem nodup_keys_iff (hplain : ∀ x : α, Text.IsPlain (Scalar.text x))
    (h : List.Forall₂ (fun t x => TermEnergy.entry kind t = .ok x) resolved entries) :
    (entries.map Prod.fst).Nodup ↔ ((resolved.map (·.term)).map Term.imprint).Nodup := by
  have hkeys : entries.map Prod.fst = resolved.map fun t => kind.key ++ ":" ++ t.term.text := by
    induction h with
    | nil => rfl
    | cons h _ ih => rw [List.map_cons, List.map_cons, (TermEnergy.entry_eq_ok h).2, ih]
  have harguments : ∀ t ∈ resolved, Value.AreArguments t.term.arguments :=
    forall_right_of_forall₂ h.flip fun x t hx =>
      TermEnergy.areArguments_of_compile (TermEnergy.entry_eq_ok hx).1
  rw [hkeys, List.map_map, List.Nodup, List.Nodup, List.pairwise_map, List.pairwise_map]
  refine List.Pairwise.iff_of_mem fun {t u} ht hu => not_congr ?_
  rw [TermKind.key_append_inj, Term.text_eq_iff hplain (harguments t ht) (harguments u hu)]
  exact and_iff_right rfl

/-- Objectives and constraints have no key in common. -/
theorem nodup_append_keys_iff
    (hfirst : List.Forall₂ (TermEnergy.Reports .objective) objectives first)
    (hsecond : List.Forall₂ (TermEnergy.Reports .constraint) constraints second) :
    ((first ++ second).map Prod.fst).Nodup ↔
      (first.map Prod.fst).Nodup ∧ (second.map Prod.fst).Nodup := by
  have hdisjoint : ∀ key ∈ first.map Prod.fst, ∀ key' ∈ second.map Prod.fst, key ≠ key' := by
    simp only [List.forall_mem_map]
    intro x hx y hy heq
    obtain ⟨t, -, ht⟩ := exists_left_of_forall₂ hfirst hx
    obtain ⟨u, -, hu⟩ := exists_left_of_forall₂ hsecond hy
    rw [ht.key, hu.key, TermKind.key_append_inj] at heq
    cases heq.1
  rw [List.map_append, List.nodup_append]
  exact ⟨fun ⟨hos, hcs, _⟩ => ⟨hos, hcs⟩, fun ⟨hos, hcs⟩ => ⟨hos, hcs, hdisjoint⟩⟩

theorem entries_of_compileTerms (h : p.compileTerms library = .ok table) :
    ∃ objectives constraints first second, p.resolve library = .ok (objectives, constraints) ∧
      List.Forall₂ (fun t x => TermEnergy.entry .objective t = .ok x) objectives first ∧
      List.Forall₂ (fun t x => TermEnergy.entry .constraint t = .ok x) constraints second ∧
      table = Keyed.ofList (first ++ second) := by
  obtain ⟨⟨objectives, constraints⟩, hresolve, h⟩ := bind_eq_ok_iff.mp h
  obtain ⟨first, hfirst, h⟩ := bind_eq_ok_iff.mp h
  obtain ⟨second, hsecond, h⟩ := bind_eq_ok_iff.mp h
  exact ⟨objectives, constraints, first, second, hresolve, mapM_eq_ok_iff.mp hfirst,
    mapM_eq_ok_iff.mp hsecond, (Except.ok.inj h).symm⟩

/-- **No term gets lost that differs in print.** Every entry of a report belongs to a term and has its
value, constraints without a penalty. The report has exactly one entry for every term, in the order
of the terms, if no two terms of one kind look the same in print, and only then. -/
theorem compileTerms_reports (hplain : ∀ x : α, Text.IsPlain (Scalar.text x))
    (hlibrary : library.Composed allowed) (h : p.compileTerms library = .ok table) :
    ∃ objectives constraints, p.resolve library = .ok (objectives, constraints) ∧
      (p.PrintsApart ↔ ∃ first second, table = first ++ second ∧
        List.Forall₂ (TermEnergy.Reports .objective) objectives first ∧
        List.Forall₂ (TermEnergy.Reports .constraint) constraints second) ∧
      ∀ entry ∈ table, (∃ t ∈ objectives, TermEnergy.Reports .objective t entry) ∨
        ∃ t ∈ constraints, TermEnergy.Reports .constraint t entry := by
  obtain ⟨objectives, constraints, first, second, hresolve, hos, hcs, rfl⟩ := entries_of_compileTerms h
  obtain ⟨hreadyos, hreadycs⟩ := List.forall_mem_append.mp (resolve_ready hlibrary hresolve)
  obtain ⟨hterms, hterms'⟩ := terms_of_resolve hresolve
  have hfirst := TermEnergy.entries_report (fun t ht => (hreadyos t ht).composed) hos
  have hsecond := TermEnergy.entries_report (fun t ht => (hreadycs t ht).composed) hcs
  have hkeys : ((first ++ second).map Prod.fst).Nodup ↔ p.PrintsApart := by
    rw [nodup_append_keys_iff hfirst hsecond, nodup_keys_iff hplain hos, nodup_keys_iff hplain hcs,
      hterms, hterms', PrintsApart]
  refine ⟨objectives, constraints, hresolve, ?_, ?_⟩
  · rw [← hkeys]
    constructor
    · intro hnodup
      exact ⟨first, second, Keyed.ofList_of_nodup hnodup, hfirst, hsecond⟩
    · -- With an entry for every term none was replaced.
      rintro ⟨first', second', htable, hfirst', hsecond'⟩
      rw [← Keyed.length_ofList_iff, htable, List.length_append, List.length_append,
        ← hfirst.length_eq, ← hsecond.length_eq, hfirst'.length_eq, hsecond'.length_eq]
  · intro entry hentry
    rcases List.mem_append.mp (Keyed.mem_ofList hentry) with hmem | hmem
    · exact .inl (exists_left_of_forall₂ hfirst hmem)
    · exact .inr (exists_left_of_forall₂ hsecond hmem)

end Problem

/-- The first variable has two targets, and the second is to be one at most. -/
def twoTargets : Problem Float where
  objectives :=
    [⟨"equal", [.varying 0, .number 1], .objective⟩, ⟨"equal", [.varying 0, .number 2], .objective⟩]
  constraints := [⟨"lessThan", [.varying 1, .number 1], .constraint⟩]
  count := 2

theorem twoTargets_printsApart : twoTargets.PrintsApart := by
  have hdiffer : Decimal.Format.general.render 1 ≠ Decimal.Format.general.render 2 := by
    decide +kernel
  simp [Problem.PrintsApart, twoTargets, Term.imprint, Value.imprintAll, Value.imprint, Scalar.text,
    hdiffer]

theorem twoTargets_reports : ∃ table objectives constraints first second,
    twoTargets.compileTerms Catalog.library = .ok table ∧
      twoTargets.resolve Catalog.library = .ok (objectives, constraints) ∧
      table = first ++ second ∧ first.length = 2 ∧ second.length = 1 ∧
      List.Forall₂ (TermEnergy.Reports .objective) objectives first ∧
      List.Forall₂ (TermEnergy.Reports .constraint) constraints second := by
  have hcompiled : (twoTargets.compileTerms Catalog.library).isOk = true := by decide +kernel
  cases hcompile : twoTargets.compileTerms Catalog.library with
  | error fault => rw [hcompile] at hcompiled; cases hcompiled
  | ok table =>
    obtain ⟨objectives, constraints, hresolve, hcomplete, -⟩ :=
      Problem.compileTerms_reports Text.isPlain_render
        (Catalog.library_composed fun _ => true) hcompile
    obtain ⟨first, second, htable, hfirst, hsecond⟩ := hcomplete.mp twoTargets_printsApart
    obtain ⟨hos, hcs⟩ := Problem.resolve_eq_ok hresolve
    exact ⟨table, objectives, constraints, first, second, rfl, hresolve, htable,
      (hos.length_eq.trans hfirst.length_eq).symm, (hcs.length_eq.trans hsecond.length_eq).symm,
      hfirst, hsecond⟩

/-- The variable has two targets that look the same with six digits. -/
def nearTargets : Problem Float where
  objectives := [⟨"equal", [.varying 0, .number 1.0000001], .objective⟩,
    ⟨"equal", [.varying 0, .number 1.0000002], .objective⟩]
  constraints := []
  count := 1

/-- Two different terms have one entry, with the value of the second. -/
theorem nearTargets_loses_term : Scalar.same (1.0000001 : Float) 1.0000002 = false ∧
    nearTargets.objectives.length = 2 ∧
      ∃ entry y, nearTargets.compileTerms Catalog.library = .ok [entry] ∧
        entry.2.value [0] = .ok y ∧ Scalar.same y 1.0000004000000398 = true := by
  have h : ((nearTargets.compileTerms Catalog.library).map fun table =>
      decide (table.length = 1) && table.all fun entry =>
        (entry.2.value [0]).toOption.any (Scalar.same · 1.0000004000000398)).toOption =
      some true := by decide +kernel
  obtain ⟨table, hcompile, h⟩ := map_eq_ok_iff.mp (toOption_eq_some_iff.mp h)
  simp only [Bool.and_eq_true, decide_eq_true_eq, List.all_eq_true, Option.any_eq_true] at h
  obtain ⟨hlength, hall⟩ := h
  obtain ⟨entry, rfl⟩ := List.length_eq_one_iff.mp hlength
  obtain ⟨y, hvalue, hy⟩ := hall entry List.mem_cons_self
  exact ⟨by decide +kernel, rfl, entry, y, hcompile, toOption_eq_some_iff.mp hvalue, hy⟩

end DiagramLayout
