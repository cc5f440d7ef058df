import DiagramLayout.Proofs.Energy.Decomposition
import DiagramLayout.Proofs.Energy.Evaluable

namespace DiagramLayout

variable {α β : Type}

/-! ## Inputs -/

namespace Graph

/-- No two nodes stand for one input. -/
theorem WellFormed.nodup_inputs {g : Graph α} (h : g.WellFormed) :
    (g.nodes.filterMap Node.input?).Nodup := by
  have hsuffix : ∀ nodes, nodes <:+ g.nodes → (nodes.filterMap Node.input?).Nodup := by
    intro nodes hs
    induction nodes with
    | nil => exact List.nodup_nil
    | cons node older ih =>
      have holder := ih ((List.suffix_cons node older).trans hs)
      have hfits := h node older hs
      cases node with
      | input index =>
        refine List.nodup_cons.mpr ⟨fun hmem => ?_, holder⟩
        obtain ⟨node, hnode, hindex⟩ := List.mem_filterMap.mp hmem
        exact hfits node hnode hindex
      | _ => exact holder
  exact hsuffix g.nodes (List.suffix_refl _)

theorem mem_inputs_iff {g : Graph α} {i : Nat} :
    i ∈ g.nodes.filterMap Node.input? ↔ .input i ∈ g.nodes := by
  rw [List.mem_filterMap]
  constructor
  · rintro ⟨node, hnode, hi⟩
    cases node with
    | input index =>
      obtain rfl : index = i := Option.some.inj hi
      exact hnode
    | _ => cases hi
  · exact fun h => ⟨_, h, rfl⟩

theorem recordInput_ensures (index : Int) :
    (recordInput index : Recording α (Value α)).Ensures fun g => .input index.toNat ∈ g.nodes := by
  intro g w g' h
  rw [on_recordInput] at h
  split at h
  · cases h
  · cases h
    rcases g.input_cases index.toNat with ⟨older, hs, hinput⟩ | ⟨_, hinput⟩
    · simpa only [hinput] using hs.subset List.mem_cons_self
    · simp only [hinput]
      exact List.mem_cons_self

variable [Scalar α]

/-- Where inputs may be added a node stays. -/
theorem bindArguments_keep (node : Node α) (vs : List (Value α)) :
    (bindArguments vs).Preserves fun g => node ∈ g.nodes :=
  bindArguments_preserves (persists_mem (fun _ => True) node) fun _ _ _ => trivial

mutual

/-- Binding an argument brings about the inputs that it refers to. -/
theorem bindArgument_ensures {i : Int} : ∀ {v : Value α}, i ∈ v.indices →
    (bindArgument v).Ensures fun g => .input i.toNat ∈ g.nodes
  | .varying j, h => by
    obtain rfl : i = j := List.mem_singleton.mp h
    exact recordInput_ensures i
  | .list _, h => .of_first (bindArguments_ensures h) fun _ => .pure _

theorem bindArguments_ensures {i : Int} : ∀ {vs : List (Value α)}, i ∈ Value.indicesOfAll vs →
    (bindArguments vs).Ensures fun g => .input i.toNat ∈ g.nodes
  | v :: vs, h => by
    rw [Value.indicesOfAll, List.mem_append] at h
    rcases h with h | h
    · exact .of_first (bindArgument_ensures h) fun _ => .bind (bindArguments_keep _ vs) fun _ => .pure _
    · exact .of_next fun _ => .of_first (bindArguments_ensures h) fun _ => .pure _

end

end Graph

variable [Scalar α]

/-- Building an energy brings about the inputs that its terms refer to. -/
theorem Energy.build_ensures {objectives constraints : List (ResolvedTerm α)} (scale : α)
    (penalty : TermFunction α) {t : ResolvedTerm α} (ht : t ∈ objectives ++ constraints) {i : Int}
    (hi : i ∈ t.term.indices) :
    (build objectives constraints scale penalty).Ensures fun g => .input i.toNat ∈ g.nodes := by
  have persists := Graph.persists_mem (α := α) (fun _ => True) (.input i.toNat)
  have hterm : t.record.Ensures fun g => .input i.toNat ∈ g.nodes := by
    rw [ResolvedTerm.record_eq]
    exact .of_first (Graph.bindArguments_ensures hi) (t.applied_preserves persists)
  have stays (t : ResolvedTerm α) := t.record_preserves persists fun _ _ _ => trivial
  have stays' (t : ResolvedTerm α) := t.penalized_preserves persists penalty fun _ _ _ => trivial
  rcases List.mem_append.mp ht with ht | ht
  · refine .of_first (.mapM ht hterm fun t _ => stays t) fun _ => ?_
    exact .bind (.mapM fun t _ => stays' t) fun _ => (combine_preserves persists _ _ _).node
  · refine .of_next fun _ => .of_first ?_ fun _ => (combine_preserves persists _ _ _).node
    exact .mapM ht (.of_first hterm fun _ => Formula.record_preserves persists _) fun t _ => stays' t

/-- The inputs of an energy are the variables that its terms refer to, each once. -/
theorem Energy.compile_inputs_iff {p : Problem α} {library : Library α} {scale : α}
    {penalty : TermFunction α} {e : Energy α} (h : compile p library scale penalty = .ok e) (i : Int) :
    (∃ n ∈ e.graph.nodes.filterMap Node.input?, (n : Int) = i) ↔
      ∃ t ∈ p.objectives ++ p.constraints, i ∈ t.indices := by
  constructor
  · rintro ⟨n, hn, rfl⟩
    exact compile_inputs h n (Graph.mem_inputs_iff.mp hn)
  · rintro ⟨t, ht, hi⟩
    obtain ⟨objectives, constraints, hresolve, hbuild, _⟩ := compile_eq_ok h
    obtain ⟨hos, hcs⟩ := Problem.terms_of_resolve hresolve
    have hnonneg := (Problem.indices_of_resolve hresolve t ht i hi).1
    rw [← hos, ← hcs, ← List.map_append] at ht
    obtain ⟨r, hr, rfl⟩ := List.mem_map.mp ht
    have hinput := build_ensures scale penalty hr hi _ _ _ hbuild
    exact ⟨i.toNat, Graph.mem_inputs_iff.mpr hinput, Int.toNat_of_nonneg hnonneg⟩

/-! ## Terms -/

/-- Every term of a compiled problem has a meaning on every graph. -/
theorem Energy.terms_mean {objectives constraints : List (ResolvedTerm α)} {scale : α}
    {count number out : Nat} {g : Graph α} (M : Meaning α β)
    (hready : ∀ t ∈ objectives ++ constraints, t.Ready (fun _ => true) count number)
    (hbuild : (build objectives constraints scale defaultPenalty).on { number } = (.ok out, g)) :
    g.Sound (· < count) ∧ ∀ t ∈ objectives ++ constraints, ∃ b, t.Means (· < count) M b := by
  have hterm : ∀ t ∈ objectives ++ constraints, ∀ g' : Graph α, g'.Sound (· < count) →
      Graph.Grows { number } g' → t.record.Keeps (· < count) g' fun g'' w =>
        ∃ b, t.Means (· < count) M b ∧ M.Denotes g'' w b := by
    intro t ht g' sound grows
    have hnumber : g'.number = number := grows.number
    exact ResolvedTerm.record_means ⟨rfl, rfl, rfl⟩ (hnumber ▸ hready t ht) sound
  have hkeeps := build_keeps (M := M) (Q := fun c q => q = M.penalty c) scale
    (Graph.sound_empty _ number) hterm fun _ sound _ _ hw => defaultPenalty_reads sound hw
  obtain ⟨sound, _, bs, cs, _, _, hbs, hcs, _⟩ := hkeeps.of_ok hbuild
  refine ⟨sound, fun t ht => ?_⟩
  rcases List.mem_append.mp ht with ht | ht
  · obtain ⟨b, _, hb⟩ := exists_left_of_forall₂ hbs.flip ht
    exact ⟨b, hb⟩
  · obtain ⟨c, _, hc⟩ := exists_left_of_forall₂ hcs.flip ht
    exact ⟨c, hc⟩

/-- A term alone has a value and a gradient wherever its variables are. -/
def TermEnergy.Evaluates (count : Nat) (t : TermEnergy α) : Prop :=
  ∀ xs : List α, xs.length = count → (∃ y, t.value xs = .ok y) ∧ ∃ r, t.gradient xs = .ok r

/-- Terms that mean something are compiled alone, each under its key, and have values. -/
theorem TermEnergy.mapM_entry (kind : TermKind) {count : Nat} {M : Meaning α β}
    {terms : List (ResolvedTerm α)} (h : ∀ t ∈ terms, ∃ b, t.Means (· < count) M b) :
    ∃ entries, terms.mapM (entry kind) = .ok entries ∧ List.Forall₂
      (fun t x => x.1 = kind.key ++ ":" ++ t.term.text ∧ x.2.Evaluates count) terms entries := by
  induction terms with
  | nil => exact ⟨[], rfl, .nil⟩
  | cons t terms ih =>
    obtain ⟨⟨b, hb⟩, hterms⟩ := List.forall_mem_cons.mp h
    obtain ⟨entries, hentries, hall⟩ := ih hterms
    obtain ⟨e, he, sound, hlt, _⟩ := hb.compile
    obtain ⟨hname, -⟩ := compile_eq_ok he
    have hentry : entry kind t = .ok (kind.key ++ ":" ++ e.name, e) :=
      bind_eq_ok_iff.mpr ⟨e, he, rfl⟩
    refine ⟨_ :: entries, mapM_eq_ok_iff.mpr (.cons hentry (mapM_eq_ok_iff.mp hentries)), ?_⟩
    refine .cons ⟨by rw [hname], fun xs hxs => ?_⟩ hall
    have within : e.graph.Within (· < xs.length) := hxs ▸ sound.inputs_allowed
    exact ⟨Graph.forward_of_within within hlt, Graph.gradient_of_within within hlt⟩

/-- The terms of a problem, each alone. -/
theorem Problem.compileTerms_eq_ok {p : Problem α} {library : Library α} {count : Nat}
    {M : Meaning α β} {objectives constraints : List (ResolvedTerm α)}
    (hresolve : p.resolve library = .ok (objectives, constraints))
    (hmeans : ∀ t ∈ objectives ++ constraints, ∃ b, t.Means (· < count) M b) :
    ∃ terms, p.compileTerms library = .ok terms ∧ (∀ x ∈ terms, x.2.Evaluates count) ∧
      (∀ t ∈ p.objectives, ∃ x, (TermKind.objective.key ++ ":" ++ t.text, x) ∈ terms) ∧
      ∀ t ∈ p.constraints, ∃ x, (TermKind.constraint.key ++ ":" ++ t.text, x) ∈ terms := by
  obtain ⟨hos, hcs⟩ := resolve_eq_ok hresolve
  obtain ⟨hobjectives, hconstraints⟩ := List.forall_mem_append.mp hmeans
  obtain ⟨first, hfirst, hfirsts⟩ := TermEnergy.mapM_entry .objective hobjectives
  obtain ⟨second, hsecond, hseconds⟩ := TermEnergy.mapM_entry .constraint hconstraints
  have hcompile : p.compileTerms library = .ok (Keyed.ofList (first ++ second)) := by
    simp [compileTerms, hresolve, hfirst, hsecond, bind, Except.bind, pure, Except.pure]
  have hkey {kind : TermKind} {functions : Dictionary α} {ts : List (Term α)}
      {rs : List (ResolvedTerm α)} {entries : List (String × TermEnergy α)}
      (hrs : List.Forall₂ (fun t r => t.resolve kind functions p.count = .ok r) ts rs)
      (hentries : List.Forall₂ (fun t x => x.1 = kind.key ++ ":" ++ t.term.text ∧
        x.2.Evaluates count) rs entries) {t : Term α} (ht : t ∈ ts) :
      ∃ x, (kind.key ++ ":" ++ t.text, x) ∈ entries := by
    obtain ⟨r, hr, hresolved⟩ := exists_left_of_forall₂ hrs.flip ht
    obtain ⟨⟨key, x⟩, hx, hname, _⟩ := exists_left_of_forall₂ hentries.flip hr
    obtain rfl := (Term.resolve_eq_ok hresolved).1
    obtain rfl : key = _ := hname
    exact ⟨x, hx⟩
  refine ⟨_, hcompile, fun x hx => ?_, fun t ht => ?_, fun t ht => ?_⟩
  · rcases List.mem_append.mp (Keyed.mem_ofList hx) with hx | hx
    · exact forall_right_of_forall₂ hfirsts (fun _ _ h => h.2) x hx
    · exact forall_right_of_forall₂ hseconds (fun _ _ h => h.2) x hx
  · obtain ⟨x, hx⟩ := hkey hos hfirsts ht
    exact Keyed.exists_mem_ofList (List.mem_append_left _ hx)
  · obtain ⟨x, hx⟩ := hkey hcs hseconds ht
    exact Keyed.exists_mem_ofList (List.mem_append_right _ hx)

/-- A problem that is compiled has a value and a gradient at every finite weight and every vector of
its variables. The inputs of its graph are the variables that its terms refer to. The problem is
compiled term by term as well, and every term has a value and a gradient everywhere. -/
theorem Energy.compile_accepts {p : Problem α} {library : Library α}
    (hlibrary : library.Composed fun _ => true) {scale : α} {e : Energy α}
    (h : compile p library scale defaultPenalty = .ok e) :
    (∀ weight xs, Scalar.isFinite weight = true → (xs.length : Int) = p.count →
      ∃ f y g, e.atWeight weight = .ok f ∧ f.value xs = .ok y ∧ f.gradient xs = .ok g ∧
        (g.length : Int) = p.count) ∧
    (e.graph.nodes.filterMap Node.input?).Nodup ∧
    (∀ i : Int, (∃ n ∈ e.graph.nodes.filterMap Node.input?, (n : Int) = i) ↔
      ∃ t ∈ p.objectives ++ p.constraints, i ∈ t.indices) ∧
    ∃ terms, p.compileTerms library = .ok terms ∧
      (∀ t ∈ p.objectives, ∃ x, (TermKind.objective.key ++ ":" ++ t.text, x) ∈ terms) ∧
      (∀ t ∈ p.constraints, ∃ x, (TermKind.constraint.key ++ ":" ++ t.text, x) ∈ terms) ∧
      ∀ x ∈ terms, ∀ xs : List α, (xs.length : Int) = p.count →
        (∃ y, x.2.value xs = .ok y) ∧ ∃ r, x.2.gradient xs = .ok r := by
  obtain ⟨objectives, constraints, hresolve, hbuild, hcount, _, hnonneg⟩ := compile_eq_ok h
  have hlength {xs : List α} (hxs : (xs.length : Int) = p.count) : xs.length = e.count := by omega
  have hready := Problem.resolve_ready hlibrary hresolve
  rw [← hcount] at hready
  obtain ⟨sound, hmeans⟩ := terms_mean (Meaning.values { inputs := [] }) hready hbuild
  obtain ⟨terms, hterms, hevaluates, hobjectives, hconstraints⟩ :=
    Problem.compileTerms_eq_ok hresolve hmeans
  refine ⟨fun weight xs hweight hxs => ?_, sound.wellFormed.nodup_inputs, compile_inputs_iff h, terms,
    hterms, hobjectives, hconstraints, fun x hx xs hxs => hevaluates x hx xs (hlength hxs)⟩
  have evaluable := compile_evaluable h
  obtain ⟨y, hy⟩ := evaluable.value (e := ⟨e, weight⟩) (hlength hxs)
  obtain ⟨g, hg, hentries⟩ := evaluable.gradient (e := ⟨e, weight⟩) (hlength hxs)
  have hentries : g.length = e.count := hentries
  exact ⟨⟨e, weight⟩, y, g, atWeight_eq hweight, hy, hg, by omega⟩

/-- The squares of both constraints and the objective have values at (2, 0). -/
theorem threeButAtMostOne_accepted :
    ∃ e terms f y g, Energy.compile threeButAtMostOne Catalog.library 2 Energy.defaultPenalty =
        .ok e ∧ threeButAtMostOne.compileTerms Catalog.library = .ok terms ∧
      e.atWeight 5 = .ok f ∧ f.value [2, 0] = .ok y ∧ f.gradient [2, 0] = .ok g ∧
      (g.length : Int) = 2 := by
  have hcompiled : (Energy.compile threeButAtMostOne Catalog.library 2
      Energy.defaultPenalty).isOk = true := by decide +kernel
  cases hcompile : Energy.compile threeButAtMostOne Catalog.library 2 Energy.defaultPenalty with
  | error fault => rw [hcompile] at hcompiled; cases hcompiled
  | ok e =>
    obtain ⟨hvalues, _, _, terms, hterms, _⟩ :=
      Energy.compile_accepts (Catalog.library_composed _) hcompile
    obtain ⟨f, y, g, hf, hy, hg, hlength⟩ := hvalues 5 [2, 0] rfl rfl
    exact ⟨e, terms, f, y, g, rfl, hterms, hf, hy, hg, hlength⟩

end DiagramLayout
