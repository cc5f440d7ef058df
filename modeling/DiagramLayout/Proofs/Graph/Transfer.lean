import DiagramLayout.Proofs.Graph.Meaning

/-!
# One recording on two graphs

What is recorded on one graph can be recorded on another, with other nodes of its own, and the two
results mean the same.

* `Meaning.Alike`: meanings that differ at most in slots;
* `Graph.Matches`: handles of two graphs whose nodes mean the same;
* `Recording.Follows`: where one recording ends, so does another, and the results are related;
* `Formula.record_follows`, `Graph.bindArguments_follows`: formulas and arguments of terms.
-/

namespace DiagramLayout

variable {α β γ δ : Type}

namespace Recording

/-- Where a recording ends on its graph, another one ends on its own, and what they end with is
related. -/
def Follows (inputs : Nat → Prop) (r : Recording α γ) (r' : Recording α δ)
    (g g' : Graph α) (rel : Graph α → Graph α → γ → δ → Prop) : Prop :=
  r.Keeps inputs g fun g₁ c => r'.Yields inputs g' fun g₁' d => rel g₁ g₁' c d

variable {γ' δ' : Type} {inputs : Nat → Prop} {r : Recording α γ} {r' : Recording α δ}
  {g g' : Graph α} {rel : Graph α → Graph α → γ → δ → Prop}

theorem Follows.pure (sound : g.Sound inputs) (sound' : g'.Sound inputs) {c : γ} {d : δ}
    (h : rel g g' c d) : Follows inputs (pure c) (pure d) g g' rel :=
  Keeps.pure sound (Yields.pure sound' h)

theorem Follows.throw (sound : g.Sound inputs) (e : Fault) :
    Follows inputs (throw e) r' g g' rel := Keeps.throw sound e

theorem Follows.bind {rel' : Graph α → Graph α → γ' → δ' → Prop} {f : γ → Recording α γ'}
    {f' : δ → Recording α δ'} (h : Follows inputs r r' g g' rel)
    (next : ∀ g₁ g₁' c d, g₁.Sound inputs → g₁'.Sound inputs → g.Grows g₁ → g'.Grows g₁' →
      rel g₁ g₁' c d → Follows inputs (f c) (f' d) g₁ g₁' rel') :
    Follows inputs (r >>= f) (r' >>= f') g g' rel' := by
  refine Keeps.bind h ?_
  intro g₁ c sound grows hyields
  obtain ⟨d, g₁', hr', sound', grows', hrel⟩ := hyields
  exact (next g₁ g₁' c d sound sound' grows grows' hrel).mono fun _ _ h => h.after hr' grows'

theorem Follows.mono {rel' : Graph α → Graph α → γ → δ → Prop}
    (h : Follows inputs r r' g g' rel)
    (weaker : ∀ g₁ g₁' c d, rel g₁ g₁' c d → rel' g₁ g₁' c d) :
    Follows inputs r r' g g' rel' :=
  Keeps.mono h fun _ _ h => h.mono fun _ _ h => weaker _ _ _ _ h

end Recording

variable [Scalar α]

/-- Meanings that differ at most in slots. -/
structure Meaning.Alike (M M' : Meaning α β) : Prop where
  const : M.const = M'.const
  input : M.input = M'.input
  apply : M.apply = M'.apply

variable {M M' : Meaning α β} {inputs : Nat → Prop} {g g' g₁ g₁' : Graph α}

namespace Graph

/-- Handles of two graphs whose nodes mean the same. -/
def Matches (M M' : Meaning α β) (g g' : Graph α) : Correspondence α := fun h w =>
  ∃ b, M.Denotes g (.handle h) b ∧ M'.Denotes g' w b

theorem Matches.le (grows : g.Grows g₁) (grows' : g'.Grows g₁') :
    Matches M M' g g' ≤ Matches M M' g₁ g₁' :=
  fun _ _ ⟨b, h, h'⟩ => ⟨b, h.mono grows, h'.mono grows'⟩

theorem Matches.lt {h : Handle} {w : Value α} (hmatches : Matches M M' g g' h w) :
    h.node < g.size := by
  obtain ⟨_, ⟨_, hh, _, hlt, _⟩, _⟩ := hmatches
  cases hh
  exact hlt

end Graph

theorem Value.Agrees.of_denotes {v w : Value α} {b : β} (hv : M.Denotes g v b)
    (hw : M'.Denotes g' w b) : Value.Agrees .handle (Graph.Matches M M' g g') v w := by
  have hv' := hv
  have hw' := hw
  obtain ⟨h, rfl, _⟩ := hv'
  obtain ⟨h', rfl, _⟩ := hw'
  exact .handle trivial ⟨b, hv, hw⟩

/-- Values that agree read as the same. -/
theorem Value.Agrees.reads_eq (alike : M.Alike M') {v w : Value α} {b c : β}
    (agrees : Value.Agrees .handle (Graph.Matches M M' g g') v w) (hv : M.Reads g v b)
    (hw : M'.Reads g' w c) : b = c := by
  cases agrees with
  | handle _ hmatches =>
    obtain ⟨d, hd, hd'⟩ := hmatches
    rw [hv.unique hd.reads, hw.unique hd'.reads]
  | list _ =>
    cases hv with
    | plain _ hx => cases hx
  | _ =>
    cases hv with
    | plain _ hx =>
      cases hw with
      | plain _ hx' =>
        rw [hx] at hx'
        rw [Except.ok.inj hx', alike.const]

theorem Value.AgreeAll.reads_eq (alike : M.Alike M') {vs ws : List (Value α)} {bs cs : List β}
    (agree : Value.AgreeAll .handle (Graph.Matches M M' g g') vs ws)
    (hbs : List.Forall₂ (M.Reads g) vs bs) (hcs : List.Forall₂ (M'.Reads g') ws cs) : bs = cs := by
  induction agree generalizing bs cs with
  | nil => cases hbs; cases hcs; rfl
  | cons h _ ih =>
    cases hbs with
    | cons hb hbs =>
      cases hcs with
      | cons hc hcs => rw [h.reads_eq alike hb hc, ih hbs hcs]

/-- A value that stands in one graph can be lifted in the other. -/
theorem Value.Agrees.liftable {v w : Value α} {i : Nat}
    (agrees : Value.Agrees .handle (Graph.Matches M M' g g') v w) (hv : g₁.Stands v i) :
    g'.Liftable w := by
  cases agrees with
  | handle _ hmatches =>
    obtain ⟨_, _, h, rfl, own, hlt, _⟩ := hmatches
    exact .inl ⟨h, rfl, own, hlt⟩
  | list _ =>
    cases hv with
    | const constant _ _ => cases constant
  | _ =>
    cases hv with
    | const constant hx _ => exact .inr ⟨constant, _, hx⟩

omit [Scalar α] in
theorem Value.AgreeAll.any_graph? {R : Correspondence α} {vs ws : List (Value α)}
    (h : Value.AgreeAll .handle R vs ws) :
    vs.any (·.graph?.isSome) = ws.any (·.graph?.isSome) := by
  induction h with
  | nil => rfl
  | cons h _ ih =>
    rw [List.any_cons, List.any_cons, ih]
    cases h with
    | handle admits _ => rw [admits.graph?_isSome]; rfl
    | _ => rfl

/-- Values without handles that agree are the same, so they are the same numbers. -/
theorem Value.AgreeAll.mapM_toNumber {R : Correspondence α} {vs ws : List (Value α)}
    (h : Value.AgreeAll .handle R vs ws) (hplain : vs.any (·.graph?.isSome) = false) {xs : List α}
    (hxs : vs.mapM Value.toNumber = .ok xs) : ws.mapM Value.toNumber = .ok xs := by
  rw [mapM_eq_ok_iff] at hxs ⊢
  induction h generalizing xs with
  | nil => exact hxs
  | cons h _ ih =>
    rw [List.any_cons, Bool.or_eq_false_iff] at hplain
    cases hxs with
    | cons hx hxs =>
      refine .cons ?_ (ih hplain.2 hxs)
      cases h with
      | handle _ _ => cases hplain.1
      | list _ => cases hx
      | _ => exact hx

namespace Graph

theorem operate_follows (alike : M.Alike M') (sound : g.Sound inputs) (sound' : g'.Sound inputs)
    {op : Op} {vs ws : List (Value α)} (takes : op.Takes vs.length)
    (operands : Value.AgreeAll .handle (Matches M M' g g') vs ws) :
    Recording.Follows inputs (operate op vs) (operate op ws) g g'
      fun g₁ g₁' v w => Value.Agrees .handle (Matches M M' g₁ g₁') v w := by
  have known : Value.AllKnown g vs := Value.AgreeAll.known (fun _ _ h => h.lt) operands
  have hany := Value.AgreeAll.any_graph? operands
  obtain ⟨sound₁, grows, result⟩ := operate_keeps sound takes known
  refine ⟨sound₁, grows, fun v hv => ?_⟩
  have computed := result v hv
  obtain ⟨bs, hbs, hread⟩ := computed.reads (M := M) sound₁.wellFormed.ordered
  cases hvs : vs.any (·.graph?.isSome) with
  | true =>
    rw [operate, if_pos (hany ▸ hvs)]
    cases computed with
    | folded hplain _ => rw [hvs] at hplain; cases hplain
    | node stands names =>
      have hliftable : List.Forall₂ (fun _ w => g'.Liftable w) _ ws :=
        forall₂_of_common (fun _ _ _ hstands h => h.liftable hstands) stands operands
      have liftable : ∀ w ∈ ws, g'.Liftable w := forall_right_of_forall₂ hliftable fun _ _ h => h
      obtain ⟨w, g₁', hw, sound₁', grows', computed'⟩ :=
        recordOperation_yields sound' (operands.length_eq ▸ takes) liftable
      refine ⟨w, g₁', hw, sound₁', grows', ?_⟩
      obtain ⟨cs, hcs, hread'⟩ := computed'.reads (M := M') sound₁'.wellFormed.ordered
      have operands' := Value.AgreeAll.mono (Matches.le grows grows') operands
      rw [Value.AgreeAll.reads_eq alike operands' hbs hcs, alike.apply] at hread
      cases computed' with
      | folded hplain _ => rw [← hany, hvs] at hplain; cases hplain
      | node _ _ => exact .of_denotes hread.denotes hread'.denotes
  | false =>
    have hleft : (Recording.ofExcept (op.onNumbers vs) : Recording α _).on g =
        (operate op vs).on g := by rw [operate, if_neg (by simp [hvs])]
    rw [operate, if_neg (by simp [← hany, hvs])]
    rw [← hleft] at hv
    obtain ⟨xs, hxs, hv⟩ := bind_eq_ok_iff.mp hv
    cases hv
    have hright : op.onNumbers ws = .ok (.number (op.eval xs)) :=
      bind_eq_ok_iff.mpr ⟨xs, Value.AgreeAll.mapM_toNumber operands hvs hxs, rfl⟩
    exact ⟨_, g', by rw [Recording.on_ofExcept, hright], sound', .refl g', .number _⟩

/-- A value and what agrees with it are lifted to nodes that mean the same. -/
theorem lift_follows (alike : M.Alike M') (sound : g.Sound inputs) (sound' : g'.Sound inputs)
    {v w : Value α} (agrees : Value.Agrees .handle (Matches M M' g g') v w)
    (hlist : v.isList = false) :
    Recording.Follows inputs (lift v) (lift w) g g'
      fun g₁ g₁' u u' => ∃ b, M.Denotes g₁ u b ∧ M'.Denotes g₁' u' b := by
  obtain ⟨sound₁, grows, result⟩ := lift_keeps sound (agrees.known fun _ _ h => h.lt)
  refine ⟨sound₁, grows, fun u hu => ?_⟩
  cases result u hu with
  | list _ => cases hlist
  | node stands =>
    obtain ⟨u', g₁', hu', sound₁', grows', lifted⟩ := lift_yields sound' (agrees.liftable stands)
    have hread := stands.reads (M := M) sound₁.wellFormed.ordered
    refine ⟨u', g₁', hu', sound₁', grows', ?_⟩
    cases lifted with
    | list _ => rw [agrees.isList] at hlist; cases hlist
    | node stands' =>
      have hread' := stands'.reads (M := M') sound₁'.wellFormed.ordered
      have hsame := (agrees.mono (Graph.Matches.le grows grows')).reads_eq alike hread hread'
      exact ⟨_, ⟨_, rfl, rfl, stands.lt, rfl⟩, ⟨_, rfl, rfl, stands'.lt, hsame.symm⟩⟩

end Graph

theorem Formula.record_follows (alike : M.Alike M') {rel : Correspondence α → γ → δ → Prop}
    {m : Formula α γ} {n : Formula α δ}
    (agrees : Formula.Agrees .handle rel (Graph.Matches M M' g g') m n) (sound : g.Sound inputs)
    (sound' : g'.Sound inputs) :
    Recording.Follows inputs m.record n.record g g'
      fun g₁ g₁' b c => rel (Graph.Matches M M' g₁ g₁') b c := by
  induction m generalizing g g' n with
  | done b =>
    cases agrees with
    | done h => exact .pure sound sound' h
  | fault e => exact .throw sound e
  | operate op vs next ih =>
    cases agrees with
    | operate takes operands hnext =>
      refine (Graph.operate_follows alike sound sound' takes operands).bind ?_
      intro g₁ g₁' v w sound₁ sound₁' grows grows' hvw
      exact ih v (hnext _ v w (Graph.Matches.le grows grows') hvw) sound₁ sound₁'

/-! ## Arguments of terms -/

namespace Graph

mutual

theorem bindArgument_follows {g g' : Graph α} (alike : M.Alike M') (sound : g.Sound inputs)
    (sound' : g'.Sound inputs) : ∀ {v : Value α}, (∀ i ∈ v.indices, 0 ≤ i → inputs i.toNat) →
      v.nextGraph ≤ g.number →
        Recording.Follows inputs (bindArgument v) (bindArgument v) g g'
          fun g₁ g₁' w w' => Value.Agrees .handle (Matches M M' g₁ g₁') w w'
  | .varying i, allowed, _ => by
    have allowed := allowed i (by simp [Value.indices])
    obtain ⟨sound₁, grows, result⟩ := recordInput_keeps sound allowed
    refine ⟨sound₁, grows, fun w hw => ?_⟩
    obtain ⟨hi, h, rfl, names⟩ := result w hw
    have hon := on_recordInput i g'
    rw [if_neg (by omega)] at hon
    obtain ⟨sound₁', grows', names'⟩ := input_sound sound' (allowed hi)
    refine ⟨_, _, hon, sound₁', grows', ?_⟩
    have hread := names.reads (M := M) sound₁.wellFormed.ordered
    have hread' := names'.reads (M := M') sound₁'.wellFormed.ordered
    rw [Meaning.node, alike.input] at hread
    exact .of_denotes hread.denotes hread'.denotes
  | .list vs, allowed, foreign => by
    unfold bindArgument
    exact (bindArguments_follows alike sound sound' allowed foreign).bind
      fun _ _ _ _ sound₁ sound₁' _ _ h => .pure sound₁ sound₁' (.list h)
  | .truth _, _, _ => .throw sound _
  | .text _, _, _ => .throw sound _
  | .absent, _, _ => .throw sound _
  | .number x, _, _ => (lift_follows alike sound sound' (.number x) rfl).mono
      fun _ _ _ _ ⟨_, h, h'⟩ => .of_denotes h h'
  | .integer n, _, _ => (lift_follows alike sound sound' (.integer n) rfl).mono
      fun _ _ _ _ ⟨_, h, h'⟩ => .of_denotes h h'
  | .handle h, _, foreign => by
    have hforeign : h.graph ≠ g.number := by
      rw [Value.nextGraph] at foreign
      omega
    have hon : (lift (.handle h : Value α)).on g = (.error (.violated .ownHandle), g) := by
      rw [lift, Recording.on_bind, on_own, if_neg hforeign]
    exact .of_on hon sound (.refl g) fun _ hw => by cases hw

theorem bindArguments_follows {g g' : Graph α} (alike : M.Alike M') (sound : g.Sound inputs)
    (sound' : g'.Sound inputs) : ∀ {vs : List (Value α)},
      (∀ i ∈ Value.indicesOfAll vs, 0 ≤ i → inputs i.toNat) → Value.nextGraphOfAll vs ≤ g.number →
        Recording.Follows inputs (bindArguments vs) (bindArguments vs) g g'
          fun g₁ g₁' ws ws' => Value.AgreeAll .handle (Matches M M' g₁ g₁') ws ws'
  | [], _, _ => .pure sound sound' .nil
  | v :: vs, allowed, foreign => by
    simp only [Value.indicesOfAll, List.mem_append] at allowed
    rw [Value.nextGraphOfAll] at foreign
    unfold bindArguments
    refine (bindArgument_follows alike sound sound' (fun i hi => allowed i (.inl hi))
      (by omega)).bind ?_
    intro g₁ g₁' w w' sound₁ sound₁' grows grows' hw
    refine (bindArguments_follows alike sound₁ sound₁' (fun i hi => allowed i (.inr hi))
      (by rw [grows.number]; omega)).bind ?_
    intro g₂ g₂' ws ws' sound₂ sound₂' grows₂ grows₂' hws
    exact .pure sound₂ sound₂' (.cons (hw.mono (Matches.le grows₂ grows₂')) hws)

end

end Graph

end DiagramLayout
