import DiagramLayout.Graph.Workspace
import DiagramLayout.Proofs.Graph.Arena
import DiagramLayout.Proofs.Graph.Construction
import DiagramLayout.Proofs.Graph.Owned
import DiagramLayout.Scalar.Double

/-!
# Graphs in one workspace

Values can hold handles of several graphs. What is computed with them adds nodes to some of the graphs,
also if it fails half way, and every handle keeps naming what it named.

* `Workspace.Covers`: the handles of a value all have nodes;
* `Workspace.construct`: one step of building graphs; `Workspace.Leads`: several, and passes in between;
* `Workspace.Keeps`: what a step keeps; `Workspace.construct_keeps`, `Workspace.Leads.keeps`;
* `Workspace.arenas_stand`: the lists and tables of all graphs, and what handles express.
-/

namespace DiagramLayout

variable {α β γ : Type}

namespace Workspace

/-- The graph with a number. -/
def graph (w : Workspace α) (number : Nat) : Graph α := (w.tape number).graph

variable {w w' w'' : Workspace α}

theorem graph_number (w : Workspace α) (number : Nat) : (w.graph number).number = number := by
  rw [graph, tape]
  cases hfind : w.tapes.find? (·.graph.number == number) with
  | none => rfl
  | some t => exact eq_of_beq (List.find?_some (p := fun t : Tape α => t.graph.number == number) hfind)

theorem tape_put (w : Workspace α) (t : Tape α) (number : Nat) :
    (w.put t).tape number = if number = t.graph.number then t else w.tape number := by
  by_cases hnumber : number = t.graph.number
  · simp [tape, put, hnumber]
  · simp only [tape, put, List.find?_cons, beq_false_of_ne (Ne.symm hnumber), List.find?_filter,
      if_neg hnumber]
    congr 2
    funext other
    by_cases hother : other.graph.number = number
    · simp [hother, hnumber]
    · simp [hother]

theorem graph_put (w : Workspace α) {t : Tape α} {number : Nat} (ht : t.graph.number = number)
    (n : Nat) : (w.put t).graph n = if n = number then t.graph else w.graph n := by
  rw [graph, tape_put, ht, graph]
  split <;> rfl

/-- Every graph is another with nodes on top. -/
def Grows (w w' : Workspace α) : Prop := ∀ n, (w.graph n).Grows (w'.graph n)

theorem Grows.refl (w : Workspace α) : w.Grows w := fun _ => .refl _

theorem Grows.trans (h : w.Grows w') (h' : w'.Grows w'') : w.Grows w'' := fun n => (h n).trans (h' n)

/-- All graphs are well formed. -/
def Sound (w : Workspace α) : Prop := ∀ n, (w.graph n).Sound fun _ => True

/-- The handles stand for themselves that have nodes. -/
def Knows (w : Workspace α) : Correspondence α :=
  fun h v => v = .handle h ∧ h.node < (w.graph h.graph).size

/-- All handles of a value have nodes. -/
def Covers (w : Workspace α) (v : Value α) : Prop := ∀ h ∈ v.handles, h.node < (w.graph h.graph).size

theorem covers_handle {h : Handle} (hlt : h.node < (w.graph h.graph).size) : w.Covers (.handle h) := by
  intro h' hh
  rw [List.mem_singleton.mp hh]
  exact hlt

theorem covers_iff {v : Value α} : w.Covers v ↔ v.Agrees .handle w.Knows v := by
  rw [Value.agrees_self_iff]
  exact forall₂_congr fun h _ => (and_iff_right rfl).symm

theorem coversAll_iff {vs : List (Value α)} :
    (∀ v ∈ vs, w.Covers v) ↔ Value.AgreeAll .handle w.Knows vs vs := by
  refine Iff.trans ?_ List.forall₂_same.symm
  exact forall₂_congr fun v _ => covers_iff

theorem knows_le (w : Workspace α) (n : Nat) : w.Knows ≤ (w.graph n).Knows := by
  rintro h v ⟨rfl, hlt⟩
  refine ⟨rfl, fun hown => ?_⟩
  rw [hown, graph_number] at hlt
  exact hlt

theorem Grows.knows (grows : w.Grows w') : w.Knows ≤ w'.Knows := by
  rintro h v ⟨rfl, hlt⟩
  exact ⟨rfl, Nat.lt_of_lt_of_le hlt (grows h.graph).size_le⟩

theorem covers_of_owns {n : Nat} {v : Value α} (h : (w.graph n).Owns v) : w.Covers v := by
  intro handle hhandle
  obtain ⟨hown, hlt⟩ := h handle hhandle
  rw [hown, graph_number]
  exact hlt

/-! ## Steps -/

/-- A step keeps all graphs sound and only adds to them, and its result has a property. -/
structure Keeps (w : Workspace α) (step : Except Fault β × Workspace α)
    (result : Workspace α → β → Prop) : Prop where
  sound : step.2.Sound
  grows : w.Grows step.2
  result : ∀ b, step.1 = .ok b → result step.2 b

variable {P : Workspace α → β → Prop}

theorem Keeps.stay (sound : w.Sound) {outcome : Except Fault β} (h : ∀ b, outcome = .ok b → P w b) :
    w.Keeps (outcome, w) P := ⟨sound, .refl w, h⟩

/-- A recording on one graph leaves the others as they are. -/
theorem record_keeps (sound : w.Sound) {number : Nat} {r : Recording α β} {Q : Graph α → β → Prop}
    (h : r.Keeps (fun _ => True) (w.graph number) Q) :
    w.Keeps (w.record number r) fun w' b => Q (w'.graph number) b := by
  have hstep : w.record number r = ((r.on (w.graph number)).1,
      w.put { w.tape number with graph := (r.on (w.graph number)).2 }) := rfl
  have hgraph := graph_put w (t := { w.tape number with graph := (r.on (w.graph number)).2 })
    (h.grows.number.trans (graph_number w number))
  refine ⟨fun n => ?_, fun n => ?_, fun b hb => ?_⟩
  · rw [hstep, hgraph]
    by_cases hn : n = number
    · rw [if_pos hn]
      exact h.sound
    · rw [if_neg hn]
      exact sound n
  · rw [hstep, hgraph]
    by_cases hn : n = number
    · rw [if_pos hn, hn]
      exact h.grows
    · rw [if_neg hn]
      exact .refl _
  · rw [hstep, hgraph, if_pos rfl]
    exact h.result b hb

variable [Scalar α]

/-- A formula that treats handles alike keeps all graphs sound. -/
theorem run_keeps {rel : Correspondence α → β → γ → Prop} {m : Formula α β} {n : Formula α γ}
    (agrees : Formula.Agrees .handle rel w.Knows m n) (sound : w.Sound) :
    w.Keeps (run m w) fun w' b => ∃ c, rel w'.Knows b c := by
  induction m generalizing w n with
  | done b =>
    cases agrees with
    | done h =>
      refine .stay sound ?_
      intro b' hb
      cases hb
      exact ⟨_, h⟩
  | fault e => exact .stay sound fun _ hb => by cases hb
  | operate op vs next ih =>
    cases agrees with
    | @operate _ _ _ ws _ next' takes operands hnext =>
      have hsame : ws = vs := (Value.AgreeAll.mono (w.knows_le 0) operands).eq_of_knows
      subst hsame
      cases hfirst : ws.findSome? Value.graph? with
      | none =>
        cases hresult : op.onNumbers ws with
        | error e =>
          simp only [run, hfirst, hresult]
          exact .stay sound fun _ hb => by cases hb
        | ok v =>
          simp only [run, hfirst, hresult]
          obtain ⟨_, _, hv⟩ := bind_eq_ok_iff.mp hresult
          cases hv
          exact ih _ (hnext _ _ _ le_rfl (.number _)) sound
      | some number =>
        have hkept := record_keeps sound (Graph.recordOperation_keeps (sound number) takes
          (Value.AgreeAll.mono (w.knows_le number) operands))
        simp only [run, hfirst]
        rcases hstep : w.record number (Graph.recordOperation op ws) with ⟨result, w'⟩
        rw [hstep] at hkept
        cases result with
        | error e => exact ⟨hkept.sound, hkept.grows, fun _ hb => by cases hb⟩
        | ok v =>
          have hv : v.Agrees .handle w'.Knows v :=
            covers_iff.mp (covers_of_owns (hkept.result v rfl).owns)
          obtain ⟨sound', grows', result'⟩ := ih v (hnext w'.Knows v v hkept.grows.knows hv) hkept.sound
          exact ⟨sound', hkept.grows.trans grows', result'⟩

/-- A step of building graphs: the graph with a number is asked for a node, or a function is called,
whose operations go to the graphs of the handles. -/
def construct (w : Workspace α) (number : Nat) : Construction α → Except Fault (Value α) × Workspace α
  | .call f arguments => run (f.call arguments) w
  | .term f arguments => run (f.call arguments) w
  | c => w.record number c.record

/-- A step that names only nodes that are there, and operations with as many operands as they take. -/
def Admits (w : Workspace α) : Construction α → Prop
  | .constant _ | .input _ | .slot .. => True
  | .lift v => w.Covers v
  | .operation op operands => op.Takes operands.length ∧ ∀ v ∈ operands, w.Covers v
  | .call _ arguments | .bind arguments => ∀ v ∈ arguments, w.Covers v
  | .term f arguments => (f.Composed fun _ => true) ∧ ∀ v ∈ arguments, w.Covers v

omit [Scalar α] in
theorem record_owned_keeps (sound : w.Sound) {number : Nat} {r : Recording α (Value α)}
    (h : r.Keeps (fun _ => True) (w.graph number) Graph.Owns) : w.Keeps (w.record number r) Covers :=
  have kept := record_keeps sound h
  ⟨kept.sound, kept.grows, fun v hv => covers_of_owns (kept.result v hv)⟩

theorem run_covers {m : Formula α (Value α)} (sound : w.Sound)
    (agrees : Formula.Agrees .handle (Value.Agrees .handle) w.Knows m m) : w.Keeps (run m w) Covers := by
  obtain ⟨sound', grows, result⟩ := run_keeps agrees sound
  refine ⟨sound', grows, fun v hv => ?_⟩
  obtain ⟨v', h⟩ := result v hv
  obtain rfl : v' = v := (h.mono (knows_le _ 0)).eq_of_knows
  exact covers_iff.mpr h

/-- A step keeps all graphs sound and only adds to them, also if it fails half way, and the handles of
its result have nodes. -/
theorem construct_keeps (sound : w.Sound) (number : Nat) (c : Construction α) (admits : w.Admits c) :
    w.Keeps (w.construct number c) Covers := by
  have hknown {vs : List (Value α)} (h : ∀ v ∈ vs, w.Covers v) : Value.AllKnown (w.graph number) vs :=
    Value.AgreeAll.mono (w.knows_le number) (coversAll_iff.mp h)
  cases c with
  | constant v =>
    refine record_owned_keeps sound ((Graph.recordConst_keeps (sound number) v).mono ?_)
    rintro _ _ ⟨_, _, rfl, _, names⟩
    exact names.owns
  | input index =>
    refine record_owned_keeps sound ((Graph.recordInput_keeps (sound number) fun _ => trivial).mono ?_)
    rintro _ _ ⟨_, _, rfl, names⟩
    exact names.owns
  | slot name default =>
    refine record_owned_keeps sound ((Graph.recordSlot_keeps (sound number) name default).mono ?_)
    rintro _ _ ⟨_, _, rfl, names⟩
    exact names.owns
  | lift v =>
    exact record_owned_keeps sound (Graph.lift_owns (sound number)
      (Value.Agrees.mono (w.knows_le number) (covers_iff.mp admits)))
  | operation op operands =>
    exact record_owned_keeps sound ((Graph.recordOperation_keeps (sound number) admits.1
      (hknown admits.2)).mono fun _ _ h => h.owns)
  | bind arguments =>
    refine record_owned_keeps sound ((Graph.bindArguments_keeps (sound number) (fun _ _ _ => trivial)
      (hknown admits)).bind ?_)
    intro g' ws sound' _ h
    exact .pure sound' (Graph.owns_list (Graph.Bound.all_owned h))
  | call f arguments =>
    exact run_covers sound (Function.call_agrees f (fun h => by cases h) (coversAll_iff.mp admits))
  | term f arguments =>
    exact run_covers sound (admits.1.call_agrees (fun h => by cases h) (coversAll_iff.mp admits.2))

/-! ## Runs -/

/-- What steps lead to, also those that fail half way, and passes over the graphs. -/
inductive Leads : Workspace α → Workspace α → Prop where
  | refl (w : Workspace α) : Leads w w
  | construct {w w' : Workspace α} (number : Nat) (c : Construction α) : Leads w w' → w'.Admits c →
      Leads w (w'.construct number c).2
  | pass {w w' : Workspace α} (number : Nat) (p : Point α) (position : Int) : Leads w w' →
      Leads w (w'.put ((w'.tape number).forwardAt p position).2)
  | reset {w w' : Workspace α} (number : Nat) : Leads w w' → Leads w (w'.put (w'.tape number).reset)

omit [Scalar α] in
theorem sound_empty : ({} : Workspace α).Sound := fun n => Graph.sound_empty _ n

omit [Scalar α] in
/-- Other values for the nodes of a graph. -/
theorem graph_put_same {number : Nat} {t : Tape α} (h : t.graph = w.graph number) (n : Nat) :
    (w.put t).graph n = w.graph n := by
  have ht : t.graph.number = number := h ▸ graph_number w number
  rw [graph_put w ht]
  split
  · next hn => rw [h, hn]
  · rfl

theorem graph_forwardAt (t : Tape α) (p : Point α) (position : Int) :
    (t.forwardAt p position).2.graph = t.graph := by
  rw [Tape.forwardAt]
  split <;> rfl

theorem Leads.keeps (h : w.Leads w') (sound : w.Sound) : w'.Sound ∧ w.Grows w' := by
  have hput {w' : Workspace α} {number : Nat} {t : Tape α} (ht : t.graph = w'.graph number)
      (kept : w'.Sound ∧ w.Grows w') : (w'.put t).Sound ∧ w.Grows (w'.put t) := by
    constructor
    · intro n
      rw [graph_put_same ht]
      exact kept.1 n
    · intro n
      rw [graph_put_same ht]
      exact kept.2 n
  induction h with
  | refl => exact ⟨sound, .refl w⟩
  | construct number c _ admits ih =>
    obtain ⟨sound', grows⟩ := ih
    have kept := construct_keeps sound' number c admits
    exact ⟨kept.sound, grows.trans kept.grows⟩
  | pass number p position _ ih => exact hput (graph_forwardAt _ p position) ih
  | reset number _ ih => exact hput rfl ih

/-- In every workspace that steps lead to, the lists and tables of all graphs are in order, later steps
only extend them, and every handle of a result expresses one thing for as long as steps go on. -/
theorem arenas_stand (built : Leads {} w) :
    (∀ n, (w.graph n).Arranged) ∧
    (∀ later, w.Leads later → ∀ n, (w.graph n).arena.Extends (later.graph n).arena) ∧
    ∀ number c v w', w.Admits c → w.construct number c = (.ok v, w') → ∀ h ∈ v.handles, ∃ e,
      ∀ later, w'.Leads later → ∀ e', (later.graph h.graph).Expresses h.node e' ↔ e' = e := by
  obtain ⟨sound, _⟩ := built.keeps sound_empty
  refine ⟨fun n => (sound n).wellFormed.arranged, ?_, ?_⟩
  · intro later hlater n
    obtain ⟨sound', grows⟩ := hlater.keeps sound
    exact (grows n).arena_extends (sound' n).wellFormed
  · intro number c v w' admits hstep h hh
    have kept := construct_keeps sound number c admits
    rw [hstep] at kept
    obtain ⟨e, he⟩ := (kept.sound h.graph).wellFormed.ordered.exists_expression (kept.result v rfl h hh)
    refine ⟨e, fun later hlater e' => ?_⟩
    obtain ⟨sound', grows⟩ := hlater.keeps kept.sound
    exact he.iff_of_grows (grows h.graph) (sound' h.graph).wellFormed.ordered e'

/-- Two graphs with a node each, and one that a call left behind which failed on a handle of the other
graph. -/
def twoGraphs : Workspace Float :=
  let w := (({} : Workspace Float).construct 0 (.input 3)).2
  let w := (w.construct 1 (.constant (.number 2.0))).2
  (w.construct 0 (.call (.operation .choose) [.handle ⟨0, 0⟩, .number 1.0, .handle ⟨1, 0⟩])).2

theorem twoGraphs_stand : ∃ w', twoGraphs.construct 0
      (.call (.operation .mul) [.handle ⟨0, 0⟩, .number 4.0]) = (.ok (.handle ⟨0, 3⟩), w') ∧
    ∀ later, w'.Leads later →
      ∀ e, (later.graph 0).Expresses 3 e ↔ e = .apply .mul [.input 3, .const 4.0] := by
  have built : Leads {} twoGraphs := by
    refine .construct 0 _ (.construct 1 _ (.construct 0 _ (.refl _) trivial) trivial) ?_
    intro v hv
    simp only [List.mem_cons, List.not_mem_nil, or_false] at hv
    rcases hv with rfl | rfl | rfl
    · exact covers_handle (by decide +kernel)
    · exact fun _ h => by cases h
    · exact covers_handle (by decide +kernel)
  have admits : twoGraphs.Admits (.call (.operation .mul) [.handle ⟨0, 0⟩, .number 4.0]) := by
    intro v hv
    simp only [List.mem_cons, List.not_mem_nil, or_false] at hv
    rcases hv with rfl | rfl
    · exact covers_handle (by decide +kernel)
    · exact fun _ h => by cases h
  refine ⟨_, Prod.ext rfl rfl, ?_⟩
  obtain ⟨e, he⟩ := (arenas_stand built).2.2 0 _ _ _ admits (Prod.ext rfl rfl) ⟨0, 3⟩
    (List.mem_singleton_self _)
  have hexpresses : ((twoGraphs.construct 0
      (.call (.operation .mul) [.handle ⟨0, 0⟩, .number 4.0])).2.graph 0).Expresses 3
        (.apply .mul [.input 3, .const 4.0]) :=
    .apply rfl (.cons (.input rfl) (.cons (.const rfl) .nil))
  have hsame := (he _ (.refl _) _).mp hexpresses
  rw [hsame]
  exact he

end Workspace

end DiagramLayout
