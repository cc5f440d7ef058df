import DiagramLayout.Proofs.Graph.Inputs
import DiagramLayout.Proofs.Lbfgs.Still
import DiagramLayout.Proofs.Optimizer.Memory

/-!
# Variables without a term

A variable that no term refers to has no slope, no part in the memory and none in a direction, so it
stays where it was.
-/

namespace DiagramLayout

namespace Event

variable {α : Type}

theorem visited_change (old new : Status) : visited (Event.change old new : List (Event α)) = [] := by
  unfold change
  split <;> rfl

theorem visited_sinceRound_subset (log : List (Event α)) : visited (sinceRound log) ⊆ visited log := by
  have hsuffix : sinceRound log <:+ log := by
    have hrecent := (log.reverse.takeWhile_prefix fun event => !event.opensRound)
    simpa [sinceRound] using List.reverse_suffix.mpr hrecent
  obtain ⟨before, hbefore⟩ := hsuffix
  rw [← hbefore, visited_append, hbefore]
  exact List.subset_append_left _ _

end Event

variable {α : Type} [RingScalar α]

namespace Optimizer

open Event (visited sinceRound)
open Vec (ZeroAt)

variable {o : Optimizer α} {s s₀ s' : State α} {e : WeightedEnergy α} {m memory : Lbfgs.Memory α}
  {path : List (List α)} {xs start : List α} {log events : List (Event α)} {j : Nat} {a : α}

/-! ## Phases -/

/-- Without a slope along a variable the gradient is zero there. -/
theorem gradient_zeroAt {g : List α} (hnone : .input j ∉ e.energy.graph.nodes)
    (hlength : xs.length = e.energy.count) (hxs : xs[j]? = some a) (hg : e.gradient xs = .ok g) :
    ZeroAt j g := by
  have hj : j < xs.length := (List.getElem?_eq_some_iff.mp hxs).1
  have hj' : j < g.length := by rwa [WeightedEnergy.length_gradient hg, ← hlength]
  rw [ZeroAt, WeightedEnergy.gradient_of_no_input hnone hg hj', RingScalar.zero_literal]

/-- At a point of a path along which a variable stands still neither slope has a part of it. -/
theorem IsReading.still {r : Reading α} (reading : IsReading e m xs r) (h : e.Recalls m path)
    (hnone : .input j ∉ e.energy.graph.nodes) (hxs : xs[j]? = some a)
    (hpath : ∀ ys ∈ path, ys[j]? = some a) :
    ZeroAt j r.slopes.gradient ∧ ZeroAt j r.slopes.direction := by
  obtain ⟨visits, holds, hgradient, hrecent⟩ := h
  have hlength := reading.length_values
  have hzero := gradient_zeroAt hnone hlength hxs reading.gradient
  have hstill : Lbfgs.Still j a (⟨xs, r.slopes.gradient⟩ :: visits) := by
    refine List.forall_mem_cons.mpr ⟨⟨hxs, hzero⟩, fun v hv => ?_⟩
    have hstate := hpath v.state (hrecent.subset (List.mem_map_of_mem hv))
    exact ⟨hstate, gradient_zeroAt hnone (holds.sizes v hv).1 hstate (hgradient v hv)⟩
  exact ⟨hzero, holds.direction_zeroAt hlength reading.length_gradient reading.direction hstill⟩

/-- Iterations leave such a variable where it is. -/
theorem Walk.still {number : Nat} (walk : Walk o s e start memory number events xs m)
    (h : e.Recalls memory path) (hstart : start.length = e.energy.count)
    (hnone : .input j ∉ e.energy.graph.nodes) (hj : start[j]? = some a)
    (hpath : ∀ ys ∈ path, ys[j]? = some a) :
    xs[j]? = some a ∧ ∀ ys ∈ visited events ++ path, ys[j]? = some a := by
  induction walk with
  | start => exact ⟨hj, hpath⟩
  | @move number events xs next m r trials step walk hiterate ih =>
    obtain ⟨hxs, hvisited⟩ := ih
    obtain ⟨reading, _, _, rfl, _⟩ := iterate_moved hiterate
    obtain ⟨_, hdirection⟩ := reading.still (walk.recalls h hstart).1 hnone hxs hvisited
    refine ⟨hdirection.getElem?_sub_scale step hxs, ?_⟩
    rw [List.append_assoc, Event.visited_append, Event.visited_append]
    simpa [row, hxs] using hvisited

/-- A phase leaves such a variable where it is, and ends without a slope along it. -/
theorem Ended.still {further : Nat} {ending : Except Interruption (Descent α)}
    (hended : Ended o s e start memory further events ending) (h : e.Recalls memory path)
    (hstart : start.length = e.energy.count) (hnone : .input j ∉ e.energy.graph.nodes)
    (hj : start[j]? = some a) (hpath : ∀ ys ∈ path, ys[j]? = some a) :
    (∀ ys ∈ visited events, ys[j]? = some a) ∧ ∀ d, ending = .ok d → d.values[j]? = some a ∧
      ZeroAt j d.reading.slopes.gradient ∧ ZeroAt j d.reading.slopes.direction := by
  cases hended with
  | settled walk _ hiterate =>
    obtain ⟨hxs, hvisited⟩ := walk.still h hstart hnone hj hpath
    have reading := (iterate_settled hiterate).1
    refine ⟨fun ys hys => hvisited ys (List.mem_append_left _ hys), ?_⟩
    rintro _ ⟨⟩
    exact ⟨hxs, reading.still (walk.recalls h hstart).1 hnone hxs hvisited⟩
  | spent walk hiterate =>
    obtain ⟨hxs, hvisited⟩ := walk.still h hstart hnone hj hpath
    obtain ⟨hnext, hvisited'⟩ := (walk.move hiterate).still h hstart hnone hj hpath
    have reading := (iterate_moved hiterate).1
    refine ⟨fun ys hys => hvisited' ys (List.mem_append_left _ hys), ?_⟩
    rintro _ ⟨⟩
    exact ⟨hnext, reading.still (walk.recalls h hstart).1 hnone hxs hvisited⟩
  | interrupted walk _ _ =>
    obtain ⟨_, hvisited⟩ := walk.still h hstart hnone hj hpath
    refine ⟨fun ys hys => hvisited ys (List.mem_append_left _ ?_), fun d hd => nomatch hd⟩
    simpa using hys

/-! ## States -/

/-- A variable has had one value all along, and the last slopes have nothing along it. -/
structure Pinned (j : Nat) (a : α) (log : List (Event α)) (s : State α) : Prop where
  value : s.values[j]? = some a
  visited : ∀ ys ∈ Event.visited log, ys[j]? = some a
  slopes : ∀ slopes, s.lastSlopes = some slopes → ZeroAt j slopes.gradient ∧ ZeroAt j slopes.direction

namespace Pinned

/-- Events other than iterations visit nothing. -/
theorem quiet (p : Pinned j a log s) (hevents : Event.visited events = []) :
    ∀ ys ∈ Event.visited (log ++ events), ys[j]? = some a := by
  rw [Event.visited_append, hevents, List.nil_append]
  exact p.visited

/-- The points of a phase, and the slopes that it ends with. -/
theorem ended (p : Pinned j a log s) (c : Coherent o s₀ log s)
    (hnone : ∀ energy, s₀.energy = some energy → .input j ∉ energy.graph.nodes)
    {e : WeightedEnergy α} {further : Nat} {ending : Except Interruption (Descent α)}
    (hrunning : s.status = .running) (he : s.objective = some e)
    (hended : Ended o s e s.values s.memory further events ending) :
    (∀ ys ∈ Event.visited (log ++ events), ys[j]? = some a) ∧
      ∀ d, ending = .ok d → d.values[j]? = some a ∧
        ZeroAt j d.reading.slopes.gradient ∧ ZeroAt j d.reading.slopes.direction := by
  obtain ⟨energy, e', henergy, hweight, he'⟩ := c.weighted (.inl hrunning)
  cases he.symm.trans he'
  obtain ⟨_, rfl⟩ := Energy.atWeight_eq_ok_iff.mp hweight
  obtain ⟨hvisited, hending⟩ := hended.still (c.running hrunning _ he)
    (c.objective_count hrunning he) (hnone energy (c.energy.symm.trans henergy)) p.value
    fun ys hys => p.visited ys (Event.visited_sinceRound_subset log hys)
  refine ⟨?_, hending⟩
  rw [Event.visited_append]
  exact List.forall_mem_append.mpr ⟨hvisited, p.visited⟩

end Pinned

/-- A step leaves a variable that no term refers to where it is. -/
theorem Stepped.pinned {budget : Nat} (h : Stepped o s budget s' events) (c : Coherent o s₀ log s)
    (hnone : ∀ energy, s₀.energy = some energy → .input j ∉ energy.graph.nodes)
    (p : Pinned j a log s) : Pinned j a (log ++ events) s' := by
  cases h with
  | idle _ => simpa using p
  | started _ _ henergy _ _ =>
    obtain ⟨energy, hready, _⟩ := c.ready
    have hcount : j < s.count := (List.getElem?_eq_some_iff.mp p.value).1
    rcases henergy with ⟨_, rfl⟩ | ⟨hnone, _⟩
    · refine ⟨p.value, p.quiet rfl, ?_⟩
      rintro _ ⟨⟩
      exact ⟨Vec.zeros_zeroAt hcount, Vec.zeros_zeroAt hcount⟩
    · rw [hready] at hnone
      cases hnone
  | @phase e further d events _ hrunning he _ hended =>
    obtain ⟨hvisited, hending⟩ := p.ended c hnone hrunning he hended
    obtain ⟨hvalue, hslopes⟩ := hending d rfl
    refine ⟨hvalue, ?_, ?_⟩
    · rw [← List.append_assoc, Event.visited_append, Event.visited_change, List.nil_append]
      exact hvisited
    · rintro _ ⟨⟩
      exact hslopes
  | converged _ _ _ => exact ⟨p.value, p.quiet rfl, p.slopes⟩
  | continued _ _ _ _ _ _ => exact ⟨p.value, p.quiet rfl, p.slopes⟩
  | @failed cause events _ hcause =>
    refine ⟨p.value, ?_, p.slopes⟩
    have hlast : visited (events ++ [.warning (.noLayout cause s.round s.weight),
        .status s.status (.failed (some cause.message))]) = visited events := by
      rw [Event.visited_append]
      rfl
    rw [Event.visited_append, hlast, ← Event.visited_append]
    rcases hcause with ⟨_, rfl⟩ | ⟨e, further, hrunning, he, _, hended⟩
    · exact p.quiet rfl
    · exact (p.ended c hnone hrunning he hended).1

/-! ## Runs -/

variable {objectives constraints : List (Term α)} {initial : Tensor α} {paths : Option (List String)}

/-- **A variable that no term refers to never moves.** In every state that steps and runs lead to it
has the value that it started with, and once there are slopes they are zero along it. This is so for
every energy, with searched and with fixed steps, and whatever becomes of the memory and the weight. -/
theorem Reached.unreferenced_still
    (hstart : (o.start objectives constraints initial paths).result = .ok s₀) (h : o.Reached s₀ s)
    (hj : ∀ t ∈ objectives ++ constraints, (j : Int) ∉ t.indices) :
    ∃ x₀, initial.flat? = some x₀ ∧ s.values.length = x₀.length ∧ s.values[j]? = x₀[j]? ∧
      ∀ slopes, s.lastSlopes = some slopes → j < x₀.length →
        slopes.gradient[j]? = some 0 ∧ slopes.direction[j]? = some 0 := by
  obtain ⟨events, hsteps⟩ := h.steps
  have history := History.start hstart
  obtain ⟨values, names, energy, hvalues, hcompile, _, hs₀⟩ := start_eq_ok hstart
  have hx₀ : initial.flat? = some s₀.values := hs₀ ▸ (startValues_eq_ok hvalues).1
  have hcount : s.count = s₀.count := (history.append hsteps).coherent.count
  refine ⟨s₀.values, hx₀, hcount, ?_⟩
  have hnone : ∀ energy, s₀.energy = some energy → .input j ∉ energy.graph.nodes := by
    rintro energy' henergy hinput
    rw [hs₀] at henergy
    cases henergy
    obtain ⟨t, ht, hindex⟩ := Energy.compile_inputs hcompile j hinput
    exact hj t ht hindex
  cases hvalue : s₀.values[j]? with
  | none =>
    have hout : s₀.values.length ≤ j := List.getElem?_eq_none_iff.mp hvalue
    refine ⟨List.getElem?_eq_none_iff.mpr (hcount.trans_le hout), fun _ _ hj' => ?_⟩
    exact absurd hj' hout.not_gt
  | some a =>
    have hpinned : Pinned j a events s := by
      refine history.keeps (P := Pinned j a) (fun store budget h hresult p => ?_) hsteps
        ⟨hvalue, by simp, by simp [hs₀]⟩
      exact (step_stepped hresult).2.pinned h.coherent hnone p
    exact ⟨hpinned.value, fun slopes hslopes _ => hpinned.slopes slopes hslopes⟩

/-- The first variable moves towards three, the second one stays at seven. -/
theorem towardsThree_unreferenced_still : ∃ s₀ s, shortSteps.Reached s₀ s ∧ s.memory.steps = 2 ∧
    s.values[0]? ≠ some 0 ∧ s.values[1]? = some 7 ∧
      ∃ slopes, s.lastSlopes = some slopes ∧ slopes.gradient[1]? = some 0 ∧
        slopes.direction[1]? = some 0 := by
  obtain ⟨s₀, s, hstart, hrun, htest⟩ := @exists_start_of_run ℚ _ shortSteps none
    [⟨"equal", [.varying 0, .number 3], .objective⟩] [] (.array [.entry 0, .entry 7]) none 1 3
    (fun _ s => s.memory.steps == 2 && decide (s.values[0]? ≠ some 0) && s.lastSlopes.isSome)
    (by decide +kernel)
  simp only [Bool.and_eq_true, beq_iff_eq, decide_eq_true_eq, Option.isSome_iff_exists] at htest
  obtain ⟨⟨hsteps, hmoved⟩, slopes, hslopes⟩ := htest
  have reached : shortSteps.Reached s₀ s := Reached.here.run none 1 3 hrun
  have hindex : ∀ t ∈ [(⟨"equal", [.varying 0, .number 3], .objective⟩ : Term ℚ)] ++ [],
      ((1 : Nat) : Int) ∉ t.indices := by
    simp [Term.indices, Value.indicesOfAll, Value.indices]
  obtain ⟨x₀, hx₀, _, hvalue, hzero⟩ := Reached.unreferenced_still hstart reached hindex
  cases hx₀
  exact ⟨s₀, s, reached, hsteps, hmoved, hvalue, slopes, hslopes, hzero slopes hslopes (by decide)⟩

end Optimizer

end DiagramLayout
