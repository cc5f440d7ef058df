import DiagramLayout.Catalog
import DiagramLayout.Proofs.Optimizer.Coherent

namespace DiagramLayout.Optimizer

open Event (visited sinceRound)

variable {α : Type} [Scalar α]

/-- **The memory never mixes weights.** Between rounds and after a new start it is empty. Otherwise it
holds differences between consecutive points of the round, the newest first, and of the gradients
there at the weight of the state, as many as its capacity allows. -/
theorem History.memory_recalls {o : Optimizer α} {s₀ s : State α} {log : List (Event α)}
    (h : o.History s₀ log s) :
    ∃ energy, s.energy = some energy ∧
      (s.status = .fresh ∨ s.status = .settled ∨ s.status = .converged → s.memory.steps = 0) ∧
      (s.memory.steps = 0 → s.memory = { capacity := o.historySize.toNat }) ∧
      (s.memory.steps ≠ 0 → ∃ e visits, energy.atWeight s.weight = .ok e ∧ visits ≠ [] ∧
        s.memory.Holds s.count visits ∧ s.memory.capacity = o.historySize.toNat ∧
        (∀ v ∈ visits, e.gradient v.state = .ok v.gradient) ∧
        visits.map Lbfgs.Visit.state <:+: visited (sinceRound log)) := by
  have c := h.coherent
  obtain ⟨energy, henergy, hcount⟩ := c.ready
  -- The memory recalls some points of the round, none if it is empty.
  have hrecalls : s.memory = { capacity := s.memory.capacity } ∨
      ∃ e path, energy.atWeight s.weight = .ok e ∧ e.Recalls s.memory path ∧
        path <:+ visited (sinceRound log) := by
    have hsame {energy' : Energy α} (henergy' : s.energy = some energy') : energy' = energy :=
      Option.some.inj (henergy'.symm.trans henergy)
    cases hstatus : s.status with
    | fresh => exact .inl (c.emptied (.inl hstatus))
    | settled => exact .inl (c.emptied (.inr (.inl hstatus)))
    | converged => exact .inl (c.emptied (.inr (.inr hstatus)))
    | running =>
      obtain ⟨energy', e, henergy', hweight, he⟩ := c.weighted (.inl hstatus)
      obtain rfl := hsame henergy'
      exact .inr ⟨e, _, hweight, c.running hstatus e he, List.suffix_refl _⟩
    | failed message =>
      rcases c.failed message hstatus with hempty | ⟨energy', e, path, henergy', hweight, hpath⟩
      · exact .inl hempty
      · obtain rfl := hsame henergy'
        exact .inr ⟨e, path, hweight, hpath⟩
  refine ⟨energy, henergy, ?_, ?_, ?_⟩
  · intro hstatus
    rw [c.emptied hstatus]
  · intro hzero
    rw [← c.capacity]
    rcases hrecalls with hempty | ⟨e, path, _, ⟨visits, hholds, _⟩, _⟩
    · exact hempty
    · obtain rfl := hholds.eq_nil_iff.mpr hzero
      exact hholds.eq_empty
  · intro hsteps
    rcases hrecalls with hempty | ⟨e, path, hweight, ⟨visits, hholds, hgradient, hprefix⟩, hsuffix⟩
    · rw [hempty] at hsteps
      exact absurd rfl hsteps
    · obtain ⟨_, rfl⟩ := Energy.atWeight_eq_ok_iff.mp hweight
      refine ⟨_, visits, hweight, fun hnil => hsteps (hholds.eq_nil_iff.mp hnil), ?_, c.capacity,
        hgradient, hprefix.isInfix.trans hsuffix.isInfix⟩
      exact hcount ▸ hholds

/-! ## A short run -/

/-- The settings of a run with short steps. -/
def shortSteps : Optimizer ℚ :=
  { standard Catalog.library with lineSearch := { LineSearch.Params.standard with initialStep := 1 / 4 } }

/-- The start of a run from zero, to a variable of three. -/
def towardsThree : Turn ℚ (State ℚ) :=
  shortSteps.start [⟨"equal", [.varying 0, .number 3], .objective⟩] [] (.array [.entry 0]) none

/-- Three steps lead to a state that passes a test. -/
theorem towardsThree_history (test : List (Event ℚ) → State ℚ → Bool)
    (h : (towardsThree.result >>= fun s₀ =>
      let turn := shortSteps.run s₀ none 1 3
      turn.result.map (test turn.events)).toOption = some true) :
    ∃ s₀ log s, shortSteps.History s₀ log s ∧ test log s = true :=
  History.exists_of_run test h

theorem towardsThree_memory_recalls : ∃ s₀ log s energy e visits,
    shortSteps.History s₀ log s ∧ s.memory.steps = 2 ∧ s.energy = some energy ∧
      energy.atWeight s.weight = .ok e ∧ visits ≠ [] ∧ s.memory.Holds s.count visits ∧
      (∀ v ∈ visits, e.gradient v.state = .ok v.gradient) ∧
      visits.map Lbfgs.Visit.state <:+: visited (sinceRound log) := by
  obtain ⟨s₀, log, s, history, htest⟩ :=
    towardsThree_history (fun _ s => s.memory.steps == 2) (by decide +kernel)
  have hsteps : s.memory.steps = 2 := by simpa using htest
  obtain ⟨energy, henergy, _, _, hrecalls⟩ := history.memory_recalls
  obtain ⟨e, visits, hweight, hvisits, hholds, _, hgradient, hinfix⟩ :=
    hrecalls (by rw [hsteps]; decide)
  exact ⟨s₀, log, s, energy, e, visits, history, hsteps, henergy, hweight, hvisits, hholds, hgradient,
    hinfix⟩

end DiagramLayout.Optimizer
