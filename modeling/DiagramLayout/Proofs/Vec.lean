import DiagramLayout.Proofs.Scalar.Exact
import DiagramLayout.Vec
import Mathlib.Algebra.BigOperators.Group.List.Basic
import Mathlib.Tactic.Ring

namespace DiagramLayout

variable {α : Type} [RingScalar α]

/-- The sum of the products of corresponding entries. -/
def pairing (u v : List α) : α := (u.zipWith (· * ·) v).sum

@[simp] theorem pairing_nil (v : List α) : pairing [] v = 0 := by simp [pairing]

@[simp] theorem pairing_cons (a b : α) (u v : List α) :
    pairing (a :: u) (b :: v) = a * b + pairing u v := by simp [pairing]

theorem pairing_append_singleton {u v : List α} (h : u.length = v.length) (a b : α) :
    pairing (u ++ [a]) (v ++ [b]) = pairing u v + a * b := by
  simp [pairing, List.zipWith_append h]

theorem pairing_replicate_zero (n : Nat) (v : List α) : pairing (List.replicate n 0) v = 0 := by
  induction n generalizing v with
  | zero => simp
  | succ n ih =>
    cases v with
    | nil => simp [pairing]
    | cons b v => simp [List.replicate_succ, ih]

theorem pairing_comm (u v : List α) : pairing u v = pairing v u := by
  rw [pairing, pairing, List.zipWith_comm_of_comm mul_comm]

/-- Adding to one entry adds that entry's partner as often. -/
theorem pairing_modify {u v : List α} (h : v.length ≤ u.length) (i : Nat) (c : α) :
    pairing (u.modify i (· + c)) v = pairing u v + c * v.getD i 0 := by
  induction u generalizing v i with
  | nil =>
    obtain rfl := List.length_eq_zero_iff.mp (Nat.le_zero.mp h)
    simp
  | cons a u ih =>
    cases v with
    | nil => simp [pairing]
    | cons b v =>
      cases i with
      | zero => simp [List.modify_cons]; ring
      | succ i =>
        have := ih (v := v) (by simpa using h) i
        simp [this]; ring

/-- Vectors that pair with every direction alike are equal. -/
theorem eq_of_pairing {u w : List α} (hlength : u.length = w.length)
    (h : ∀ v : List α, v.length = u.length → pairing u v = pairing w v) : u = w := by
  induction u generalizing w with
  | nil => exact (List.eq_nil_of_length_eq_zero hlength.symm).symm
  | cons a u ih =>
    cases w with
    | nil => cases hlength
    | cons b w =>
      have hlength : u.length = w.length := Nat.succ.inj hlength
      have htail : u = w := ih hlength fun v hv => by
        simpa using h (0 :: v) (by simp [hv])
      have hhead := h (1 :: List.replicate u.length 0) (by simp)
      rw [pairing_cons, pairing_cons, mul_one, mul_one, ← htail] at hhead
      rw [← htail, add_right_cancel hhead]

/-! ## Sums of vectors -/

namespace Vec

/-- The sum of vectors of `n` entries. -/
def total (n : Nat) (vs : List (List α)) : List α := vs.foldr add (zeros n)

theorem length_total {n : Nat} {vs : List (List α)} (h : ∀ v ∈ vs, v.length = n) :
    (total n vs).length = n := by
  induction vs with
  | nil => simp [total, zeros]
  | cons v vs ih =>
    obtain ⟨hv, hvs⟩ := List.forall_mem_cons.mp h
    have hlength := ih hvs
    simp only [total] at hlength
    simp [total, add, hv, hlength]

theorem pairing_add {u w : List α} (h : u.length = w.length) (v : List α) :
    pairing (add u w) v = pairing u v + pairing w v := by
  induction u generalizing w v with
  | nil =>
    obtain rfl := List.eq_nil_of_length_eq_zero h.symm
    simp [add]
  | cons a u ih =>
    cases w with
    | nil => cases h
    | cons b w =>
      cases v with
      | nil => simp [pairing]
      | cons c v =>
        have htail := ih (Nat.succ.inj h) v
        simp only [add] at htail
        simp only [add, List.zipWith_cons_cons, pairing_cons, htail]
        ring

theorem pairing_scale (c : α) (u v : List α) : pairing (scale c u) v = c * pairing u v := by
  induction u generalizing v with
  | nil => simp [scale]
  | cons a u ih =>
    cases v with
    | nil => simp [pairing]
    | cons b v =>
      have htail := ih v
      simp only [scale] at htail
      simp only [scale, List.map_cons, pairing_cons, htail]
      ring

theorem pairing_sub {u w : List α} (h : u.length = w.length) (v : List α) :
    pairing (sub u w) v = pairing u v - pairing w v := by
  induction u generalizing w v with
  | nil =>
    obtain rfl := List.eq_nil_of_length_eq_zero h.symm
    simp [sub]
  | cons a u ih =>
    cases w with
    | nil => cases h
    | cons b w =>
      cases v with
      | nil => simp [pairing]
      | cons c v =>
        have htail := ih (Nat.succ.inj h) v
        simp only [sub] at htail
        simp only [sub, List.zipWith_cons_cons, pairing_cons, htail]
        ring

theorem pairing_neg (u v : List α) : pairing (neg u) v = -pairing u v := by
  induction u generalizing v with
  | nil => simp [neg]
  | cons a u ih =>
    cases v with
    | nil => simp [pairing]
    | cons b v =>
      have htail := ih v
      simp only [neg] at htail
      simp only [neg, List.map_cons, pairing_cons, htail]
      ring

/-- In a ring the inner product is the pairing. -/
theorem dot_eq_pairing (u v : List α) : dot u v = pairing u v := by
  have hfold (ps : List (α × α)) (a : α) :
      ps.foldl (fun total p => total + p.1 * p.2) a = a + (ps.map fun p => p.1 * p.2).sum := by
    induction ps generalizing a with
    | nil => simp
    | cons p ps ih =>
      rw [List.foldl_cons, ih, List.map_cons, List.sum_cons]
      ring
  have hpairing : pairing u v = ((u.zip v).map fun p => p.1 * p.2).sum := by
    simp [pairing, List.zip, List.map_zipWith]
  rw [hpairing, dot]
  split
  · next p heq => simp [heq]
  · rw [hfold, RingScalar.zero_literal, zero_add]

theorem dot_comm (u v : List α) : dot u v = dot v u := by
  rw [dot_eq_pairing, dot_eq_pairing, pairing_comm]

theorem pairing_total {n : Nat} {vs : List (List α)} (h : ∀ v ∈ vs, v.length = n) (v : List α) :
    pairing (total n vs) v = (vs.map fun u => pairing u v).sum := by
  induction vs with
  | nil => simp [total, zeros, pairing_replicate_zero]
  | cons u vs ih =>
    obtain ⟨hu, hvs⟩ := List.forall_mem_cons.mp h
    have hlength : u.length = (total n vs).length := hu.trans (length_total hvs).symm
    rw [List.map_cons, List.sum_cons, ← ih hvs]
    exact pairing_add hlength v

end Vec

theorem pairing_self_nonneg {α : Type} [FieldScalar α] (u : List α) : 0 ≤ pairing u u := by
  induction u with
  | nil => simp
  | cons a u ih =>
    rw [pairing_cons]
    exact add_nonneg (mul_self_nonneg a) ih

/-- A vector that is not zero has a positive square. -/
theorem pairing_self_pos {α : Type} [FieldScalar α] {u : List α} (h : ∃ a ∈ u, a ≠ 0) :
    0 < pairing u u := by
  induction u with
  | nil =>
    obtain ⟨a, ha, _⟩ := h
    cases ha
  | cons b u ih =>
    rw [pairing_cons]
    by_cases hb : b = 0
    · have htail : ∃ a ∈ u, a ≠ 0 := by
        obtain ⟨a, ha, hne⟩ := h
        rcases List.mem_cons.mp ha with rfl | ha
        · exact absurd hb hne
        · exact ⟨a, ha, hne⟩
      simpa [hb] using ih htail
    · exact add_pos_of_pos_of_nonneg (mul_self_pos.mpr hb) (pairing_self_nonneg u)

end DiagramLayout
