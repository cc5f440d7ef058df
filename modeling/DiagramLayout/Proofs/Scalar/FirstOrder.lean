import Mathlib.Algebra.Order.Field.Basic
import Mathlib.Algebra.Order.AbsoluteValue.Basic
import Mathlib.Algebra.BigOperators.Group.List.Basic
import Mathlib.Tactic.FieldSimp
import Mathlib.Tactic.Linarith
import Mathlib.Tactic.Positivity
import Mathlib.Tactic.Ring

/-!
# First order expansions

Derivatives along a line in an ordered field, where there need be no limits: a function has a slope
if near zero the tangent line misses it by at most a multiple of the square of the distance.

* `Near`: what holds on some interval around zero;
* `FirstOrder`: a function with its value and slope at zero;
* `FirstOrder.add`, `FirstOrder.mul`, `FirstOrder.div`: the rules of calculus;
* `FirstOrder.near_lt`: functions that are apart at zero stay apart near it.
-/

namespace DiagramLayout

variable {K : Type} [Field K] [LinearOrder K]

/-- A property of all numbers in some interval around zero. -/
def Near (P : K → Prop) : Prop := ∃ δ, 0 < δ ∧ ∀ h, |h| ≤ δ → P h

theorem Near.mono {P Q : K → Prop} (hP : Near P) (imp : ∀ h, P h → Q h) : Near Q := by
  obtain ⟨δ, hδ, hP⟩ := hP
  exact ⟨δ, hδ, fun h hh => imp h (hP h hh)⟩

theorem Near.and {P Q : K → Prop} (hP : Near P) (hQ : Near Q) : Near fun h => P h ∧ Q h := by
  obtain ⟨δ, hδ, hP⟩ := hP
  obtain ⟨ε, hε, hQ⟩ := hQ
  refine ⟨min δ ε, lt_min hδ hε, fun h hh => ⟨?_, ?_⟩⟩
  · exact hP h (hh.trans (min_le_left δ ε))
  · exact hQ h (hh.trans (min_le_right δ ε))

theorem near_abs_le {ε : K} (hε : 0 < ε) : Near fun h : K => |h| ≤ ε := ⟨ε, hε, fun _ hh => hh⟩

variable [IsStrictOrderedRing K]

theorem Near.of_forall {P : K → Prop} (hP : ∀ h, P h) : Near P := ⟨1, one_pos, fun h _ => hP h⟩

/-- A function that is `y` at zero and leaves it with slope `t`, up to an error of second order. -/
def FirstOrder (f : K → K) (y t : K) : Prop :=
  ∃ C, 0 ≤ C ∧ Near fun h => |f h - y - h * t| ≤ C * h ^ 2

namespace FirstOrder

variable {f g : K → K} {a b s t : K}

theorem const (a : K) : FirstOrder (fun _ => a) a 0 :=
  ⟨0, le_rfl, .of_forall fun h => by simp⟩

theorem line (a t : K) : FirstOrder (fun h => a + h * t) a t :=
  ⟨0, le_rfl, .of_forall fun h => by simp⟩

omit [IsStrictOrderedRing K] in
/-- Only values near zero matter. -/
theorem congr (hg : FirstOrder g a t) (same : Near fun h => f h = g h) : FirstOrder f a t := by
  obtain ⟨C, hC, hnear⟩ := hg
  refine ⟨C, hC, (hnear.and same).mono fun h hh => ?_⟩
  rw [hh.2]
  exact hh.1

theorem add (hf : FirstOrder f a s) (hg : FirstOrder g b t) :
    FirstOrder (fun h => f h + g h) (a + b) (s + t) := by
  obtain ⟨C, hC, hf⟩ := hf
  obtain ⟨D, hD, hg⟩ := hg
  refine ⟨C + D, add_nonneg hC hD, (hf.and hg).mono fun h hh => ?_⟩
  have hsplit : f h + g h - (a + b) - h * (s + t) = (f h - a - h * s) + (g h - b - h * t) := by ring
  calc |f h + g h - (a + b) - h * (s + t)|
      ≤ |f h - a - h * s| + |g h - b - h * t| := by rw [hsplit]; exact abs_add_le _ _
    _ ≤ C * h ^ 2 + D * h ^ 2 := add_le_add hh.1 hh.2
    _ = (C + D) * h ^ 2 := by ring

omit [IsStrictOrderedRing K] in
theorem neg (hf : FirstOrder f a s) : FirstOrder (fun h => -f h) (-a) (-s) := by
  obtain ⟨C, hC, hf⟩ := hf
  refine ⟨C, hC, hf.mono fun h hh => ?_⟩
  have hsplit : -f h - -a - h * -s = -(f h - a - h * s) := by ring
  rw [hsplit, abs_neg]
  exact hh

theorem sub (hf : FirstOrder f a s) (hg : FirstOrder g b t) :
    FirstOrder (fun h => f h - g h) (a - b) (s - t) := by
  simpa only [sub_eq_add_neg] using hf.add hg.neg

/-- A function with a slope moves at most in proportion to the distance. -/
theorem exists_lipschitz (hf : FirstOrder f a s) :
    ∃ L, 0 ≤ L ∧ Near fun h => |f h - a| ≤ L * |h| := by
  obtain ⟨C, hC, hf⟩ := hf
  refine ⟨C + |s|, add_nonneg hC (abs_nonneg s), (hf.and (near_abs_le one_pos)).mono fun h hh => ?_⟩
  have hsplit : f h - a = (f h - a - h * s) + h * s := by ring
  have hsquare : h ^ 2 ≤ |h| := by
    rw [← sq_abs]
    nlinarith [abs_nonneg h, hh.2]
  calc |f h - a| ≤ |f h - a - h * s| + |h * s| := by
        conv_lhs => rw [hsplit]
        exact abs_add_le _ _
    _ ≤ C * h ^ 2 + |h| * |s| := add_le_add hh.1 (abs_mul h s).le
    _ ≤ C * |h| + |h| * |s| := by
        have := mul_le_mul_of_nonneg_left hsquare hC
        linarith
    _ = (C + |s|) * |h| := by ring

/-- A function with a slope stays as close to its value as one likes. -/
theorem near_abs_sub_lt (hf : FirstOrder f a s) {ε : K} (hε : 0 < ε) :
    Near fun h => |f h - a| < ε := by
  obtain ⟨L, hL, hnear⟩ := hf.exists_lipschitz
  have hpos : 0 < L + 1 := by linarith
  have hsmall := near_abs_le (div_pos hε (mul_pos two_pos hpos))
  refine (hnear.and hsmall).mono ?_
  intro h hh
  calc |f h - a| ≤ L * |h| := hh.1
    _ ≤ (L + 1) * |h| := by nlinarith [abs_nonneg h]
    _ ≤ (L + 1) * (ε / (2 * (L + 1))) := mul_le_mul_of_nonneg_left hh.2 hpos.le
    _ = ε / 2 := by field_simp
    _ < ε := half_lt_self hε

theorem near_lt (hf : FirstOrder f a s) (hg : FirstOrder g b t) (hab : a < b) :
    Near fun h => f h < g h := by
  have hgap := hg.sub hf
  refine (hgap.near_abs_sub_lt (sub_pos.mpr hab)).mono ?_
  intro h hh
  have := (abs_lt.mp hh).1
  linarith

theorem near_ne (hf : FirstOrder f a s) (ha : a ≠ b) : Near fun h => f h ≠ b := by
  rcases lt_or_gt_of_ne ha with hlt | hgt
  · exact (hf.near_lt (const b) hlt).mono fun h hh => hh.ne
  · exact ((const b).near_lt hf hgt).mono fun h hh => hh.ne'

theorem mul (hf : FirstOrder f a s) (hg : FirstOrder g b t) :
    FirstOrder (fun h => f h * g h) (a * b) (b * s + a * t) := by
  obtain ⟨L, hL, hlip⟩ := hf.exists_lipschitz
  obtain ⟨M, hM, hlip'⟩ := hg.exists_lipschitz
  obtain ⟨C, hC, hf⟩ := hf
  obtain ⟨D, hD, hg⟩ := hg
  refine ⟨|b| * C + |a| * D + L * M, by positivity, ?_⟩
  refine ((hf.and hg).and (hlip.and hlip')).mono fun h ⟨⟨hf, hg⟩, hlip, hlip'⟩ => ?_
  -- Beside the two tangents there is the product of both changes, which is of second order.
  have hsplit : f h * g h - a * b - h * (b * s + a * t) =
      b * (f h - a - h * s) + a * (g h - b - h * t) + (f h - a) * (g h - b) := by ring
  have hchanges : |f h - a| * |g h - b| ≤ (L * |h|) * (M * |h|) :=
    mul_le_mul hlip hlip' (abs_nonneg _) (by positivity)
  calc |f h * g h - a * b - h * (b * s + a * t)|
      ≤ |b * (f h - a - h * s) + a * (g h - b - h * t)| + |(f h - a) * (g h - b)| := by
        rw [hsplit]; exact abs_add_le _ _
    _ ≤ |b * (f h - a - h * s)| + |a * (g h - b - h * t)| + |(f h - a) * (g h - b)| := by
        have := abs_add_le (b * (f h - a - h * s)) (a * (g h - b - h * t))
        linarith
    _ ≤ |b| * (C * h ^ 2) + |a| * (D * h ^ 2) + (L * |h|) * (M * |h|) := by
        rw [abs_mul, abs_mul, abs_mul]
        have := mul_le_mul_of_nonneg_left hf (abs_nonneg b)
        have := mul_le_mul_of_nonneg_left hg (abs_nonneg a)
        linarith
    _ = (|b| * C + |a| * D + L * M) * h ^ 2 := by rw [← sq_abs h]; ring

theorem inv (hg : FirstOrder g b t) (hb : b ≠ 0) :
    FirstOrder (fun h => (g h)⁻¹) b⁻¹ (-t / (b * b)) := by
  have hpos : 0 < |b| := abs_pos.mpr hb
  obtain ⟨M, hM, hlip⟩ := hg.exists_lipschitz
  have hclose := hg.near_abs_sub_lt (half_pos hpos)
  obtain ⟨D, hD, hg⟩ := hg
  refine ⟨(|b| * D + |t| * M) / (|b| / 2 * |b| ^ 2), by positivity, ?_⟩
  refine (hg.and (hlip.and hclose)).mono fun h ⟨hg, hlip, hclose⟩ => ?_
  -- Near zero the divisor keeps at least half of its size.
  have hhalf : |b| / 2 ≤ |g h| := by
    have := abs_sub_abs_le_abs_sub b (g h)
    rw [abs_sub_comm] at this
    linarith
  have hne : g h ≠ 0 := abs_pos.mp (by linarith)
  have hsplit : (g h)⁻¹ - b⁻¹ - h * (-t / (b * b)) =
      (-(b * (g h - b - h * t)) + h * t * (g h - b)) / (g h * b ^ 2) := by
    field_simp
    ring
  have hnumerator : |-(b * (g h - b - h * t)) + h * t * (g h - b)| ≤
      (|b| * D + |t| * M) * h ^ 2 := by
    calc |-(b * (g h - b - h * t)) + h * t * (g h - b)|
        ≤ |b| * |g h - b - h * t| + |h| * |t| * |g h - b| := by
          have := abs_add_le (-(b * (g h - b - h * t))) (h * t * (g h - b))
          rwa [abs_neg, abs_mul, abs_mul, abs_mul] at this
      _ ≤ |b| * (D * h ^ 2) + |h| * |t| * (M * |h|) :=
          add_le_add (mul_le_mul_of_nonneg_left hg (abs_nonneg b))
            (mul_le_mul_of_nonneg_left hlip (by positivity))
      _ = (|b| * D + |t| * M) * h ^ 2 := by rw [← sq_abs h]; ring
  have hdenominator : |b| / 2 * |b| ^ 2 ≤ |g h * b ^ 2| := by
    rw [abs_mul, abs_pow]
    exact mul_le_mul_of_nonneg_right hhalf (by positivity)
  calc |(g h)⁻¹ - b⁻¹ - h * (-t / (b * b))|
      = |-(b * (g h - b - h * t)) + h * t * (g h - b)| / |g h * b ^ 2| := by
        rw [hsplit, abs_div]
    _ ≤ ((|b| * D + |t| * M) * h ^ 2) / (|b| / 2 * |b| ^ 2) :=
        div_le_div₀ (by positivity) hnumerator (by positivity) hdenominator
    _ = (|b| * D + |t| * M) / (|b| / 2 * |b| ^ 2) * h ^ 2 := by ring

theorem div (hf : FirstOrder f a s) (hg : FirstOrder g b t) (hb : b ≠ 0) :
    FirstOrder (fun h => f h / g h) (a / b) (1 / b * s + -a / (b * b) * t) := by
  have hslope : 1 / b * s + -a / (b * b) * t = b⁻¹ * s + a * (-t / (b * b)) := by ring
  rw [hslope]
  simpa only [div_eq_mul_inv] using hf.mul (hg.inv hb)

theorem max_left (hf : FirstOrder f a s) (hg : FirstOrder g b t) (hab : b < a) :
    FirstOrder (fun h => max (f h) (g h)) (max a b) s := by
  rw [max_eq_left hab.le]
  exact hf.congr ((hg.near_lt hf hab).mono fun h hh => max_eq_left hh.le)

theorem max_right (hf : FirstOrder f a s) (hg : FirstOrder g b t) (hab : a < b) :
    FirstOrder (fun h => max (f h) (g h)) (max a b) t := by
  simpa only [max_comm] using hg.max_left hf hab

theorem min_left (hf : FirstOrder f a s) (hg : FirstOrder g b t) (hab : a < b) :
    FirstOrder (fun h => min (f h) (g h)) (min a b) s := by
  rw [min_eq_left hab.le]
  exact hf.congr ((hf.near_lt hg hab).mono fun h hh => min_eq_left hh.le)

theorem min_right (hf : FirstOrder f a s) (hg : FirstOrder g b t) (hab : b < a) :
    FirstOrder (fun h => min (f h) (g h)) (min a b) t := by
  simpa only [min_comm] using hg.min_left hf hab

theorem abs_positive (hf : FirstOrder f a s) (ha : 0 < a) : FirstOrder (fun h => |f h|) |a| s := by
  rw [abs_of_pos ha]
  exact hf.congr (((const 0).near_lt hf ha).mono fun h hh => abs_of_pos hh)

theorem abs_negative (hf : FirstOrder f a s) (ha : a < 0) :
    FirstOrder (fun h => |f h|) |a| (-s) := by
  simpa only [abs_neg] using hf.neg.abs_positive (neg_pos.mpr ha)

end FirstOrder

end DiagramLayout
