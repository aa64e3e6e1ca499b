import Mathlib.Algebra.Order.Floor.Semiring
import Mathlib.Tactic

/-!
# Linear interpolation

The values at the whole numbers, and between two of them the line through both. Of values that
never fall, neither does the line.
-/

namespace LibEmbedding.Foundation

variable [Field K] [LinearOrder K] [FloorSemiring K]

def interpolate (f : Nat → K) (r : K) : K := f ⌊r⌋₊ + (f ⌈r⌉₊ - f ⌊r⌋₊) * (r - ⌊r⌋₊)

variable {f : Nat → K} {n : Nat} {r s : K}

theorem interpolate_of_floor_eq_ceil (h : ⌊r⌋₊ = ⌈r⌉₊) : interpolate f r = f ⌊r⌋₊ := by
  rw [interpolate, ← h, sub_self, zero_mul, add_zero]

variable [IsStrictOrderedRing K]

theorem floor_le_ceil_of_monotoneOn (hf : MonotoneOn f (Set.Iic n)) (hrn : r ≤ n) :
    f ⌊r⌋₊ ≤ f ⌈r⌉₊ := by
  have hceil : ⌈r⌉₊ ≤ n := Nat.ceil_le.mpr hrn
  have hfloor : ⌊r⌋₊ ≤ ⌈r⌉₊ := Nat.floor_le_ceil r
  exact hf (hfloor.trans hceil) hceil hfloor

theorem le_interpolate (hf : MonotoneOn f (Set.Iic n)) (hr : 0 ≤ r) (hrn : r ≤ n) :
    f ⌊r⌋₊ ≤ interpolate f r := by
  have hrise := floor_le_ceil_of_monotoneOn hf hrn
  have hpart : 0 ≤ r - ⌊r⌋₊ := sub_nonneg.mpr (Nat.floor_le hr)
  exact le_add_of_nonneg_right (mul_nonneg (sub_nonneg.mpr hrise) hpart)

theorem interpolate_le (hf : MonotoneOn f (Set.Iic n)) (hrn : r ≤ n) :
    interpolate f r ≤ f ⌈r⌉₊ := by
  have hrise := floor_le_ceil_of_monotoneOn hf hrn
  have hpart : r - ⌊r⌋₊ ≤ 1 := sub_le_iff_le_add'.mpr (Nat.lt_floor_add_one r).le
  have hstep := mul_le_of_le_one_right (sub_nonneg.mpr hrise) hpart
  exact add_le_of_le_sub_left hstep

/-- Within one interval the slope is the same; across a whole number, the value there is between
the two. -/
theorem interpolate_le_interpolate (hf : MonotoneOn f (Set.Iic n)) (hr : 0 ≤ r) (hrs : r ≤ s)
    (hsn : s ≤ n) : interpolate f r ≤ interpolate f s := by
  have hceil : ⌈s⌉₊ ≤ n := Nat.ceil_le.mpr hsn
  have hfloor : ⌊s⌋₊ ≤ n := (Nat.floor_le_ceil s).trans hceil
  rcases (Nat.floor_le_floor hrs).eq_or_lt with hsame | hbelow
  · have hends : ⌈r⌉₊ ≤ ⌈s⌉₊ := Nat.ceil_le_ceil hrs
    have hvalues : f ⌈r⌉₊ - f ⌊r⌋₊ ≤ f ⌈s⌉₊ - f ⌊s⌋₊ := by
      rw [hsame]
      exact sub_le_sub_right (hf (hends.trans hceil) hceil hends) _
    have hparts : r - ⌊r⌋₊ ≤ s - ⌊s⌋₊ := by
      rw [hsame]
      exact sub_le_sub_right hrs _
    have hpart : 0 ≤ r - ⌊r⌋₊ := sub_nonneg.mpr (Nat.floor_le hr)
    have hrise : 0 ≤ f ⌈s⌉₊ - f ⌊s⌋₊ := sub_nonneg.mpr (floor_le_ceil_of_monotoneOn hf hsn)
    rw [interpolate, interpolate, ← hsame]
    rw [← hsame] at hvalues hparts hrise
    exact add_le_add_right (mul_le_mul hvalues hparts hpart hrise) _
  · have hnext : ⌈r⌉₊ ≤ ⌊s⌋₊ := (Nat.ceil_le_floor_add_one r).trans hbelow
    calc interpolate f r ≤ f ⌈r⌉₊ := interpolate_le hf (hrs.trans hsn)
      _ ≤ f ⌊s⌋₊ := hf (hnext.trans hfloor) hfloor hnext
      _ ≤ interpolate f s := le_interpolate hf (hr.trans hrs) hsn

end LibEmbedding.Foundation
