import LibEmbedding.Foundation.Numerals
import Mathlib.Data.Int.Log

/-!
# Rounded arithmetic

Arithmetic that rounds its results. `Rounds` is what index arithmetic needs of it: that whole
numbers up to some size are exact, and that adding one to a number never loses the next whole
number. `nearest` is what a binary format does with numbers that are not negative, as long as its
exponent has room.
-/

namespace LibEmbedding.Foundation

/-- A rounding that is exact on the whole numbers up to `top`. -/
structure Rounds (rnd : ℚ → ℚ) (top : Nat) : Prop where
  mono : ∀ {x y : ℚ}, 0 ≤ x → x ≤ y → rnd x ≤ rnd y
  exact : ∀ {k : Nat}, k ≤ top → rnd k = k
  carries : ∀ {x : ℚ} {m : Nat}, 0 ≤ x → m < top → (m : ℚ) ≤ rnd x → (m : ℚ) + 1 ≤ rnd (x + 1)
  close : ∀ {x : ℚ}, 0 ≤ x → 2 * top * (rnd x - x) ≤ x

namespace Rounds

variable {rnd : ℚ → ℚ} {top : Nat}

theorem of_le (h : Rounds rnd top) {n : Nat} (hn : n ≤ top) : Rounds rnd n where
  mono := h.mono
  exact hk := h.exact (hk.trans hn)
  carries hx hm := h.carries hx (hm.trans_le hn)
  close {x} hx := by
    have hn' : (n : ℚ) ≤ top := by exact_mod_cast hn
    rcases le_total 0 (rnd x - x) with hup | hdown
    · have hfar : 2 * (n : ℚ) * (rnd x - x) ≤ 2 * top * (rnd x - x) := by gcongr
      exact hfar.trans (h.close hx)
    · have hneg : 2 * (n : ℚ) * (rnd x - x) ≤ 0 :=
        mul_nonpos_of_nonneg_of_nonpos (by positivity) hdown
      exact hneg.trans hx

/-- Nothing is rounded. -/
theorem unrounded (top : Nat) : Rounds (fun x => x) top where
  mono _ h := h
  exact _ := rfl
  carries _ _ h := by linarith
  close hx := by simpa using hx

theorem nonneg (h : Rounds rnd top) {x : ℚ} (hx : 0 ≤ x) : 0 ≤ rnd x := by
  have hzero : rnd ((0 : Nat) : ℚ) = ((0 : Nat) : ℚ) := h.exact (Nat.zero_le top)
  rw [Nat.cast_zero] at hzero
  rw [← hzero]
  exact h.mono (le_refl 0) hx

/-- Numbers that are one apart have different whole parts. -/
theorem floor_lt_floor (h : Rounds rnd top) {x y : ℚ} (hx : 0 ≤ x) (hxy : x + 1 ≤ y)
    (htop : ⌊rnd x⌋₊ < top) : ⌊rnd x⌋₊ < ⌊rnd y⌋₊ := by
  have hfloor : ((⌊rnd x⌋₊ : Nat) : ℚ) ≤ rnd x := Nat.floor_le (h.nonneg hx)
  have hnext := h.carries hx htop hfloor
  rw [Nat.lt_iff_add_one_le, Nat.le_floor_iff (h.nonneg (by linarith))]
  push_cast
  exact hnext.trans (h.mono (by linarith) hxy)

/-- A number short of `n` by about one is not rounded up to it. -/
theorem lt_of_short (h : Rounds rnd top) {n : Nat} (hn : n ≤ top) (hpos : 0 < n) {x : ℚ}
    (hx : 0 ≤ x) (hshort : 2 * top * x ≤ (2 * top + 1) * (n - 1)) : rnd x < n := by
  have hn' : (n : ℚ) ≤ top := by exact_mod_cast hn
  have hone : (1 : ℚ) ≤ n := by exact_mod_cast hpos
  have hclose : 2 * top * rnd x ≤ (2 * top + 1) * x := by
    have := h.close hx
    linarith
  have hfar : 2 * top * (2 * top) * rnd x < 2 * top * (2 * top) * n := by
    calc 2 * top * (2 * top) * rnd x = 2 * top * (2 * top * rnd x) := by ring
      _ ≤ 2 * top * ((2 * top + 1) * x) := by gcongr
      _ = (2 * top + 1) * (2 * top * x) := by ring
      _ ≤ (2 * top + 1) * ((2 * top + 1) * (n - 1)) := by gcongr
      _ < 2 * top * (2 * top) * n := by nlinarith
  exact lt_of_mul_lt_mul_left hfar (by positivity)

end Rounds

-- ---------------------------------------------------------------------------
-- To the nearest
-- ---------------------------------------------------------------------------

theorem roundEven_near {x : ℚ} (hx : 0 ≤ x) :
    (roundEven x : ℚ) - 1 / 2 ≤ x ∧ x ≤ roundEven x + 1 / 2 := by
  have hfloor : ((x.floor.toNat : Nat) : ℚ) = x.floor := by
    exact_mod_cast Int.toNat_of_nonneg (Int.floor_nonneg.mpr hx)
  have hlow : (x.floor : ℚ) ≤ x := Int.floor_le x
  have hhigh : x < x.floor + 1 := Int.lt_floor_add_one x
  unfold roundEven
  dsimp only
  split
  · rename_i hdown
    have hdown : x - x.floor.toNat ≤ 1 / 2 := hdown.elim le_of_lt fun h => h.1.le
    constructor <;> linarith
  · rename_i hup
    have hup : 1 / 2 ≤ x - x.floor.toNat := not_lt.mp fun h => hup (.inl h)
    push_cast
    constructor <;> linarith

theorem le_roundEven {x : ℚ} {n : Nat} (hx : 0 ≤ x) (h : (n : ℚ) - 1 / 2 < x) :
    n ≤ roundEven x := by
  have hnear := (roundEven_near hx).2
  have hlt : (n : ℚ) < roundEven x + 1 := by linarith
  exact Nat.lt_succ_iff.mp (by exact_mod_cast hlt)

theorem roundEven_natCast (n : Nat) : roundEven (n : ℚ) = n := by
  have hfloor : (n : ℚ).floor = (n : Int) := Int.floor_natCast (R := ℚ) n
  unfold roundEven
  dsimp only
  rw [hfloor, Int.toNat_natCast, if_pos (.inl (by norm_num))]

/-- A half is rounded the same way an even number further up. -/
theorem roundEven_add_even {x : ℚ} (hx : 0 ≤ x) (k : Nat) :
    roundEven (x + (2 * k : Nat)) = roundEven x + 2 * k := by
  have hfloor : (x + (2 * k : Nat)).floor = x.floor + (2 * k : Nat) :=
    Int.floor_add_natCast x (2 * k)
  have hnat : (x.floor + (2 * k : Nat)).toNat = x.floor.toNat + 2 * k :=
    Int.toNat_add_nat (Int.floor_nonneg.mpr hx) _
  have hrest : x + (2 * k : Nat) - (x.floor.toNat + 2 * k : Nat) = x - x.floor.toNat := by
    push_cast
    ring
  have hparity : (x.floor.toNat + 2 * k) % 2 = x.floor.toNat % 2 := Nat.add_mul_mod_self_left ..
  unfold roundEven
  dsimp only
  rw [hfloor, hnat, hrest, hparity]
  split <;> omega

theorem roundEven_mono {x y : ℚ} (hx : 0 ≤ x) (h : x ≤ y) : roundEven x ≤ roundEven y := by
  have hfloor : x.floor ≤ y.floor := Int.floor_le_floor h
  rcases hfloor.eq_or_lt with hsame | hbefore
  · unfold roundEven
    dsimp only
    rw [hsame]
    split
    · split <;> omega
    · rename_i hup
      have hup' : ¬ (y - y.floor.toNat < 1 / 2 ∨
          y - y.floor.toNat = 1 / 2 ∧ y.floor.toNat % 2 = 0) := by
        rintro (hlt | ⟨heq, heven⟩)
        · exact hup (.inl (by linarith))
        · rcases h.eq_or_lt with rfl | hlt
          · exact hup (.inr ⟨heq, heven⟩)
          · exact hup (.inl (by linarith))
      rw [if_neg hup']
  · have hup : roundEven x ≤ x.floor.toNat + 1 := by
      unfold roundEven
      dsimp only
      split <;> omega
    have hdown : y.floor.toNat ≤ roundEven y := by
      unfold roundEven
      dsimp only
      split <;> omega
    have hpos : 0 ≤ x.floor := Int.floor_nonneg.mpr hx
    omega

/-- How far the numbers of `p + 1` bits are apart where `x` lies. -/
def spacing (p : Nat) (x : ℚ) : ℚ := 2 ^ Int.log 2 x / 2 ^ p

/-- The nearest number of `p + 1` bits, halves to the even one. -/
def nearest (p : Nat) (x : ℚ) : ℚ := roundEven (x / spacing p x) * spacing p x

theorem spacing_pos (p : Nat) (x : ℚ) : 0 < spacing p x := by
  unfold spacing
  positivity

theorem pow_mul_spacing (p : Nat) (x : ℚ) : 2 ^ p * spacing p x = 2 ^ Int.log 2 x := by
  unfold spacing
  field_simp

theorem pow_log_le {x : ℚ} (hx : 0 < x) : (2 : ℚ) ^ Int.log 2 x ≤ x := by
  exact_mod_cast Int.zpow_log_le_self (b := 2) (by norm_num) hx

theorem lt_pow_log (x : ℚ) : x < 2 * 2 ^ Int.log 2 x := by
  have h := Int.lt_zpow_succ_log_self (b := 2) (by norm_num) x
  rw [Nat.cast_ofNat, zpow_add_one₀ (by norm_num)] at h
  linarith

@[simp] theorem nearest_zero (p : Nat) : nearest p 0 = 0 := by
  have hzero : roundEven 0 = 0 := roundEven_natCast 0
  rw [nearest, zero_div, hzero, Nat.cast_zero, zero_mul]

theorem nearest_near (p : Nat) {x : ℚ} (hx : 0 ≤ x) :
    nearest p x - spacing p x / 2 ≤ x ∧ x ≤ nearest p x + spacing p x / 2 := by
  have hpos := spacing_pos p x
  obtain ⟨hlow, hhigh⟩ := roundEven_near (div_nonneg hx hpos.le)
  rw [le_div_iff₀ hpos] at hlow
  rw [div_le_iff₀ hpos] at hhigh
  unfold nearest
  constructor <;> linarith

/-- Numbers stay between the two powers of two around them. -/
theorem nearest_bounds (p : Nat) {x : ℚ} (hx : 0 < x) :
    2 ^ Int.log 2 x ≤ nearest p x ∧ nearest p x ≤ 2 * 2 ^ Int.log 2 x := by
  have hpos := spacing_pos p x
  have hpow := pow_mul_spacing p x
  have hlow : ((2 ^ p : Nat) : ℚ) ≤ x / spacing p x := by
    rw [le_div_iff₀ hpos]
    push_cast
    exact hpow.le.trans (pow_log_le hx)
  have hhigh : x / spacing p x ≤ ((2 ^ (p + 1) : Nat) : ℚ) := by
    rw [div_le_iff₀ hpos]
    push_cast
    have := lt_pow_log x
    rw [pow_succ]
    linarith
  have hlow' := roundEven_mono (Nat.cast_nonneg _) hlow
  have hhigh' := roundEven_mono (div_nonneg hx.le hpos.le) hhigh
  rw [roundEven_natCast] at hlow' hhigh'
  unfold nearest
  rw [← hpow]
  constructor
  · gcongr
    exact_mod_cast hlow'
  · rw [← mul_assoc, ← pow_succ']
    gcongr
    exact_mod_cast hhigh'

theorem nearest_mono (p : Nat) {x y : ℚ} (hx : 0 ≤ x) (h : x ≤ y) : nearest p x ≤ nearest p y := by
  rcases hx.eq_or_lt with rfl | hx
  · rw [nearest_zero]
    unfold nearest
    have := spacing_pos p y
    positivity
  · have hy : 0 < y := hx.trans_le h
    rcases (Int.log_mono_right (b := 2) hx h).eq_or_lt with hsame | hbefore
    · have hspacing : spacing p x = spacing p y := by rw [spacing, hsame, spacing]
      have hpos := spacing_pos p y
      have hround : roundEven (x / spacing p y) ≤ roundEven (y / spacing p y) :=
        roundEven_mono (div_nonneg hx.le hpos.le) (by gcongr)
      unfold nearest
      rw [hspacing]
      gcongr
    · calc nearest p x ≤ 2 * 2 ^ Int.log 2 x := (nearest_bounds p hx).2
        _ = 2 ^ (Int.log 2 x + 1) := by rw [zpow_add_one₀ (by norm_num), mul_comm]
        _ ≤ 2 ^ Int.log 2 y := zpow_le_zpow_right₀ (by norm_num) hbefore
        _ ≤ nearest p y := (nearest_bounds p hy).1

/-- Whole numbers are multiples of the spacing as long as that is a fraction. -/
theorem div_spacing {p e : Nat} {x : ℚ} (hlog : Int.log 2 x = e) (he : e ≤ p) (k : Nat) :
    (k : ℚ) / spacing p x = (k * 2 ^ (p - e) : Nat) := by
  have hpow : (2 : ℚ) ^ p = 2 ^ (p - e) * 2 ^ e := by rw [← pow_add, Nat.sub_add_cancel he]
  unfold spacing
  rw [hlog, zpow_natCast, hpow]
  push_cast
  field_simp

theorem nearest_exact {p k : Nat} (hk : k ≤ 2 ^ p) : nearest p k = k := by
  have hlog : Int.log 2 (k : ℚ) = (Nat.log 2 k : Nat) := Int.log_natCast 2 k
  have he : Nat.log 2 k ≤ p := by
    calc Nat.log 2 k ≤ Nat.log 2 (2 ^ p) := Nat.log_mono_right hk
      _ = p := Nat.log_pow (by norm_num) p
  have hwhole := div_spacing hlog he k
  have hpos := spacing_pos p (k : ℚ)
  unfold nearest
  rw [hwhole, roundEven_natCast, ← hwhole]
  field_simp

theorem nearest_close (p : Nat) {x : ℚ} (hx : 0 ≤ x) :
    2 * (2 ^ p : Nat) * (nearest p x - x) ≤ x := by
  rcases hx.eq_or_lt with rfl | hx
  · rw [nearest_zero, sub_zero, mul_zero]
  · have hnear := (nearest_near p hx.le).1
    calc 2 * ((2 ^ p : Nat) : ℚ) * (nearest p x - x)
        ≤ 2 * ((2 ^ p : Nat) : ℚ) * (spacing p x / 2) := by gcongr; linarith
      _ = 2 ^ p * spacing p x := by push_cast; ring
      _ = 2 ^ Int.log 2 x := pow_mul_spacing p x
      _ ≤ x := pow_log_le hx

/-- The power of two below a number from one up to the largest exact one. -/
theorem log_of_between {p : Nat} {x : ℚ} (hone : 1 ≤ x) (hx : x < 2 ^ p) :
    ∃ e : Nat, Int.log 2 x = e ∧ e < p := by
  have hpos : 0 < x := by linarith
  have hlow : 0 ≤ Int.log 2 x := by
    have h := Int.log_mono_right (b := 2) one_pos hone
    rwa [Int.log_one_right] at h
  have hhigh : Int.log 2 x < p := by
    refine (Int.lt_zpow_iff_log_lt (by norm_num) hpos).mp ?_
    rw [zpow_natCast]
    exact_mod_cast hx
  obtain ⟨e, he⟩ := Int.eq_ofNat_of_zero_le hlow
  exact ⟨e, he, by omega⟩

/-- Where the spacing stays the same, adding one does not change how a number is rounded. -/
theorem nearest_add_one {p e : Nat} {x : ℚ} (hx : 0 ≤ x) (hlog : Int.log 2 x = e) (he : e < p)
    (hnext : Int.log 2 (x + 1) = e) : nearest p (x + 1) = nearest p x + 1 := by
  have hspacing : spacing p (x + 1) = spacing p x := by rw [spacing, hnext, ← hlog, spacing]
  have hpos := spacing_pos p x
  have hstep : p - e = p - e - 1 + 1 := by omega
  have hone : 1 / spacing p x = (2 * 2 ^ (p - e - 1) : Nat) := by
    have h := div_spacing hlog he.le 1
    rwa [Nat.cast_one, one_mul, hstep, pow_succ'] at h
  unfold nearest
  rw [hspacing, add_div, hone, roundEven_add_even (div_nonneg hx hpos.le), Nat.cast_add, add_mul,
    ← hone]
  field_simp

theorem nearest_carries {p m : Nat} {x : ℚ} (hx : 0 ≤ x) (hm : m < 2 ^ p)
    (h : (m : ℚ) ≤ nearest p x) : (m : ℚ) + 1 ≤ nearest p (x + 1) := by
  have hnextExact : nearest p ((m + 1 : Nat) : ℚ) = (m + 1 : Nat) := nearest_exact hm
  push_cast at hnextExact
  by_cases hwhole : (m : ℚ) ≤ x
  · rw [← hnextExact]
    exact nearest_mono p (by positivity) (by linarith)
  · have hbelow : x < m := not_le.mp hwhole
    have hm' : (m : ℚ) + 1 ≤ 2 ^ p := by exact_mod_cast hm
    have hxpos : 0 < x := by
      rcases hx.eq_or_lt with rfl | hx
      · rw [nearest_zero] at h
        linarith
      · exact hx
    obtain ⟨e', he', hlt'⟩ := log_of_between (p := p) (x := x + 1) (by linarith) (by linarith)
    have hlogs := Int.log_mono_right (b := 2) hxpos (show x ≤ x + 1 by linarith)
    by_cases hsame : Int.log 2 x = e'
    · rw [nearest_add_one hx hsame hlt' he']
      linarith
    · -- The spacing at least doubles, so what was rounded away is a quarter of it at most.
      have hdouble : 2 * spacing p x ≤ spacing p (x + 1) := by
        have hstep : Int.log 2 x + 1 ≤ Int.log 2 (x + 1) := by omega
        have hpow : (2 : ℚ) ^ (Int.log 2 x + 1) ≤ 2 ^ Int.log 2 (x + 1) :=
          zpow_le_zpow_right₀ (by norm_num) hstep
        rw [zpow_add_one₀ (by norm_num)] at hpow
        unfold spacing
        rw [← mul_div_assoc]
        gcongr
        linarith
      have hnear := (nearest_near p hx).1
      have hpos := spacing_pos p (x + 1)
      have hexact := div_spacing he' hlt'.le (m + 1)
      have hround : (m + 1) * 2 ^ (p - e') ≤ roundEven ((x + 1) / spacing p (x + 1)) := by
        refine le_roundEven (div_nonneg (by linarith) hpos.le) ?_
        rw [← hexact, sub_lt_iff_lt_add, div_add' _ _ _ hpos.ne', div_lt_div_iff_of_pos_right hpos]
        push_cast
        linarith
      unfold nearest
      calc (m : ℚ) + 1 = ((m + 1 : Nat) : ℚ) / spacing p (x + 1) * spacing p (x + 1) := by
            push_cast
            field_simp
        _ = ((m + 1) * 2 ^ (p - e') : Nat) * spacing p (x + 1) := by rw [hexact]
        _ ≤ roundEven ((x + 1) / spacing p (x + 1)) * spacing p (x + 1) := by gcongr

/-- A format with `p + 1` bits before it rounds, such as 53 of them. -/
theorem nearest_rounds (p : Nat) : Rounds (nearest p) (2 ^ p) where
  mono := nearest_mono p
  exact := nearest_exact
  carries := nearest_carries
  close := nearest_close p

end LibEmbedding.Foundation
