import LibEmbedding.Foundation.Decimals
import LibEmbedding.Foundation.Rounding

/-!
# Doubles as text

What `%.{p}g` makes of a double and what `strtod` makes of the text. Doubles have 53 bits here
and exponents without bounds, so there are no infinities and no subnormals. Seventeen digits
bring a double back, and fifteen digits come back from the double they are read as.
-/

namespace LibEmbedding.Foundation

/-- The nearest number of `p + 1` bits, with either sign. -/
def roundTo (p : Nat) (x : ℚ) : ℚ := if x < 0 then -nearest p (-x) else nearest p x

/-- The conversion to `double`. -/
abbrev toDouble (x : ℚ) : ℚ := roundTo 52 x

/-- The conversion to `float`. -/
abbrev toFloat (x : ℚ) : ℚ := roundTo 23 x

-- ---------------------------------------------------------------------------
-- `printf`
-- ---------------------------------------------------------------------------

/-- The `p` digits of a positive number, and where the first one stands. -/
def significantTo (p : Nat) (a : ℚ) : Nat × Int :=
  let e := exponentOf a
  let m := roundEven (a * scaled 1 (p - 1 - e))
  if m = 10 ^ p then (10 ^ (p - 1), e + 1) else (m, e)

/-- `%g` of the digits `m`, without a sign. -/
def showGeneralDigits (p m : Nat) (exponent : Int) : List UInt8 :=
  let digits := decimal m
  if exponent < -4 ∨ p ≤ exponent then
    withFraction (digits.take 1) (digits.drop 1) ++ 101 :: (if exponent < 0 then 45 else 43) ::
      (if exponent.natAbs < 10 then 48 :: decimal exponent.natAbs else decimal exponent.natAbs)
  else if exponent < 0 then
    withFraction [48] (List.replicate (exponent.natAbs - 1) 48 ++ digits)
  else withFraction (digits.take (exponent.toNat + 1)) (digits.drop (exponent.toNat + 1))

/-- `%.{p}g` -/
def showGeneral (p : Nat) (x : ℚ) : List UInt8 :=
  if x = 0 then [48]
  else
    let (m, e) := significantTo p |x|
    let text := showGeneralDigits p m e
    if x < 0 then 45 :: text else text

/-- The number of these digits. -/
def general (p : Nat) (x : ℚ) : ℚ :=
  if x = 0 then 0
  else
    let (m, e) := significantTo p |x|
    if x < 0 then -scaled m (e - (p - 1)) else scaled m (e - (p - 1))

-- ---------------------------------------------------------------------------
-- `strtod`
-- ---------------------------------------------------------------------------

/-- What is behind the exponent. An `e` without digits is none. -/
def afterExponent : List UInt8 → List UInt8
  | [] => []
  | c :: rest =>
    if c = 101 ∨ c = 69 then
      let digits := (readSign rest).2
      if digits.takeWhile isDigit = [] then c :: rest else digits.dropWhile isDigit
    else c :: rest

/-- The value and the number of bytes it is read from. -/
def strtod (s : List UInt8) : ℚ × Nat :=
  let (negative, text) := readSign (s.dropWhile isSpace)
  let whole := text.takeWhile isDigit
  let (fraction, tail) := readFraction (text.dropWhile isDigit)
  if whole ++ fraction = [] then (0, 0)
  else
    let v := scaled (decimalValue (whole ++ fraction)) (readExponent tail - fraction.length)
    (toDouble (signed negative v), s.length - (afterExponent tail).length)

theorem strtod_taken_le (s : List UInt8) : (strtod s).2 ≤ s.length := by
  simp only [strtod]
  split
  · exact Nat.zero_le _
  · exact Nat.sub_le _ _

-- ---------------------------------------------------------------------------
-- Rounding
-- ---------------------------------------------------------------------------

theorem roundEven_eq {x : ℚ} {n : Nat} (hx : 0 ≤ x) (h : |x - n| < 1 / 2) : roundEven x = n := by
  rw [abs_lt] at h
  apply le_antisymm
  · have hnear := (roundEven_near hx).1
    have hlt : (roundEven x : ℚ) < n + 1 := by linarith
    exact Nat.lt_succ_iff.mp (by exact_mod_cast hlt)
  · exact le_roundEven hx (by linarith)

theorem log_eq {x : ℚ} {e : Int} (hlow : (2 : ℚ) ^ e ≤ x) (hhigh : x < 2 ^ (e + 1)) :
    Int.log 2 x = e := by
  have hx : 0 < x := lt_of_lt_of_le (by positivity) hlow
  have hle : e ≤ Int.log 2 x :=
    (Int.zpow_le_iff_le_log (by norm_num) hx).mp (by exact_mod_cast hlow)
  have hlt : Int.log 2 x < e + 1 :=
    (Int.lt_zpow_iff_log_lt (by norm_num) hx).mp (by exact_mod_cast hhigh)
  omega

theorem nearest_eq {p n : Nat} {x s : ℚ} (hx : 0 ≤ x) (hs : spacing p x = s)
    (h : |x - n * s| < s / 2) : nearest p x = n * s := by
  subst hs
  have hpos := spacing_pos p x
  have hround : roundEven (x / spacing p x) = n := by
    apply roundEven_eq (div_nonneg hx hpos.le)
    have hsub : x / spacing p x - n = (x - n * spacing p x) / spacing p x := by field_simp
    rw [hsub, abs_div, abs_of_pos hpos, div_lt_iff₀ hpos]
    linarith
  rw [nearest, hround]

/-- The error of rounding, on either side. -/
theorem nearest_error (p : Nat) {x : ℚ} (hx : 0 < x) : 2 ^ (p + 1) * |nearest p x - x| ≤ x := by
  obtain ⟨hlow, hhigh⟩ := nearest_near p hx.le
  have hnear : |nearest p x - x| ≤ spacing p x / 2 := by
    rw [abs_le]
    constructor <;> linarith
  calc 2 ^ (p + 1) * |nearest p x - x| ≤ 2 ^ (p + 1) * (spacing p x / 2) := by gcongr
    _ = 2 ^ p * spacing p x := by ring
    _ = 2 ^ Int.log 2 x := pow_mul_spacing p x
    _ ≤ x := pow_log_le hx

/-- What is close enough to a number of the format is rounded to it, also where the spacing
changes. -/
theorem nearest_of_close {p : Nat} {x v : ℚ} (hx : 0 < x) (hexact : nearest p x = x)
    (h : 2 ^ (p + 2) * |v - x| < x) : nearest p v = x := by
  obtain ⟨s, hs⟩ : ∃ s, spacing p x = s := ⟨_, rfl⟩
  obtain ⟨k, hk⟩ : ∃ k : Nat, x = k * s := ⟨_, by rw [← hs]; exact hexact.symm⟩
  have hspos : 0 < s := hs ▸ spacing_pos p x
  have hpow : 2 ^ p * s = 2 ^ Int.log 2 x := hs ▸ pow_mul_spacing p x
  have hlow : 2 ^ p * s ≤ x := hpow ▸ pow_log_le hx
  have hhigh : x < 2 * (2 ^ p * s) := hpow ▸ lt_pow_log x
  have hnear : |v - x| < s / 2 := by
    have hlt : 2 ^ (p + 2) * |v - x| < 2 ^ (p + 2) * (s / 2) := by
      calc 2 ^ (p + 2) * |v - x| < 2 * (2 ^ p * s) := h.trans hhigh
        _ = 2 ^ (p + 2) * (s / 2) := by ring
    exact lt_of_mul_lt_mul_left hlt (by positivity)
  have hquarter : |v - x| < x / 4 := by
    have hp : (4 : ℚ) ≤ 2 ^ (p + 2) := by
      rw [pow_add]
      have hone : (1 : ℚ) ≤ 2 ^ p := one_le_pow₀ one_le_two
      linarith
    have hle : 4 * |v - x| ≤ 2 ^ (p + 2) * |v - x| := by gcongr
    linarith
  rw [abs_lt] at hnear hquarter
  by_cases hbelow : v < 2 ^ p * s
  · -- Only a power of two has such a `v` so close below it.
    have hkp : k = 2 ^ p := by
      apply le_antisymm
      · by_contra hmore
        have hmore : ((2 ^ p + 1 : Nat) : ℚ) ≤ k := by exact_mod_cast not_le.mp hmore
        push_cast at hmore
        nlinarith
      · have hle : ((2 ^ p : Nat) : ℚ) ≤ k := by
          push_cast
          exact le_of_mul_le_mul_right (hk ▸ hlow) hspos
        exact_mod_cast hle
    have hxp : x = 2 ^ p * s := by rw [hk, hkp]; push_cast; ring
    have hlog : Int.log 2 v = Int.log 2 x - 1 := by
      apply log_eq
      · rw [zpow_sub_one₀ (by norm_num), ← hpow]
        linarith
      · rw [sub_add_cancel, ← hpow]
        exact hbelow
    have hspacing : spacing p v = s / 2 := by
      rw [spacing, hlog, zpow_sub_one₀ (by norm_num), ← hs, spacing]
      ring
    have hclose : |v - (2 ^ (p + 1) : Nat) * (s / 2)| < s / 2 / 2 := by
      have hsame : ((2 ^ (p + 1) : Nat) : ℚ) * (s / 2) = x := by rw [hxp]; push_cast; ring
      rw [hsame]
      have hlt : 2 ^ (p + 2) * |v - x| < 2 ^ (p + 2) * (s / 2 / 2) := by
        calc 2 ^ (p + 2) * |v - x| < x := h
          _ = 2 ^ (p + 2) * (s / 2 / 2) := by rw [hxp]; ring
      exact lt_of_mul_lt_mul_left hlt (by positivity)
    rw [nearest_eq (by linarith) hspacing hclose, hxp]
    push_cast
    ring
  · have hkp : k + 1 ≤ 2 ^ (p + 1) := by
      have hlt : (k : ℚ) < 2 ^ (p + 1) := by
        rw [pow_succ']
        exact lt_of_mul_lt_mul_right (by rw [← hk]; linarith) hspos.le
      exact_mod_cast hlt
    have hkp : (k : ℚ) + 1 ≤ 2 ^ (p + 1) := by exact_mod_cast hkp
    have habove : x + s ≤ 2 * (2 ^ p * s) := by
      calc x + s = (k + 1) * s := by rw [hk]; ring
        _ ≤ 2 ^ (p + 1) * s := by gcongr
        _ = 2 * (2 ^ p * s) := by ring
    have hlog : Int.log 2 v = Int.log 2 x := by
      apply log_eq
      · rw [← hpow]
        exact not_lt.mp hbelow
      · rw [zpow_add_one₀ (by norm_num), ← hpow]
        linarith
    have hspacing : spacing p v = s := by rw [spacing, hlog, ← hs, spacing]
    rw [nearest_eq (by linarith) hspacing (by rw [← hk, abs_lt]; exact ⟨hnear.1, hnear.2⟩), hk]

-- ---------------------------------------------------------------------------
-- Significant digits
-- ---------------------------------------------------------------------------

theorem exponentOf_eq {x : ℚ} {e : Int} (hx : 1 / 10 ^ 400 ≤ x) (hlow : (10 : ℚ) ^ e ≤ x)
    (hhigh : x < (10 : ℚ) ^ (e + 1)) : exponentOf x = e := by
  obtain ⟨hbelow, habove⟩ := exponentOf_spec hx
  have hlt := (zpow_lt_zpow_iff_right₀ (by norm_num : (1 : ℚ) < 10)).mp (hlow.trans_lt habove)
  have hgt := (zpow_lt_zpow_iff_right₀ (by norm_num : (1 : ℚ) < 10)).mp (hbelow.trans_lt hhigh)
  omega

theorem mul_scaled_one (a : ℚ) (p : Nat) (e : Int) :
    a * scaled 1 (p - 1 - e) = a / (10 : ℚ) ^ (e - (p - 1)) := by
  rw [scaled_eq, Nat.cast_one, one_mul, ← neg_sub e, zpow_neg, div_eq_mul_inv]

/-- A unit of the last of `p` digits. -/
theorem pow_last (p : Nat) (hp : 1 ≤ p) (e : Int) :
    (10 : ℚ) ^ e = 10 ^ (p - 1) * (10 : ℚ) ^ (e - (p - 1)) := by
  rw [← zpow_natCast, ← zpow_add₀ (by norm_num)]
  congr 1
  omega

/-- The digits are `p`, and they are half a unit of the last one away at most. -/
theorem significantTo_spec {p : Nat} (hp : 1 ≤ p) (ha : 1 / 10 ^ 400 ≤ a) :
    10 ^ (p - 1) ≤ (significantTo p a).1 ∧ (significantTo p a).1 < 10 ^ p ∧
      2 * 10 ^ (p - 1) *
        |scaled (significantTo p a).1 ((significantTo p a).2 - (p - 1)) - a| ≤ a := by
  obtain ⟨hlow, hhigh⟩ := exponentOf_spec ha
  obtain ⟨e, he⟩ : ∃ e, exponentOf a = e := ⟨_, rfl⟩
  obtain ⟨u, hu⟩ : ∃ u, u = (10 : ℚ) ^ (e - (p - 1)) := ⟨_, rfl⟩
  have hupos : 0 < u := hu ▸ by positivity
  have hunit := pow_last p hp e
  rw [he] at hlow hhigh
  rw [zpow_add_one₀ (by norm_num)] at hhigh
  rw [hunit, ← hu] at hlow hhigh
  have hten : (10 : ℚ) ^ p = 10 ^ (p - 1) * 10 := by
    rw [← pow_succ, Nat.sub_add_cancel hp]
  have hbounds : 10 ^ (p - 1) ≤ roundEven (a / u) ∧ roundEven (a / u) ≤ 10 ^ p := by
    apply roundEven_bounds
    · rw [le_div_iff₀ hupos]
      push_cast
      exact hlow
    · rw [div_lt_iff₀ hupos]
      push_cast
      rw [hten]
      linarith
  have hnear : 2 * 10 ^ (p - 1) * |roundEven (a / u) * u - a| ≤ a := by
    have hapos : 0 < a := lt_of_lt_of_le (by positivity) ha
    obtain ⟨hbelow, habove⟩ := roundEven_near (div_nonneg hapos.le hupos.le)
    rw [le_div_iff₀ hupos] at hbelow
    rw [div_le_iff₀ hupos] at habove
    have hhalf : |roundEven (a / u) * u - a| ≤ u / 2 := by
      rw [abs_le]
      constructor <;> linarith
    calc 2 * 10 ^ (p - 1) * |roundEven (a / u) * u - a| ≤ 2 * 10 ^ (p - 1) * (u / 2) := by gcongr
      _ = 10 ^ (p - 1) * u := by ring
      _ ≤ a := hlow
  unfold significantTo
  dsimp only
  rw [he, mul_scaled_one, ← hu]
  split
  · rename_i hfull
    refine ⟨le_rfl, Nat.pow_lt_pow_right (by norm_num) (by omega), ?_⟩
    have hvalue : scaled (10 ^ (p - 1)) (e + 1 - (p - 1)) = roundEven (a / u) * u := by
      rw [scaled_eq, hfull, hu, show e + 1 - ((p : Int) - 1) = e - (p - 1) + 1 by ring,
        zpow_add_one₀ (by norm_num)]
      push_cast
      rw [hten]
      ring
    rw [hvalue]
    exact hnear
  · rename_i hfull
    refine ⟨hbounds.1, lt_of_le_of_ne hbounds.2 hfull, ?_⟩
    rw [scaled_eq, ← hu]
    exact hnear

/-- As many digits as a double can hold come back from the double nearest to them. -/
theorem significantTo_nearest {p m : Nat} {e : Int} (hp : 1 ≤ p) (hdigits : 10 ^ p ≤ 2 ^ 51)
    (hlow : 10 ^ (p - 1) ≤ m) (hhigh : m < 10 ^ p)
    (hsize : 1 / 10 ^ 400 ≤ nearest 52 (scaled m (e - (p - 1)))) :
    significantTo p (nearest 52 (scaled m (e - (p - 1)))) = (m, e) := by
  obtain ⟨u, hu⟩ : ∃ u, u = (10 : ℚ) ^ (e - (p - 1)) := ⟨_, rfl⟩
  have hupos : 0 < u := hu ▸ by positivity
  have hunit := pow_last p hp e
  rw [← hu] at hunit
  have hten : (10 : ℚ) ^ p = 10 ^ (p - 1) * 10 := by
    rw [← pow_succ, Nat.sub_add_cancel hp]
  have hvalue : scaled m (e - (p - 1)) = m * u := by rw [scaled_eq, ← hu]
  rw [hvalue] at hsize ⊢
  have hlowQ : (10 : ℚ) ^ (p - 1) ≤ m := by exact_mod_cast hlow
  have hhighQ : (m : ℚ) + 1 ≤ 10 ^ p := by exact_mod_cast hhigh
  have hmpos : (0 : ℚ) < m := lt_of_lt_of_le (by positivity) hlowQ
  have hdigitsQ : (10 : ℚ) ^ p ≤ 2 ^ 51 := by exact_mod_cast hdigits
  obtain ⟨y, hy⟩ : ∃ y, nearest 52 (m * u) = y := ⟨_, rfl⟩
  have herror := nearest_error 52 (mul_pos hmpos hupos)
  rw [hy] at herror hsize ⊢
  have hypos : 0 < y := lt_of_lt_of_le (by positivity) hsize
  -- The error is less than a quarter of a unit, which no digit notices.
  have hquarter : |y - m * u| < u / 4 := by
    have hlt : 2 ^ 53 * |y - m * u| < 2 ^ 53 * (u / 4) := by
      calc 2 ^ 53 * |y - m * u| ≤ m * u := herror
        _ < 10 ^ p * u := by gcongr; linarith
        _ ≤ 2 ^ 51 * u := by gcongr
        _ = 2 ^ 53 * (u / 4) := by ring
    exact lt_of_mul_lt_mul_left hlt (by positivity)
  have hbounds := abs_lt.mp hquarter
  have hone : u ≤ 10 ^ (p - 1) * u := le_mul_of_one_le_left hupos.le (one_le_pow₀ (by norm_num))
  have hmu : 10 ^ (p - 1) * u ≤ m * u := by gcongr
  unfold significantTo
  dsimp only
  by_cases hbelow : y < (10 : ℚ) ^ e
  · -- Just below a power of ten the digits begin one place later, and are rounded up to it.
    have hm : m = 10 ^ (p - 1) := by
      refine le_antisymm ?_ hlow
      by_contra hmore
      have hmore : (10 : ℚ) ^ (p - 1) + 1 ≤ m := by exact_mod_cast not_le.mp hmore
      nlinarith
    have hmQ : (m : ℚ) = 10 ^ (p - 1) := by rw [hm]; push_cast; rfl
    have hexponent : exponentOf y = e - 1 := by
      apply exponentOf_eq hsize
      · rw [zpow_sub_one₀ (by norm_num), hunit, ← hmQ]
        linarith
      · rw [sub_add_cancel]
        exact hbelow
    have hclose : |y - m * u| < u / 10 / 2 := by
      have hlt : 2 ^ 53 * |y - m * u| < 2 ^ 53 * (u / 10 / 2) := by
        calc 2 ^ 53 * |y - m * u| ≤ m * u := herror
          _ = 10 ^ p * u / 10 := by rw [hten, ← hmQ]; ring
          _ ≤ 2 ^ 51 * u / 10 := by gcongr
          _ < 2 ^ 53 * (u / 10 / 2) := by linarith
      exact lt_of_mul_lt_mul_left hlt (by positivity)
    have hround : roundEven (y / (u / 10)) = 10 ^ p := by
      apply roundEven_eq (by positivity)
      have hsub : y / (u / 10) - (10 ^ p : Nat) = (y - m * u) / (u / 10) := by
        rw [hmQ]
        push_cast
        rw [hten]
        field_simp
      rw [hsub, abs_div, abs_of_pos (show (0 : ℚ) < u / 10 by positivity),
        div_lt_iff₀ (by positivity)]
      linarith
    have hplace : (10 : ℚ) ^ (e - 1 - (p - 1)) = u / 10 := by
      rw [hu, show e - 1 - ((p : Int) - 1) = e - (p - 1) - 1 by ring, zpow_sub_one₀ (by norm_num)]
      ring
    rw [hexponent, mul_scaled_one, hplace, hround, if_pos rfl, hm, sub_add_cancel]
  · have hexponent : exponentOf y = e := by
      apply exponentOf_eq hsize (not_lt.mp hbelow)
      rw [zpow_add_one₀ (by norm_num), hunit, mul_right_comm, ← hten]
      have hlast : m * u + u ≤ 10 ^ p * u := by
        rw [← add_one_mul]
        gcongr
      linarith
    have hround : roundEven (y / u) = m := by
      apply roundEven_eq (by positivity)
      have hsub : y / u - m = (y - m * u) / u := by field_simp
      rw [hsub, abs_div, abs_of_pos hupos, div_lt_iff₀ hupos]
      linarith
    rw [hexponent, mul_scaled_one, ← hu, hround, if_neg hhigh.ne]

-- ---------------------------------------------------------------------------
-- The text is read as its number
-- ---------------------------------------------------------------------------

/-- A text that behind either sign is read to its end, as the double nearest to `v`. -/
def Reads (text : List UInt8) (v : ℚ) : Prop :=
  ∀ negative, strtod ((if negative then [45] else []) ++ text) =
    (toDouble (signed negative v), ((if negative then [45] else []) ++ text : List UInt8).length)

/-- Digits, a point and more digits, an exponent. -/
theorem reads_parts (whole fraction tail : List UInt8)
    (hwhole : ∀ c ∈ whole, isDigit c = true) (hne : whole ≠ [])
    (hfraction : ∀ c ∈ fraction, isDigit c = true) (htail : Stops tail)
    (hend : afterExponent tail = []) :
    Reads (whole ++ ((if fraction = [] then [] else 46 :: fraction) ++ tail))
      (scaled (decimalValue (whole ++ fraction)) (readExponent tail - fraction.length)) := by
  have hstop : ∀ c ∈ ((if fraction = [] then [] else 46 :: fraction) ++ tail).head?,
      isDigit c = false := by
    intro c hc
    split at hc
    · exact (htail c hc).1
    · obtain rfl := Option.some.inj hc
      rfl
  obtain ⟨htake, hdrop⟩ := takeWhile_digits hwhole hstop
  intro negative
  obtain ⟨c, rest, hcons⟩ := List.exists_cons_of_ne_nil hne
  have hc : isDigit c = true := hwhole c (hcons ▸ List.mem_cons_self)
  have hsign := readSign_signed
    (rest ++ ((if fraction = [] then [] else 46 :: fraction) ++ tail)) hc negative
  rw [← List.cons_append, ← hcons] at hsign
  rw [strtod, hsign]
  dsimp only
  rw [htake, hdrop, readFraction_point hfraction htail]
  dsimp only
  rw [if_neg (List.append_ne_nil_of_left_ne_nil hne _), hend]
  rfl

theorem scaled_dropZeros (whole fraction : List UInt8) (e : Int) :
    scaled (decimalValue (whole ++ fraction)) (e - fraction.length) =
      scaled (decimalValue (whole ++ dropZeros fraction)) (e - (dropZeros fraction).length) := by
  obtain ⟨k, hk⟩ := dropZeros_append fraction
  have hlength : (fraction.length : Int) = (dropZeros fraction).length + k := by
    conv_lhs => rw [hk]
    simp
  have htext : decimalValue (whole ++ fraction) =
      decimalValue (whole ++ dropZeros fraction) * 10 ^ k := by
    conv_lhs => rw [hk]
    rw [← List.append_assoc, decimalValue_trailing]
  rw [hlength, ← sub_sub, htext, scaled_mul_pow]

/-- Zeros at the end of the fraction make no difference. -/
theorem reads_withFraction (whole fraction tail : List UInt8)
    (hwhole : ∀ c ∈ whole, isDigit c = true) (hne : whole ≠ [])
    (hfraction : ∀ c ∈ fraction, isDigit c = true) (htail : Stops tail)
    (hend : afterExponent tail = []) :
    Reads (withFraction whole fraction ++ tail)
      (scaled (decimalValue (whole ++ fraction)) (readExponent tail - fraction.length)) := by
  obtain ⟨k, hk⟩ := dropZeros_append fraction
  have hkept : ∀ c ∈ dropZeros fraction, isDigit c = true := fun c hc =>
    hfraction c (hk ▸ List.mem_append_left _ hc)
  rw [scaled_dropZeros, withFraction_eq, List.append_assoc]
  exact reads_parts _ _ _ hwhole hne hkept htail hend

/-- The text of an exponent ends with it. -/
theorem afterExponent_shown (e : Int) :
    afterExponent (101 :: (if e < 0 then 45 else 43) ::
      (if e.natAbs < 10 then 48 :: decimal e.natAbs else decimal e.natAbs)) = [] := by
  have hdigits : ∀ c ∈ (if e.natAbs < 10 then 48 :: decimal e.natAbs else decimal e.natAbs),
      isDigit c = true := by
    intro c hc
    split at hc
    · rcases List.mem_cons.mp hc with rfl | hrest
      · rfl
      · exact decimal_digits _ c hrest
    · exact decimal_digits _ c hc
  have hne : (if e.natAbs < 10 then 48 :: decimal e.natAbs else decimal e.natAbs) ≠ [] := by
    split
    · exact List.cons_ne_nil _ _
    · exact decimal_ne_nil _
  have hsign : (readSign ((if e < 0 then 45 else 43) ::
      (if e.natAbs < 10 then 48 :: decimal e.natAbs else decimal e.natAbs))).2 =
        if e.natAbs < 10 then 48 :: decimal e.natAbs else decimal e.natAbs := by
    by_cases hneg : e < 0
    · rw [if_pos hneg, readSign]
    · rw [if_neg hneg, readSign]
  rw [afterExponent, if_pos (.inl rfl)]
  dsimp only
  rw [hsign, List.takeWhile_eq_self_iff.mpr hdigits, if_neg hne,
    List.dropWhile_eq_nil_iff.mpr hdigits]

theorem reads_showGeneralDigits {p m : Nat} (hp : 1 ≤ p) (hlow : 10 ^ (p - 1) ≤ m)
    (hhigh : m < 10 ^ p) (e : Int) : Reads (showGeneralDigits p m e) (scaled m (e - (p - 1))) := by
  have hmpos : 0 < m := lt_of_lt_of_le (by positivity) hlow
  have hlength : (decimal m).length = p := by
    have h := (length_decimal_iff hmpos (p - 1)).mpr ⟨hlow, by rwa [Nat.sub_add_cancel hp]⟩
    omega
  have hdigits := decimal_digits m
  have htake (n : Nat) : ∀ c ∈ (decimal m).take n, isDigit c = true :=
    fun c hc => hdigits c (List.mem_of_mem_take hc)
  have hdrop (n : Nat) : ∀ c ∈ (decimal m).drop n, isDigit c = true :=
    fun c hc => hdigits c (List.mem_of_mem_drop hc)
  have hne (n : Nat) (hn : 0 < n) : (decimal m).take n ≠ [] := by
    rw [Ne, List.take_eq_nil_iff, not_or]
    exact ⟨hn.ne', decimal_ne_nil m⟩
  have hnone : Stops [] := fun c hc => by cases hc
  unfold showGeneralDigits
  dsimp only
  split
  · have hread := reads_withFraction _ _ _ (htake 1) (hne 1 (by norm_num)) (hdrop 1)
      (fun c hc => by obtain rfl := Option.some.inj hc; decide) (afterExponent_shown e)
    rw [readExponent_shown, List.take_append_drop, decimalValue_decimal, List.length_drop,
      hlength] at hread
    convert hread using 2
    omega
  · split
    · rename_i hneg
      have hread := reads_withFraction [48]
        (List.replicate (e.natAbs - 1) 48 ++ decimal m) []
        (List.forall_mem_singleton.mpr (by decide)) (List.cons_ne_nil _ _)
        (fun c hc => (List.mem_append.mp hc).elim
          (fun h => by rw [List.eq_of_mem_replicate h]; rfl) (hdigits c)) hnone rfl
      have hvalue : decimalValue ([48] ++ (List.replicate (e.natAbs - 1) 48 ++ decimal m)) = m := by
        rw [← List.append_assoc]
        exact (decimalValue_leading (e.natAbs - 1 + 1) (decimal m)).trans (decimalValue_decimal m)
      rw [hvalue, List.append_nil, List.length_append, List.length_replicate, hlength,
        readExponent] at hread
      convert hread using 2
      omega
    · rename_i hlarge hneg
      have hread := reads_withFraction _ _ [] (htake (e.toNat + 1))
        (hne _ (by omega)) (hdrop (e.toNat + 1)) hnone rfl
      rw [List.take_append_drop, decimalValue_decimal, List.append_nil, List.length_drop, hlength,
        readExponent] at hread
      convert hread using 2
      omega

theorem showGeneral_eq {p : Nat} {x : ℚ} (hx : x ≠ 0) :
    showGeneral p x = (if x < 0 then [45] else []) ++
      showGeneralDigits p (significantTo p |x|).1 (significantTo p |x|).2 := by
  rw [showGeneral, if_neg hx]
  dsimp only
  split <;> rfl

theorem general_eq {p : Nat} {x : ℚ} (hx : x ≠ 0) :
    general p x = signed (x < 0)
      (scaled (significantTo p |x|).1 ((significantTo p |x|).2 - (p - 1))) := by
  rw [general, if_neg hx]
  simp [signed]

/-- The text is read to its end, as the double nearest to its digits. -/
theorem strtod_showGeneral {p : Nat} (hp : 1 ≤ p) {x : ℚ} (hx : x = 0 ∨ 1 / 10 ^ 400 ≤ |x|) :
    strtod (showGeneral p x) = (toDouble (general p x), (showGeneral p x).length) := by
  rcases eq_or_ne x 0 with rfl | hne
  · rw [showGeneral, if_pos rfl, general, if_pos rfl]
    decide +kernel
  · obtain ⟨hlow, hhigh, -⟩ := significantTo_spec hp (hx.resolve_left hne)
    have hread := reads_showGeneralDigits hp hlow hhigh (significantTo p |x|).2 (decide (x < 0))
    simp only [decide_eq_true_eq] at hread
    rw [showGeneral_eq hne, hread, general_eq hne]

-- ---------------------------------------------------------------------------
-- There and back
-- ---------------------------------------------------------------------------

theorem signed_abs (x : ℚ) : signed (x < 0) |x| = x := by
  unfold signed
  split
  · rename_i hneg
    rw [abs_of_neg (by simpa using hneg), neg_neg]
  · rename_i hpos
    rw [abs_of_nonneg (by simpa using hpos)]

theorem signed_lt_zero {v : ℚ} (hv : 0 < v) (negative : Bool) :
    signed negative v < 0 ↔ negative = true := by
  cases negative with
  | true => simpa [signed] using hv
  | false => simpa [signed] using hv.le

theorem abs_signed (negative : Bool) (v : ℚ) : |signed negative v| = |v| := by
  cases negative with
  | true => exact abs_neg v
  | false => rfl

theorem roundTo_signed (p : Nat) {v : ℚ} (hv : 0 < v) (negative : Bool) :
    roundTo p (signed negative v) = signed negative (nearest p v) := by
  cases negative with
  | true =>
    have hneg : -v < 0 := neg_lt_zero.mpr hv
    simp only [signed, roundTo, if_true, if_pos hneg, neg_neg]
  | false =>
    have hpos : ¬ v < 0 := not_lt.mpr hv.le
    simp only [signed, roundTo, Bool.false_eq_true, if_false, if_neg hpos]

theorem roundTo_abs (p : Nat) {x : ℚ} (hx : x ≠ 0) :
    roundTo p x = signed (x < 0) (nearest p |x|) := by
  conv_lhs => rw [← signed_abs x]
  exact roundTo_signed p (abs_pos.mpr hx) _

@[simp] theorem roundTo_zero (p : Nat) : roundTo p 0 = 0 := by simp [roundTo]

theorem roundTo_int {p : Nat} {n : Int} (hn : n.natAbs ≤ 2 ^ p) : roundTo p n = n := by
  rcases eq_or_ne n 0 with rfl | hne
  · exact_mod_cast roundTo_zero p
  · have hx : (n : ℚ) ≠ 0 := by exact_mod_cast hne
    have habs : |(n : ℚ)| = n.natAbs := by rw [Nat.cast_natAbs, Int.cast_abs]
    rw [roundTo_abs p hx, habs, nearest_exact hn, ← habs, signed_abs]

theorem abs_signed_sub (negative : Bool) (v w : ℚ) :
    |signed negative v - signed negative w| = |v - w| := by
  cases negative with
  | true =>
    have hsub : -v - -w = -(v - w) := by ring
    rw [signed, signed, if_pos rfl, if_pos rfl, hsub, abs_neg]
  | false => rfl

/-- What is close enough to a number of the format is converted to it. -/
theorem roundTo_of_close {p : Nat} {x v : ℚ} (hx : x ≠ 0) (hexact : roundTo p x = x)
    (h : 2 ^ (p + 2) * |v - x| < |x|) : roundTo p v = x := by
  have hpos := abs_pos.mpr hx
  have hnearest : nearest p |x| = |x| := by
    have hnonneg : 0 ≤ nearest p |x| := le_trans (by positivity) (nearest_bounds p hpos).1
    have habs := congrArg abs (roundTo_abs p hx)
    rw [hexact, abs_signed, abs_of_nonneg hnonneg] at habs
    exact habs.symm
  have hnear : |v - x| < |x| := by
    have hone : (1 : ℚ) ≤ 2 ^ (p + 2) := one_le_pow₀ (by norm_num)
    exact lt_of_le_of_lt (le_mul_of_one_le_left (abs_nonneg _) hone) h
  have hne : v ≠ 0 := by
    rintro rfl
    rw [zero_sub, abs_neg] at hnear
    exact lt_irrefl _ hnear
  have hsign : v < 0 ↔ x < 0 := by
    rcases hx.lt_or_gt with hneg | hpos
    · rw [abs_of_neg hneg, abs_lt] at hnear
      exact iff_of_true (by linarith) hneg
    · rw [abs_of_pos hpos, abs_lt] at hnear
      exact iff_of_false (by linarith) hpos.le.not_gt
  have hv : signed (x < 0) |v| = v := by
    rw [← decide_eq_decide.mpr hsign]
    exact signed_abs v
  have hclose : 2 ^ (p + 2) * abs (|v| - |x|) < |x| := by
    have hsame := abs_signed_sub (x < 0) |v| |x|
    rw [hv, signed_abs] at hsame
    rwa [← hsame]
  rw [roundTo_abs p hne, nearest_of_close hpos hnearest hclose, decide_eq_decide.mpr hsign,
    signed_abs]

/-- What is rounded stays as it is. -/
theorem nearest_nearest (p : Nat) {x : ℚ} (hx : 0 < x) : nearest p (nearest p x) = nearest p x := by
  obtain ⟨hlow, hhigh⟩ := nearest_bounds p hx
  obtain ⟨k, hk⟩ : ∃ k : Nat, nearest p x = k * spacing p x := ⟨_, rfl⟩
  have hspacing := spacing_pos p x
  have hpow := pow_mul_spacing p x
  obtain ⟨e, he⟩ : ∃ e, Int.log 2 x = e := ⟨_, rfl⟩
  rw [he] at hlow hhigh hpow
  have hpos : 0 < nearest p x := lt_of_lt_of_le (by positivity) hlow
  have hnext : (2 : ℚ) * 2 ^ e = 2 ^ (e + 1) := by rw [zpow_add_one₀ (by norm_num), mul_comm]
  rcases hhigh.lt_or_eq with hhigh | hhigh
  · have hlog : Int.log 2 (nearest p x) = e := log_eq hlow (hnext ▸ hhigh)
    have hsame : spacing p (nearest p x) = spacing p x := by rw [spacing, hlog, ← he, spacing]
    rw [nearest_eq hpos.le hsame (n := k) (by rw [hk, sub_self, abs_zero]; linarith), hk]
  · have hlog : Int.log 2 (nearest p x) = e + 1 := by
      apply log_eq (by rw [hhigh, hnext])
      rw [hhigh, hnext]
      exact zpow_lt_zpow_right₀ (by norm_num) (by omega)
    have htwice : spacing p (nearest p x) = 2 * spacing p x := by
      have hpow' := pow_mul_spacing p (nearest p x)
      rw [hlog, ← hnext, ← hpow] at hpow'
      apply mul_left_cancel₀ (pow_ne_zero p two_ne_zero)
      rw [hpow']
      ring
    have hwhole : nearest p x = (2 ^ p : Nat) * (2 * spacing p x) := by
      rw [hhigh, ← hpow]
      push_cast
      ring
    rw [nearest_eq hpos.le htwice (n := 2 ^ p) (by rw [hwhole, sub_self, abs_zero]; linarith),
      ← hwhole]

theorem roundTo_roundTo (p : Nat) (x : ℚ) : roundTo p (roundTo p x) = roundTo p x := by
  rcases eq_or_ne x 0 with rfl | hne
  · rw [roundTo_zero, roundTo_zero]
  · have hpos := abs_pos.mpr hne
    have hnearest : 0 < nearest p |x| := lt_of_lt_of_le (by positivity) (nearest_bounds p hpos).1
    rw [roundTo_abs p hne, roundTo_signed p hnearest, nearest_nearest p hpos]

theorem nearest_finer {p q : Nat} (hpq : p ≤ q) {x : ℚ} (hx : 0 < x) (h : nearest p x = x) :
    nearest q x = x := by
  obtain ⟨k, hk⟩ : ∃ k : Nat, x = k * spacing p x := ⟨_, h.symm⟩
  have hspacing : spacing p x = (2 ^ (q - p) : Nat) * spacing q x := by
    have hp := pow_mul_spacing p x
    have hq := pow_mul_spacing q x
    apply mul_left_cancel₀ (pow_ne_zero p two_ne_zero)
    rw [hp, ← hq, Nat.cast_pow, Nat.cast_ofNat, ← mul_assoc, ← pow_add, Nat.add_sub_cancel' hpq]
  have hwhole : x = (k * 2 ^ (q - p) : Nat) * spacing q x := by
    conv_lhs => rw [hk, hspacing]
    push_cast
    ring
  have hpos := spacing_pos q x
  rw [nearest_eq hx.le rfl (n := k * 2 ^ (q - p))
    (by rw [← hwhole, sub_self, abs_zero]; linarith), ← hwhole]

/-- A `float` is a `double`. -/
theorem toDouble_of_toFloat {x : ℚ} (h : toFloat x = x) : toDouble x = x := by
  rcases eq_or_ne x 0 with rfl | hne
  · exact roundTo_zero 52
  · have hpos := abs_pos.mpr hne
    have hfloat : nearest 23 |x| = |x| := by
      have habs := congrArg abs h
      have hnearest : 0 ≤ nearest 23 |x| :=
        le_trans (by positivity) (nearest_bounds 23 hpos).1
      rwa [toFloat, roundTo_abs 23 hne, abs_signed, abs_of_nonneg hnearest] at habs
    rw [toDouble, roundTo_abs 52 hne, nearest_finer (by norm_num) hpos hfloat, signed_abs]

/-- A number is near its first digits. -/
theorem general_near {p : Nat} (hp : 1 ≤ p) {x : ℚ} (hx : 1 / 10 ^ 400 ≤ |x|) :
    2 * 10 ^ (p - 1) * |general p x - x| ≤ |x| := by
  have hne : x ≠ 0 := by
    rintro rfl
    rw [abs_zero] at hx
    exact absurd hx (not_le.mpr (by positivity))
  have hnear := (significantTo_spec hp hx).2.2
  have hsame := abs_signed_sub (x < 0)
    (scaled (significantTo p |x|).1 ((significantTo p |x|).2 - (p - 1))) |x|
  rw [signed_abs, ← general_eq hne] at hsame
  rwa [hsame]

/-- Seventeen digits bring a double back. -/
theorem toDouble_general {x : ℚ} (hx : x = 0 ∨ 1 / 10 ^ 400 ≤ |x|) (hdouble : toDouble x = x) :
    toDouble (general 17 x) = x := by
  rcases eq_or_ne x 0 with rfl | hne
  · simp [general]
  · have hnear := general_near (p := 17) (by norm_num) (hx.resolve_left hne)
    apply roundTo_of_close hne hdouble
    have habs := abs_pos.mpr hne
    norm_num at hnear ⊢
    linarith

/-- Fifteen digits come back from the double they are read as. -/
theorem showGeneral_toDouble {x : ℚ} (hx : x = 0 ∨ 1 / 10 ^ 399 ≤ |x|) :
    showGeneral 15 (toDouble (general 15 x)) = showGeneral 15 x := by
  rcases eq_or_ne x 0 with rfl | hne
  · simp [general]
  · have hpos := abs_pos.mpr hne
    have hsize : 1 / 10 ^ 400 ≤ |x| / 10 := by
      rw [pow_succ, ← div_div]
      gcongr
      exact hx.resolve_left hne
    have hlarge : 1 / 10 ^ 400 ≤ |x| := hsize.trans (by linarith)
    obtain ⟨hlow, hhigh, hnear⟩ := significantTo_spec (p := 15) (by norm_num) hlarge
    obtain ⟨m, e, hsplit⟩ : ∃ m e, significantTo 15 |x| = (m, e) := ⟨_, _, rfl⟩
    rw [hsplit] at hlow hhigh hnear
    dsimp only at hlow hhigh hnear
    obtain ⟨t, ht⟩ : ∃ t, scaled m (e - ((15 : Nat) - 1)) = t := ⟨_, rfl⟩
    rw [ht] at hnear
    have htpos : 0 < t := by
      have hm : (0 : ℚ) < m := by
        have hm : 0 < m := lt_of_lt_of_le (by positivity) hlow
        exact_mod_cast hm
      rw [← ht, scaled_eq]
      positivity
    have hbelow : |x| / 10 ≤ nearest 52 t := by
      have herror := nearest_error 52 htpos
      have hlow := neg_abs_le (t - |x|)
      have hlow' := neg_abs_le (nearest 52 t - t)
      norm_num at hnear herror
      linarith
    have hback : significantTo 15 (nearest 52 t) = (m, e) := by
      rw [← ht]
      exact significantTo_nearest (by norm_num) (by norm_num) hlow hhigh
        (by rw [ht]; exact hsize.trans hbelow)
    have hdouble : toDouble (general 15 x) = signed (x < 0) (nearest 52 t) := by
      rw [general_eq hne, hsplit, ht, toDouble, roundTo_signed 52 htpos]
    have hnearest : 0 < nearest 52 t := lt_of_lt_of_le (by linarith) hbelow
    have hsign : signed (x < 0) (nearest 52 t) < 0 ↔ x < 0 := by
      rw [signed_lt_zero hnearest, decide_eq_true_eq]
    have hother : signed (x < 0) (nearest 52 t) ≠ 0 := by
      rw [← abs_pos, abs_signed]
      exact abs_pos.mpr hnearest.ne'
    rw [hdouble, showGeneral_eq hother, showGeneral_eq hne, abs_signed, abs_of_pos hnearest, hback,
      hsplit]
    simp only [hsign]

-- ---------------------------------------------------------------------------
-- Integers and lengths
-- ---------------------------------------------------------------------------

theorem strtod_showInt {n : Int} (hn : n.natAbs ≤ 2 ^ 52) :
    strtod (showInt n) = ((n : ℚ), (showInt n).length) := by
  have hread := reads_parts (decimal n.natAbs) [] [] (decimal_digits _) (decimal_ne_nil _)
    (by simp) (fun c hc => by cases hc) rfl (decide (n < 0))
  have hvalue : signed (n < 0) (n.natAbs : ℚ) = n := by
    have habs : ((n.natAbs : Nat) : ℚ) = |(n : ℚ)| := by rw [Nat.cast_natAbs, Int.cast_abs]
    have h := signed_abs (n : ℚ)
    simp only [Int.cast_lt_zero] at h
    rw [habs, h]
  simp only [if_true, List.append_nil, decimalValue_decimal, List.length_nil, readExponent,
    decide_eq_true_eq, scaled_eq] at hread
  simp only [Nat.cast_zero, sub_zero, zpow_zero, mul_one, hvalue] at hread
  have hround : toDouble (n : ℚ) = n := roundTo_int hn
  rw [hround] at hread
  unfold showInt
  split
  · rename_i hneg
    simpa [hneg] using hread
  · rename_i hpos
    simpa [hpos] using hread

theorem decimal_trailing {n : Nat} (hn : 0 < n) (k : Nat) :
    decimal (n * 10 ^ k) = decimal n ++ List.replicate k 48 := by
  have hpos : n * 10 ^ k ≠ 0 := by positivity
  rw [decimal, if_neg hpos, decimal, if_neg hn.ne', Nat.mul_comm,
    Nat.digits_base_pow_mul (by norm_num) hn, List.reverse_append, List.map_append,
    List.reverse_replicate, List.map_replicate]
  rfl

theorem dropZeros_zeros (k : Nat) : dropZeros (List.replicate k 48) = [] := by
  simp [dropZeros]

/-- An integer with at most `p` digits is printed as it is. -/
theorem showGeneral_int {p : Nat} {n : Int} (hn : n.natAbs < 10 ^ p) :
    showGeneral p n = showInt n := by
  rcases eq_or_ne n 0 with rfl | hne
  · simp [showGeneral, showInt, decimal]
  obtain ⟨k, hk⟩ : ∃ k : Nat, n.natAbs = k := ⟨_, rfl⟩
  have hkpos : 0 < k := by omega
  have habs : |(n : ℚ)| = k := by rw [← hk, Nat.cast_natAbs, Int.cast_abs]
  obtain ⟨e, he⟩ : ∃ e, (decimal k).length = e + 1 :=
    Nat.exists_eq_succ_of_ne_zero (by simp [decimal_ne_nil])
  obtain ⟨hlow, hhigh⟩ := (length_decimal_iff hkpos e).mp he
  have hep : e < p := by
    rw [hk] at hn
    exact (Nat.pow_lt_pow_iff_right (by norm_num)).mp (hlow.trans_lt hn)
  have hexponent : exponentOf (k : ℚ) = e := by
    apply exponentOf_eq
    · have hone : (1 : ℚ) ≤ k := by exact_mod_cast hkpos
      refine le_trans ?_ hone
      rw [div_le_one (by positivity)]
      exact one_le_pow₀ (by norm_num)
    · exact_mod_cast hlow
    · exact_mod_cast hhigh
  have hscaled : (k : ℚ) * scaled 1 (p - 1 - e) = (k * 10 ^ (p - 1 - e) : Nat) := by
    have hexp : ((p : Int) - 1 - e) = ((p - 1 - e : Nat) : Int) := by omega
    rw [scaled_eq, hexp, zpow_natCast]
    push_cast
    ring
  have hfull : k * 10 ^ (p - 1 - e) < 10 ^ p := by
    calc k * 10 ^ (p - 1 - e) < 10 ^ (e + 1) * 10 ^ (p - 1 - e) := by gcongr
      _ = 10 ^ p := by rw [← pow_add]; congr 1; omega
  have hdigits : significantTo p (k : ℚ) = (k * 10 ^ (p - 1 - e), (e : Int)) := by
    simp only [significantTo, hexponent, hscaled, roundEven_natCast]
    rw [if_neg hfull.ne]
  have hshown : showGeneralDigits p (k * 10 ^ (p - 1 - e)) e = decimal k := by
    unfold showGeneralDigits
    dsimp only
    rw [if_neg (by omega), if_neg (by omega), decimal_trailing hkpos, Int.toNat_natCast, ← he,
      List.take_left, List.drop_left, withFraction, if_pos (dropZeros_zeros _)]
  have hsign : (n : ℚ) < 0 ↔ n < 0 := Int.cast_lt_zero
  rw [showGeneral_eq (by exact_mod_cast hne), habs, hdigits, hshown, showInt, hk]
  simp only [hsign]
  split <;> rfl

theorem length_withFraction (whole fraction : List UInt8) :
    (withFraction whole fraction).length ≤ whole.length + 1 + fraction.length := by
  obtain ⟨k, hk⟩ := dropZeros_append fraction
  have hlength := congrArg List.length hk
  rw [List.length_append] at hlength
  rw [withFraction]
  split
  · omega
  · rw [List.length_append, List.length_cons]
    omega

theorem length_decimal_le {n k : Nat} (hn : n < 10 ^ (k + 1)) : (decimal n).length ≤ k + 1 := by
  rcases Nat.eq_zero_or_pos n with rfl | hpos
  · simp [decimal]
  · rw [length_decimal hpos]
    exact (Nat.digits_length_le_iff (by norm_num) n).mpr hn

theorem exponentOf_bounds {x : ℚ} (hsmall : 1 / 10 ^ 400 ≤ x) (hlarge : x < 10 ^ 400) :
    -400 ≤ exponentOf x ∧ exponentOf x < 400 := by
  obtain ⟨hlow, hhigh⟩ := exponentOf_spec hsmall
  have hbelow : (10 : ℚ) ^ (-400 : Int) ≤ x := by
    rw [zpow_neg, ← one_div]
    exact hsmall
  have habove : x < (10 : ℚ) ^ (400 : Int) := hlarge
  have hleft := (zpow_lt_zpow_iff_right₀ (by norm_num : (1 : ℚ) < 10)).mp (hbelow.trans_lt hhigh)
  have hright := (zpow_lt_zpow_iff_right₀ (by norm_num : (1 : ℚ) < 10)).mp (hlow.trans_lt habove)
  exact ⟨by omega, hright⟩

theorem length_showGeneralDigits {p m : Nat} {e : Int} (hp : 1 ≤ p) (hm : m < 10 ^ p)
    (he : e.natAbs < 10 ^ 3) : (showGeneralDigits p m e).length ≤ p + 6 := by
  have hdigits : (decimal m).length ≤ p := by
    have h := length_decimal_le (n := m) (k := p - 1) (by rwa [Nat.sub_add_cancel hp])
    omega
  have hexponent := length_decimal_le (k := 2) he
  unfold showGeneralDigits
  dsimp only
  split
  · have h := length_withFraction ((decimal m).take 1) ((decimal m).drop 1)
    simp only [List.length_take, List.length_drop] at h
    rw [List.length_append, List.length_cons, List.length_cons]
    split
    · rw [List.length_cons]
      have hone := length_decimal_le (n := e.natAbs) (k := 0) (by omega)
      omega
    · omega
  split
  · have h := length_withFraction [48] (List.replicate (e.natAbs - 1) 48 ++ decimal m)
    simp only [List.length_singleton, List.length_append, List.length_replicate] at h
    omega
  · have h := length_withFraction ((decimal m).take (e.toNat + 1)) ((decimal m).drop (e.toNat + 1))
    simp only [List.length_take, List.length_drop] at h
    omega

/-- A sign, a point, and an exponent of three digits at most. -/
theorem length_showGeneral {p : Nat} (hp : 1 ≤ p) {x : ℚ}
    (hx : x = 0 ∨ 1 / 10 ^ 400 ≤ |x| ∧ |x| < 10 ^ 400) : (showGeneral p x).length ≤ p + 7 := by
  rcases eq_or_ne x 0 with rfl | hne
  · simp [showGeneral]
  obtain ⟨hsmall, hlarge⟩ := hx.resolve_left hne
  obtain ⟨hlow, hhigh⟩ := exponentOf_bounds hsmall hlarge
  have hm := (significantTo_spec hp hsmall).2.1
  have he : (significantTo p |x|).2.natAbs < 10 ^ 3 := by
    unfold significantTo
    dsimp only
    split
    · dsimp only
      omega
    · dsimp only
      omega
  have hlength := length_showGeneralDigits hp hm he
  rw [showGeneral_eq hne, List.length_append]
  split
  · rw [List.length_singleton]
    omega
  · rw [List.length_nil]
    omega

end LibEmbedding.Foundation
