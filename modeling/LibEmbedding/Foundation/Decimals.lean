import LibEmbedding.Foundation.Numerals
import Mathlib.Data.Nat.Digits.Lemmas

/-!
# Doubles read back

A finite double goes through a stream with six significant digits. What is read back is the
number those digits make, where that is zero or in the range of normal doubles.
-/

namespace LibEmbedding.Foundation

/-- The six significant digits of a positive number, and where the first one stands. -/
def significant (a : ℚ) : Nat × Int :=
  let e := exponentOf a
  let m := roundEven (a * scaled 1 (5 - e))
  if m = 1000000 then (100000, e + 1) else (m, e)

/-- The number that the text of `x` stands for. -/
def printed (x : ℚ) : ℚ :=
  if x = 0 then 0
  else
    let (m, e) := significant |x|
    if x < 0 then -scaled m (e - 5) else scaled m (e - 5)

/-- A rational within the bounds of finite doubles. -/
def FiniteDouble (x : ℚ) : Prop := x = 0 ∨ 1 / 2 ^ 1074 ≤ |x| ∧ |x| < 2 ^ 1024

instance (x : ℚ) : Decidable (FiniteDouble x) := inferInstanceAs (Decidable (_ ∨ _))

theorem scaled_eq (n : Nat) (e : Int) : scaled n e = n * (10 : ℚ) ^ e := by
  unfold scaled
  split
  · rename_i hpos
    obtain ⟨k, rfl⟩ := Int.eq_ofNat_of_zero_le hpos
    rw [Int.toNat_natCast, zpow_natCast]
    push_cast
    rfl
  · rename_i hneg
    obtain ⟨k, hk⟩ := Int.eq_ofNat_of_zero_le (by omega : 0 ≤ -e)
    obtain rfl : e = -k := by omega
    rw [Int.neg_neg, Int.toNat_natCast, zpow_neg, zpow_natCast]
    push_cast
    exact div_eq_mul_inv _ _

-- ---------------------------------------------------------------------------
-- Digits
-- ---------------------------------------------------------------------------

theorem decimalValue_append (s t : List UInt8) :
    decimalValue (s ++ t) = decimalValue s * 10 ^ t.length + decimalValue t := by
  rw [decimalValue, List.reverse_append, List.map_append, Nat.ofDigits_append, List.length_map,
    List.length_reverse]
  exact (Nat.add_comm _ _).trans (congrArg (· + _) (Nat.mul_comm _ _))

theorem decimalValue_zeros (k : Nat) : decimalValue (List.replicate k 48) = 0 := by
  rw [decimalValue, List.reverse_replicate, List.map_replicate]
  exact Nat.ofDigits_replicate_zero

theorem decimalValue_leading (k : Nat) (s : List UInt8) :
    decimalValue (List.replicate k 48 ++ s) = decimalValue s := by
  rw [decimalValue_append, decimalValue_zeros, Nat.zero_mul, Nat.zero_add]

theorem decimalValue_trailing (s : List UInt8) (k : Nat) :
    decimalValue (s ++ List.replicate k 48) = decimalValue s * 10 ^ k := by
  rw [decimalValue_append, decimalValue_zeros, Nat.add_zero, List.length_replicate]

/-- What is dropped at the end are zeros. -/
theorem dropZeros_append (digits : List UInt8) :
    ∃ k, digits = dropZeros digits ++ List.replicate k 48 := by
  refine ⟨(digits.reverse.takeWhile (· = 48)).length, ?_⟩
  have hzeros : digits.reverse.takeWhile (· = 48) =
      List.replicate (digits.reverse.takeWhile (· = 48)).length 48 :=
    List.eq_replicate_of_mem fun c hc => by simpa using List.mem_takeWhile_imp hc
  have hsplit := congrArg List.reverse
    (List.takeWhile_append_dropWhile (p := (· = 48)) (l := digits.reverse))
  rw [List.reverse_append, List.reverse_reverse, hzeros, List.reverse_replicate] at hsplit
  exact hsplit.symm

theorem length_decimal (hn : 0 < n) : (decimal n).length = (Nat.digits 10 n).length := by
  rw [decimal, if_neg hn.ne', List.length_map, List.length_reverse]

theorem length_decimal_iff (hn : 0 < n) (k : Nat) :
    (decimal n).length = k + 1 ↔ 10 ^ k ≤ n ∧ n < 10 ^ (k + 1) := by
  rw [length_decimal hn, ← Nat.lt_digits_length_iff (by norm_num) n,
    ← Nat.digits_length_le_iff (by norm_num) n]
  omega

-- ---------------------------------------------------------------------------
-- The exponent
-- ---------------------------------------------------------------------------

theorem leadingZeros_spec (fuel : Nat) (hx : 0 < x) (hfuel : 1 ≤ x * 10 ^ fuel) :
    1 ≤ x * 10 ^ leadingZeros x fuel ∧
      (leadingZeros x fuel = 0 ∨ x * 10 ^ leadingZeros x fuel < 10) := by
  induction fuel generalizing x with
  | zero => exact ⟨hfuel, .inl rfl⟩
  | succ fuel ih =>
    rw [leadingZeros]
    split
    · rename_i hone
      exact ⟨by rwa [pow_zero, mul_one], .inl rfl⟩
    · rename_i hsmall
      have hscale (n : Nat) : x * 10 ^ (n + 1) = x * 10 * 10 ^ n := by rw [pow_succ']; ring
      obtain ⟨hlow, hhigh⟩ := ih (x := x * 10) (by positivity) (by rwa [← hscale])
      refine ⟨by rwa [hscale], .inr ?_⟩
      rw [hscale]
      rcases hhigh with hzero | hhigh
      · rw [hzero, pow_zero, mul_one]
        linarith [not_le.mp hsmall]
      · exact hhigh

/-- The exponent is that of the first significant digit. -/
theorem exponentOf_spec (hx : 1 / 10 ^ 400 ≤ x) :
    (10 : ℚ) ^ exponentOf x ≤ x ∧ x < (10 : ℚ) ^ (exponentOf x + 1) := by
  have hpos : 0 < x := lt_of_lt_of_le (by positivity) hx
  unfold exponentOf
  split
  · rename_i hone
    have hfloor : 1 ≤ x.floor := Int.le_floor.mpr (by exact_mod_cast hone)
    obtain ⟨n, hn⟩ := Int.eq_ofNat_of_zero_le (by omega : 0 ≤ x.floor)
    have hnpos : 0 < n := by omega
    obtain ⟨k, hk⟩ : ∃ k, (decimal n).length = k + 1 :=
      ⟨(decimal n).length - 1, (Nat.succ_pred_eq_of_pos
        (List.length_pos_iff.mpr (decimal_ne_nil n))).symm⟩
    obtain ⟨hlow, hhigh⟩ := (length_decimal_iff hnpos k).mp hk
    have hbelow : (n : ℚ) ≤ x := by
      have h := Int.floor_le x
      rwa [show ⌊x⌋ = (n : Int) from hn, Int.cast_natCast] at h
    have habove : x < (n : ℚ) + 1 := by
      have h := Int.lt_floor_add_one x
      rwa [show ⌊x⌋ = (n : Int) from hn, Int.cast_natCast] at h
    rw [hn, Int.toNat_natCast, hk, Nat.cast_succ, add_sub_cancel_right, zpow_natCast]
    refine ⟨le_trans (by exact_mod_cast hlow) hbelow, habove.trans_le ?_⟩
    have hnext : ((n + 1 : Nat) : ℚ) ≤ ((10 ^ (k + 1) : Nat) : ℚ) := Nat.cast_le.mpr hhigh
    push_cast at hnext
    exact_mod_cast hnext
  · rename_i hsmall
    have hfuel : 1 ≤ x * 10 ^ 400 := by
      rw [div_le_iff₀ (by positivity)] at hx
      exact hx
    obtain ⟨hlow, hhigh⟩ := leadingZeros_spec 400 hpos hfuel
    have hpow : (0 : ℚ) < 10 ^ leadingZeros x 400 := by positivity
    have hhigh : x * 10 ^ leadingZeros x 400 < 10 := by
      refine hhigh.resolve_left fun hzero => hsmall ?_
      rwa [hzero, pow_zero, mul_one] at hlow
    rw [zpow_add₀ (by norm_num), zpow_neg, zpow_natCast, zpow_one, inv_mul_eq_div]
    exact ⟨(inv_le_iff_one_le_mul₀ hpow).mpr hlow, (lt_div_iff₀ hpow).mpr hhigh⟩

theorem roundEven_bounds {x : ℚ} {low high : Nat} (hlow : (low : ℚ) ≤ x) (hhigh : x < high) :
    low ≤ roundEven x ∧ roundEven x ≤ high := by
  have hfloor : (low : Int) ≤ x.floor := Int.le_floor.mpr (by exact_mod_cast hlow)
  have hceil : x.floor < (high : Int) := Int.floor_lt.mpr (by exact_mod_cast hhigh)
  unfold roundEven
  dsimp only
  split <;> omega

theorem FiniteDouble.size (h : FiniteDouble x) (hx : x ≠ 0) : 1 / 10 ^ 400 ≤ |x| := by
  refine le_trans ?_ (h.resolve_left hx).1
  refine one_div_le_one_div_of_le (by positivity) ?_
  calc (2 : ℚ) ^ 1074 ≤ 2 ^ (3 * 400) := pow_le_pow_right₀ (by norm_num) (by norm_num)
    _ = 8 ^ 400 := by rw [pow_mul]; norm_num
    _ ≤ 10 ^ 400 := pow_le_pow_left₀ (by norm_num) (by norm_num) _

/-- There are six digits. -/
theorem significant_digits (ha : 1 / 10 ^ 400 ≤ a) :
    100000 ≤ (significant a).1 ∧ (significant a).1 < 1000000 := by
  obtain ⟨hlow, hhigh⟩ := exponentOf_spec ha
  have hscale : a * scaled 1 (5 - exponentOf a) = a / 10 ^ exponentOf a * 10 ^ 5 := by
    rw [scaled_eq, Nat.cast_one, one_mul, zpow_sub₀ (by norm_num)]
    norm_num
    ring
  have hpow : (0 : ℚ) < 10 ^ exponentOf a := by positivity
  have hone : 1 ≤ a / 10 ^ exponentOf a := (one_le_div hpow).mpr hlow
  have hten : a / 10 ^ exponentOf a < 10 := by
    rw [div_lt_iff₀ hpow]
    rwa [zpow_add_one₀ (by norm_num), mul_comm] at hhigh
  have hbounds : 100000 ≤ roundEven (a * scaled 1 (5 - exponentOf a)) ∧
      roundEven (a * scaled 1 (5 - exponentOf a)) ≤ 1000000 := by
    rw [hscale]
    exact roundEven_bounds (by push_cast; linarith) (by push_cast; linarith)
  unfold significant
  dsimp only
  split <;> omega

-- ---------------------------------------------------------------------------
-- The text of a number
-- ---------------------------------------------------------------------------

/-- What the reader makes of a value. -/
def checked (v : ℚ) : Option ℚ := if inRange v then some v else none

def signed (negative : Bool) (v : ℚ) : ℚ := if negative then -v else v

/-- A text that behind either sign is read as the number `v`. -/
def Denotes (text : List UInt8) (v : ℚ) : Prop :=
  ∀ negative, stod ((if negative then [45] else []) ++ text) = checked (signed negative v)

/-- The end of the digits. -/
def Stops (tail : List UInt8) : Prop := ∀ c ∈ tail.head?, isDigit c = false ∧ c ≠ 46

theorem takeWhile_digits {s tail : List UInt8} (hs : ∀ c ∈ s, isDigit c = true)
    (htail : ∀ c ∈ tail.head?, isDigit c = false) :
    (s ++ tail).takeWhile isDigit = s ∧ (s ++ tail).dropWhile isDigit = tail := by
  have hstop : tail.takeWhile isDigit = [] ∧ tail.dropWhile isDigit = tail := by
    cases tail with
    | nil => exact ⟨rfl, rfl⟩
    | cons c tail =>
      have hc := htail c rfl
      exact ⟨List.takeWhile_cons_of_neg (by simp [hc]), List.dropWhile_cons_of_neg (by simp [hc])⟩
  rw [List.takeWhile_append_of_pos hs, List.dropWhile_append_of_pos hs, hstop.1, hstop.2,
    List.append_nil]
  exact ⟨rfl, rfl⟩

theorem readSign_signed (rest : List UInt8) (hdigit : isDigit c = true) (negative : Bool) :
    readSign (((if negative then [45] else []) ++ c :: rest).dropWhile isSpace) =
      (negative, c :: rest) := by
  cases negative with
  | true => rfl
  | false =>
    have hblank : isSpace c = false := (digit_facts hdigit).1
    rw [if_neg Bool.false_ne_true, List.nil_append, List.dropWhile_cons_of_neg (by simp [hblank])]
    exact readSign_digit hdigit

theorem withFraction_eq (whole fraction : List UInt8) :
    withFraction whole fraction = whole ++
      if dropZeros fraction = [] then [] else 46 :: dropZeros fraction := by
  unfold withFraction
  split
  · exact (List.append_nil whole).symm
  · rfl

theorem readFraction_point (hfraction : ∀ c ∈ fraction, isDigit c = true) (htail : Stops tail) :
    readFraction ((if fraction = [] then [] else 46 :: fraction) ++ tail) = (fraction, tail) := by
  split
  · rename_i hnil
    rw [List.nil_append, hnil, readFraction]
    intro rest hpoint
    exact (htail 46 (by rw [hpoint]; rfl)).2 rfl
  · obtain ⟨htake, hdrop⟩ := takeWhile_digits hfraction fun c hc => (htail c hc).1
    rw [List.cons_append, readFraction, htake, hdrop]

/-- Digits, a point and more digits, an exponent. -/
theorem denotes_parts (whole fraction tail : List UInt8)
    (hwhole : ∀ c ∈ whole, isDigit c = true) (hne : whole ≠ [])
    (hfraction : ∀ c ∈ fraction, isDigit c = true) (htail : Stops tail) :
    Denotes (whole ++ ((if fraction = [] then [] else 46 :: fraction) ++ tail))
      (scaled (decimalValue (whole ++ fraction)) (readExponent tail - fraction.length)) := by
  have hstop : ∀ c ∈ ((if fraction = [] then [] else 46 :: fraction) ++ tail).head?,
      isDigit c = false := by
    intro c hc
    split at hc
    · exact (htail c hc).1
    · obtain rfl := Option.some.inj hc
      rfl
  obtain ⟨htake, hdrop⟩ := takeWhile_digits hwhole hstop
  intro negative
  obtain ⟨c, rest, hcons⟩ := List.exists_cons_of_ne_nil hne
  have hc : isDigit c = true := hwhole c (hcons ▸ List.mem_cons_self)
  have hsign := readSign_signed
    (rest ++ ((if fraction = [] then [] else 46 :: fraction) ++ tail)) hc negative
  rw [← List.cons_append, ← hcons] at hsign
  rw [stod, hsign]
  dsimp only
  rw [htake, hdrop, readFraction_point hfraction htail]
  dsimp only
  rw [if_neg (List.append_ne_nil_of_left_ne_nil hne _)]
  rfl

theorem scaled_mul_pow (n k : Nat) (e : Int) : scaled (n * 10 ^ k) (e - k) = scaled n e := by
  rw [scaled_eq, scaled_eq, zpow_sub₀ (by norm_num), zpow_natCast]
  push_cast
  field_simp

/-- Zeros at the end of the fraction make no difference. -/
theorem denotes_withFraction (whole fraction tail : List UInt8)
    (hwhole : ∀ c ∈ whole, isDigit c = true) (hne : whole ≠ [])
    (hfraction : ∀ c ∈ fraction, isDigit c = true) (htail : Stops tail) :
    Denotes (withFraction whole fraction ++ tail)
      (scaled (decimalValue (whole ++ fraction)) (readExponent tail - fraction.length)) := by
  obtain ⟨k, hk⟩ := dropZeros_append fraction
  have hkept : ∀ c ∈ dropZeros fraction, isDigit c = true := fun c hc =>
    hfraction c (hk ▸ List.mem_append_left _ hc)
  have hvalue : scaled (decimalValue (whole ++ fraction)) (readExponent tail - fraction.length) =
      scaled (decimalValue (whole ++ dropZeros fraction))
        (readExponent tail - (dropZeros fraction).length) := by
    have hlength : (fraction.length : Int) = (dropZeros fraction).length + k := by
      conv_lhs => rw [hk]
      simp
    have htext : decimalValue (whole ++ fraction) =
        decimalValue (whole ++ dropZeros fraction) * 10 ^ k := by
      conv_lhs => rw [hk]
      rw [← List.append_assoc, decimalValue_trailing]
    rw [hlength, ← sub_sub, htext, scaled_mul_pow]
  rw [hvalue, withFraction_eq, List.append_assoc]
  exact denotes_parts _ _ _ hwhole hne hkept htail

theorem readExponent_shown (e : Int) :
    readExponent (101 :: (if e < 0 then 45 else 43) ::
      (if e.natAbs < 10 then 48 :: decimal e.natAbs else decimal e.natAbs)) = e := by
  have hdigits : ∀ c ∈ (if e.natAbs < 10 then 48 :: decimal e.natAbs else decimal e.natAbs),
      isDigit c = true := by
    intro c hc
    split at hc
    · rcases List.mem_cons.mp hc with rfl | hrest
      · rfl
      · exact decimal_digits _ c hrest
    · exact decimal_digits _ c hc
  have hvalue : decimalValue (if e.natAbs < 10 then 48 :: decimal e.natAbs else decimal e.natAbs) =
      e.natAbs := by
    split
    · exact (decimalValue_leading 1 (decimal e.natAbs)).trans (decimalValue_decimal _)
    · exact decimalValue_decimal _
  rw [readExponent, if_pos (.inl rfl)]
  by_cases hneg : e < 0
  · simp only [if_pos hneg, readSign, List.takeWhile_eq_self_iff.mpr hdigits, hvalue, if_true]
    omega
  · simp only [if_neg hneg, readSign, List.takeWhile_eq_self_iff.mpr hdigits, hvalue,
      Bool.false_eq_true, if_false]
    omega

/-- The text of six digits is the number they make. -/
theorem denotes_showDigits (hlow : 100000 ≤ m) (hhigh : m < 1000000) (e : Int) :
    Denotes (showDigits m e) (scaled m (e - 5)) := by
  have hsix : (decimal m).length = 6 := (length_decimal_iff (by omega) 5).mpr ⟨hlow, hhigh⟩
  have hdigits := decimal_digits m
  have htake (n : Nat) : ∀ c ∈ (decimal m).take n, isDigit c = true :=
    fun c hc => hdigits c (List.mem_of_mem_take hc)
  have hdrop (n : Nat) : ∀ c ∈ (decimal m).drop n, isDigit c = true :=
    fun c hc => hdigits c (List.mem_of_mem_drop hc)
  have hne (n : Nat) (hn : 0 < n) : (decimal m).take n ≠ [] := by
    rw [Ne, List.take_eq_nil_iff, not_or]
    exact ⟨hn.ne', decimal_ne_nil m⟩
  unfold showDigits
  dsimp only
  split
  · have hread := denotes_withFraction _ _ (101 :: (if e < 0 then 45 else 43) ::
        (if e.natAbs < 10 then 48 :: decimal e.natAbs else decimal e.natAbs))
      (htake 1) (hne 1 (by norm_num)) (hdrop 1) (fun c hc => by obtain rfl := Option.some.inj hc; decide)
    rwa [readExponent_shown, List.take_append_drop, decimalValue_decimal, List.length_drop,
      hsix] at hread
  · split
    · rename_i hneg
      have hread := denotes_withFraction [48]
        (List.replicate (e.natAbs - 1) 48 ++ decimal m) []
        (List.forall_mem_singleton.mpr (by decide)) (List.cons_ne_nil _ _)
        (fun c hc => (List.mem_append.mp hc).elim
          (fun h => by rw [List.eq_of_mem_replicate h]; rfl) (hdigits c))
        (fun c hc => by cases hc)
      have hexponent : readExponent [] -
          ((List.replicate (e.natAbs - 1) 48 ++ decimal m).length : Int) = e - 5 := by
        rw [List.length_append, List.length_replicate, hsix, readExponent]
        omega
      have hvalue : decimalValue ([48] ++ (List.replicate (e.natAbs - 1) 48 ++ decimal m)) = m := by
        rw [← List.append_assoc]
        exact (decimalValue_leading (e.natAbs - 1 + 1) (decimal m)).trans (decimalValue_decimal m)
      rwa [hexponent, hvalue, List.append_nil] at hread
    · rename_i hlarge hneg
      have hread := denotes_withFraction _ _ [] (htake (e.toNat + 1))
        (hne _ (by omega)) (hdrop (e.toNat + 1)) (fun c hc => by cases hc)
      have hexponent : readExponent [] - (((decimal m).drop (e.toNat + 1)).length : Int) =
          e - 5 := by
        rw [List.length_drop, hsix, readExponent]
        omega
      rwa [hexponent, List.take_append_drop, decimalValue_decimal, List.append_nil] at hread

theorem showDouble_eq (hx : x ≠ 0) :
    showDouble x = (if x < 0 then [45] else []) ++
      showDigits (significant |x|).1 (significant |x|).2 := by
  rw [showDouble, if_neg hx, significant]
  dsimp only
  split <;> split <;> rfl

/-- A finite double is read back as it was printed, or not at all where that is subnormal. -/
theorem stod_showDouble (h : FiniteDouble x) : stod (showDouble x) = checked (printed x) := by
  by_cases hx : x = 0
  · subst hx
    decide +kernel
  · obtain ⟨hlow, hhigh⟩ := significant_digits (h.size hx)
    have hread := denotes_showDigits hlow hhigh (significant |x|).2 (decide (x < 0))
    simp only [decide_eq_true_eq] at hread
    rw [showDouble_eq hx, hread, printed, if_neg hx]
    simp [signed]

-- ---------------------------------------------------------------------------
-- Single digits
-- ---------------------------------------------------------------------------

theorem inRange_neg (v : ℚ) : inRange (-v) = inRange v := by
  unfold inRange
  rw [Rat.num_neg_eq_neg_num, Int.natAbs_neg, Rat.den_neg_eq_den]
  simp only [neg_eq_zero]

/-- The text opens with a digit, behind the sign. -/
theorem showDouble_head (h : FiniteDouble x) :
    ∃ (negative : Bool) (d : UInt8) (rest : List UInt8), isDigit d = true ∧
      showDouble x = (if negative then [45] else []) ++ d :: rest := by
  by_cases hx : x = 0
  · subst hx
    exact ⟨false, 48, [], rfl, rfl⟩
  · refine ⟨decide (x < 0), ?_⟩
    rw [showDouble_eq hx]
    simp only [decide_eq_true_eq, List.append_cancel_left_eq]
    obtain ⟨hlow, hhigh⟩ := significant_digits (h.size hx)
    obtain ⟨d, digits, hdigits⟩ := List.exists_cons_of_ne_nil (decimal_ne_nil (significant |x|).1)
    have hd : isDigit d = true := decimal_digits _ d (hdigits ▸ List.mem_cons_self)
    unfold showDigits
    dsimp only
    rw [hdigits]
    split
    · exact ⟨d, _, hd, by rw [withFraction_eq]; rfl⟩
    · split
      · exact ⟨48, _, rfl, by rw [withFraction_eq]; rfl⟩
      · exact ⟨d, _, hd, by rw [withFraction_eq]; rfl⟩

/-- A digit by itself is read as its value. -/
theorem stod_digit (hd : isDigit d = true) (negative : Bool) :
    stod ((if negative then [45] else []) ++ [d]) =
      some (signed negative ((d.toNat - 48 : Nat) : ℚ)) := by
  have hread := denotes_parts [d] [] [] (by simpa using hd) (List.cons_ne_nil _ _) (by simp)
    (fun c hc => by cases hc) negative
  have hvalue : scaled (decimalValue ([d] ++ []))
      (readExponent [] - (([] : List UInt8).length : Int)) = ((d.toNat - 48 : Nat) : ℚ) := by
    simp [scaled, readExponent, decimalValue]
  have hbyte : (d.toNat - 48 : Nat) < 2 ^ 1024 :=
    (Nat.sub_le _ _).trans_lt <| (UInt8.toNat_lt d).trans_le <|
      Nat.pow_le_pow_right (by norm_num) (by norm_num)
  have hrange : inRange (signed negative ((d.toNat - 48 : Nat) : ℚ)) = true := by
    have hpos := inRange_int (d.toNat - 48 : Nat) ((Int.natAbs_natCast _).trans_lt hbyte)
    rw [Int.cast_natCast] at hpos
    cases negative with
    | false => exact hpos
    | true => exact (inRange_neg _).trans hpos
  rw [hvalue] at hread
  simpa [checked, hrange] using hread

/-- Six digits that make a whole number of one digit have the point behind the first. -/
theorem one_digit {m n : Nat} {e : Int} (hlow : 100000 ≤ m) (hhigh : m < 1000000) (hone : 1 ≤ n)
    (hnine : n ≤ 9) (h : scaled m (e - 5) = n) : e = 0 ∧ m = n * 100000 := by
  have hpow : (0 : ℚ) < 10 ^ e := by positivity
  have hlow : (100000 : ℚ) ≤ m := by exact_mod_cast hlow
  have hhigh : (m : ℚ) < 1000000 := by exact_mod_cast hhigh
  have hone : (1 : ℚ) ≤ n := by exact_mod_cast hone
  have hnine : (n : ℚ) ≤ 9 := by exact_mod_cast hnine
  have hvalue : (m : ℚ) * 10 ^ e = n * 100000 := by
    rw [scaled_eq, zpow_sub₀ (by norm_num)] at h
    rw [← h]
    norm_num
    ring
  have hbelow : (10 : ℚ) ^ e < 10 ^ (1 : Int) := by
    rw [zpow_one]
    nlinarith
  have habove : (10 : ℚ) ^ (0 : Int) < 10 ^ (e + 1) := by
    rw [zpow_zero, zpow_add_one₀ (by norm_num)]
    nlinarith
  have hupper := (zpow_lt_zpow_iff_right₀ (by norm_num : (1 : ℚ) < 10)).mp hbelow
  have hlower := (zpow_lt_zpow_iff_right₀ (by norm_num : (1 : ℚ) < 10)).mp habove
  obtain rfl : e = 0 := by omega
  rw [zpow_zero, mul_one] at hvalue
  exact ⟨rfl, by exact_mod_cast hvalue⟩

/-- A number that is printed as a whole one of one digit is printed with that digit alone. -/
theorem showDouble_digit (h : FiniteDouble x) {k : Int} (hk : k.natAbs ≤ 9)
    (hprinted : printed x = k) : showDouble x = showInt k := by
  by_cases hx : x = 0
  · subst hx
    obtain rfl : k = 0 := by
      rw [printed, if_pos rfl] at hprinted
      exact_mod_cast hprinted.symm
    decide
  · obtain ⟨hlow, hhigh⟩ := significant_digits (h.size hx)
    obtain ⟨m, e, hsplit⟩ : ∃ m e, significant |x| = (m, e) := ⟨_, _, rfl⟩
    rw [hsplit] at hlow hhigh
    rw [printed, if_neg hx, hsplit] at hprinted
    rw [showDouble_eq hx, hsplit]
    dsimp only at hprinted hlow hhigh ⊢
    have hpos : 0 < scaled m (e - 5) := by
      have hm : (100000 : ℚ) ≤ m := by exact_mod_cast hlow
      rw [scaled_eq]
      positivity
    have habs : scaled m (e - 5) = (k.natAbs : ℚ) := by
      have hnonneg := hpos.le
      rw [Nat.cast_natAbs, Int.cast_abs, ← hprinted]
      split
      · rw [abs_neg, abs_of_nonneg hnonneg]
      · rw [abs_of_nonneg hnonneg]
    have hone : 1 ≤ k.natAbs := by
      rw [habs] at hpos
      exact_mod_cast hpos
    obtain ⟨rfl, hdigits⟩ := one_digit hlow hhigh hone hk habs
    have hnine : ∀ n ≤ 9, 1 ≤ n → showDigits (n * 100000) 0 = decimal n := by decide
    have hsign : x < 0 ↔ k < 0 := by
      constructor
      · intro hneg
        rw [if_pos hneg, habs] at hprinted
        have hlt : (k : ℚ) < 0 := by linarith
        exact_mod_cast hlt
      · intro hneg
        by_contra hpos
        rw [if_neg hpos, habs] at hprinted
        have hlt : (k : ℚ) < 0 := by exact_mod_cast hneg
        linarith
    rw [hdigits, hnine _ hk hone, showInt]
    simp only [hsign]
    split <;> rfl

-- ---------------------------------------------------------------------------
-- Texts that are cut short
-- ---------------------------------------------------------------------------

theorem digit_prefix : ∀ k ∈ Finset.Icc (-9 : Int) 9, ∀ size ∈ (showInt k).inits,
    stod size = none ∨ size = showInt k := by
  decide +kernel

theorem digit_value (hd : isDigit d = true) (negative : Bool) :
    ∃ k : Int, k.natAbs ≤ 9 ∧ signed negative ((d.toNat - 48 : Nat) : ℚ) = k := by
  have hnine : d.toNat - 48 ≤ 9 := by
    simp only [isDigit, Bool.and_eq_true, decide_eq_true_eq, UInt8.le_iff_toNat_le] at hd
    have hhigh : d.toNat ≤ 57 := hd.2
    omega
  cases negative with
  | false => exact ⟨(d.toNat - 48 : Nat), by rwa [Int.natAbs_natCast], (Int.cast_natCast _).symm⟩
  | true =>
    refine ⟨-(d.toNat - 48 : Nat), by rwa [Int.natAbs_neg, Int.natAbs_natCast], ?_⟩
    rw [Int.cast_neg, Int.cast_natCast]
    rfl

/-- No start of the text of a number is taken for another number exactly when the number is printed
as one digit. -/
theorem stod_prefix_iff (h : FiniteDouble x) :
    (∀ size, size <+: showDouble x → stod size = none ∨ stod size = stod (showDouble x)) ↔
      ∃ k : Int, k.natAbs ≤ 9 ∧ printed x = k := by
  constructor
  · intro hall
    obtain ⟨negative, d, rest, hd, htext⟩ := showDouble_head h
    obtain ⟨k, hk, hdigit⟩ := digit_value hd negative
    refine ⟨k, hk, ?_⟩
    have hfirst : (if negative then [45] else []) ++ [d] <+: showDouble x :=
      ⟨rest, by rw [htext, List.append_assoc]; rfl⟩
    have hsame := (hall _ hfirst).resolve_left (by rw [stod_digit hd]; exact Option.some_ne_none _)
    rw [stod_digit hd, hdigit, stod_showDouble h, checked] at hsame
    exact (Option.ite_none_right_eq_some.mp hsame.symm).2 |> Option.some.inj
  · rintro ⟨k, hk, hprinted⟩ size hsize
    have htext := showDouble_digit h hk hprinted
    have hrange : k ∈ Finset.Icc (-9 : Int) 9 := Finset.mem_Icc.mpr (by omega)
    rw [htext] at hsize ⊢
    rcases digit_prefix k hrange size ((List.mem_inits _ _).mpr hsize) with hnone | rfl
    · exact .inl hnone
    · exact .inr rfl

end LibEmbedding.Foundation
