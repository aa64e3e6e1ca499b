import Mathlib.Data.List.TakeWhile
import Mathlib.Data.Nat.Digits.Defs
import Mathlib.Tactic

/-!
# Numbers as text

The decimal text of an integer, the text a stream gives a double by default, and `std::stod`,
which reads the longest decimal number at the front. Values are exact: a double is the
rational it stands for.
-/

namespace LibEmbedding.Foundation

def isDigit (c : UInt8) : Bool := 48 ≤ c && c ≤ 57

def digitChar (d : Nat) : UInt8 := 48 + UInt8.ofNat d

def decimal (n : Nat) : List UInt8 :=
  if n = 0 then [48] else (Nat.digits 10 n).reverse.map digitChar

def decimalValue (digits : List UInt8) : Nat :=
  Nat.ofDigits 10 (digits.reverse.map fun c => c.toNat - 48)

/-- An `int` in a stream. -/
def showInt (n : Int) : List UInt8 :=
  if n < 0 then 45 :: decimal n.natAbs else decimal n.natAbs

-- ---------------------------------------------------------------------------
-- Reading
-- ---------------------------------------------------------------------------

def isSpace (c : UInt8) : Bool := c = 32 || (9 ≤ c && c ≤ 13)

def readSign : List UInt8 → Bool × List UInt8
  | 45 :: rest => (true, rest)
  | 43 :: rest => (false, rest)
  | rest => (false, rest)

def readFraction : List UInt8 → List UInt8 × List UInt8
  | 46 :: rest => (rest.takeWhile isDigit, rest.dropWhile isDigit)
  | rest => ([], rest)

def readExponent : List UInt8 → Int
  | [] => 0
  | c :: rest =>
    if c = 101 ∨ c = 69 then
      let (negative, rest) := readSign rest
      let value : Int := decimalValue (rest.takeWhile isDigit)
      if negative then -value else value
    else 0

def scaled (n : Nat) (exponent : Int) : ℚ :=
  if 0 ≤ exponent then ((n * 10 ^ exponent.toNat : Nat) : ℚ)
  else (n : ℚ) / ((10 ^ (-exponent).toNat : Nat) : ℚ)

/-- Zero, or within the range of normal doubles. -/
def inRange (v : ℚ) : Bool :=
  v = 0 || (v.num.natAbs < 2 ^ 1024 * v.den && v.den ≤ v.num.natAbs * 2 ^ 1022)

/-- `std::stod` on decimal numbers. `none` is an exception; infinities and NaN, which the
callers refuse, are none either. -/
def stod (s : List UInt8) : Option ℚ :=
  let (negative, s) := readSign (s.dropWhile isSpace)
  let whole := s.takeWhile isDigit
  let (fraction, s) := readFraction (s.dropWhile isDigit)
  if whole ++ fraction = [] then none
  else
    let v := scaled (decimalValue (whole ++ fraction)) (readExponent s - fraction.length)
    let v := if negative then -v else v
    if inRange v then some v else none

-- ---------------------------------------------------------------------------
-- Doubles in a stream
-- ---------------------------------------------------------------------------

/-- The first `k` with `1 ≤ x * 10 ^ k`, for a positive `x`. -/
def leadingZeros (x : ℚ) : Nat → Nat
  | 0 => 0
  | fuel + 1 => if 1 ≤ x then 0 else leadingZeros (x * 10) fuel + 1

/-- `⌊log₁₀ x⌋` of a positive `x` that is no smaller than doubles are. -/
def exponentOf (x : ℚ) : Int :=
  if 1 ≤ x then ((decimal x.floor.toNat).length : Int) - 1 else -(leadingZeros x 400 : Int)

/-- To the nearest integer, halves to the even one. -/
def roundEven (x : ℚ) : Nat :=
  let n := x.floor.toNat
  if x - n < 1 / 2 ∨ (x - n = 1 / 2 ∧ n % 2 = 0) then n else n + 1

def dropZeros (digits : List UInt8) : List UInt8 := (digits.reverse.dropWhile (· = 48)).reverse

def withFraction (whole fraction : List UInt8) : List UInt8 :=
  if dropZeros fraction = [] then whole else whole ++ 46 :: dropZeros fraction

/-- Six significant digits `m` of a positive number, the first one at `10 ^ exponent`. -/
def showDigits (m : Nat) (exponent : Int) : List UInt8 :=
  let digits := decimal m
  if exponent < -4 ∨ 6 ≤ exponent then
    withFraction (digits.take 1) (digits.drop 1) ++ 101 :: (if exponent < 0 then 45 else 43) ::
      (if exponent.natAbs < 10 then 48 :: decimal exponent.natAbs else decimal exponent.natAbs)
  else if exponent < 0 then
    withFraction [48] (List.replicate (exponent.natAbs - 1) 48 ++ digits)
  else withFraction (digits.take (exponent.toNat + 1)) (digits.drop (exponent.toNat + 1))

/-- A finite double in a stream, with the default precision. -/
def showDouble (x : ℚ) : List UInt8 :=
  if x = 0 then [48]
  else
    let a := |x|
    let e := exponentOf a
    let m := roundEven (a * scaled 1 (5 - e))
    let text := if m = 1000000 then showDigits 100000 (e + 1) else showDigits m e
    if x < 0 then 45 :: text else text

/-- `%.2f` and its kin: a number with `places` digits behind the point. -/
def showFixed (places : Nat) (x : ℚ) : List UInt8 :=
  let digits := decimal (roundEven (|x| * 10 ^ places))
  let padded := List.replicate (places + 1 - digits.length) 48 ++ digits
  let text := padded.take (padded.length - places) ++
    if places = 0 then [] else 46 :: padded.drop (padded.length - places)
  if x < 0 then 45 :: text else text

-- ---------------------------------------------------------------------------
-- Integers read back
-- ---------------------------------------------------------------------------

theorem toNat_digitChar (h : d < 10) : (digitChar d).toNat = 48 + d := by
  interval_cases d <;> rfl

theorem isDigit_digitChar (h : d < 10) : isDigit (digitChar d) = true := by
  interval_cases d <;> rfl

theorem decimal_digits (n : Nat) : ∀ c ∈ decimal n, isDigit c = true := by
  intro c hc
  unfold decimal at hc
  split at hc
  · rw [List.mem_singleton.mp hc]
    rfl
  · obtain ⟨d, hd, rfl⟩ := List.mem_map.mp hc
    exact isDigit_digitChar (Nat.digits_lt_base (by norm_num) (List.mem_reverse.mp hd))

theorem decimal_ne_nil (n : Nat) : decimal n ≠ [] := by
  unfold decimal
  split
  · exact List.cons_ne_nil _ _
  · rename_i hn
    rw [Ne, List.map_eq_nil_iff, List.reverse_eq_nil_iff]
    exact Nat.digits_ne_nil_iff_ne_zero.mpr hn

theorem decimalValue_decimal (n : Nat) : decimalValue (decimal n) = n := by
  unfold decimal
  split
  · rename_i hn
    rw [hn]
    rfl
  · have hvalues : ∀ d ∈ Nat.digits 10 n, (digitChar d).toNat - 48 = d := by
      intro d hd
      rw [toNat_digitChar (Nat.digits_lt_base (by norm_num) hd), Nat.add_sub_cancel_left]
    have hmap : ((Nat.digits 10 n).map digitChar).map (fun c => c.toNat - 48) =
        Nat.digits 10 n := by
      rw [List.map_map]
      exact (List.map_congr_left hvalues).trans (List.map_id _)
    rw [decimalValue, ← List.map_reverse, List.reverse_reverse, hmap, Nat.ofDigits_digits]

theorem digit_facts (h : isDigit c = true) : isSpace c = false ∧ c ≠ 45 ∧ c ≠ 43 := by
  simp only [isDigit, Bool.and_eq_true, decide_eq_true_eq, UInt8.le_iff_toNat_le] at h
  refine ⟨Bool.eq_false_iff.mpr fun hspace => ?_, ?_, ?_⟩
  · simp only [isSpace, Bool.or_eq_true, Bool.and_eq_true, decide_eq_true_eq,
      UInt8.le_iff_toNat_le] at hspace
    rcases hspace with rfl | hspace
    · simp at h
    · simp at h hspace
      omega
  · rintro rfl
    simp at h
  · rintro rfl
    simp at h

theorem readSign_digit (h : isDigit c = true) : readSign (c :: rest) = (false, c :: rest) := by
  obtain ⟨-, hminus, hplus⟩ := digit_facts h
  unfold readSign
  split
  · rename_i heq
    cases heq
    exact absurd rfl hminus
  · rename_i heq
    cases heq
    exact absurd rfl hplus
  · rfl

theorem inRange_int (v : Int) (h : v.natAbs < 2 ^ 1024) : inRange (v : ℚ) = true := by
  unfold inRange
  rw [Rat.num_intCast, Rat.den_intCast, Bool.or_eq_true, Bool.and_eq_true]
  by_cases hv : v = 0
  · exact .inl (by rw [hv]; rfl)
  · refine .inr ⟨by rw [mul_one]; exact decide_eq_true h, decide_eq_true ?_⟩
    have hpos : 0 < v.natAbs := Int.natAbs_pos.mpr hv
    exact Nat.mul_pos hpos (Nat.pow_pos Nat.two_pos)

/-- What the reader makes of digits and nothing else, behind a sign. -/
theorem stod_digits (n : Nat) (negative : Bool) (h : n < 2 ^ 1024)
    (hs : readSign (s.dropWhile isSpace) = (negative, decimal n)) :
    stod s = some (if negative then -(n : ℚ) else n) := by
  have hvalue : scaled (decimalValue (decimal n ++ [])) (readExponent [] - ([] : List UInt8).length) =
      n := by
    have hexponent : readExponent [] - (([] : List UInt8).length : Int) = 0 := rfl
    rw [List.append_nil, decimalValue_decimal, hexponent, scaled, if_pos le_rfl, Int.toNat_zero,
      pow_zero, mul_one]
  have hrange : inRange (if negative then -(n : ℚ) else n) = true := by
    cases negative with
    | false => exact inRange_int n h
    | true =>
      have hneg := inRange_int (-(n : Int)) (by rwa [Int.natAbs_neg])
      push_cast at hneg
      exact hneg
  rw [stod, hs]
  dsimp only
  rw [List.takeWhile_eq_self_iff.mpr (decimal_digits n),
    List.dropWhile_eq_nil_iff.mpr (decimal_digits n)]
  have hfraction : readFraction [] = ([], []) := rfl
  rw [hfraction]
  dsimp only
  rw [if_neg, hvalue, if_pos hrange]
  rw [List.append_nil]
  exact decimal_ne_nil n

/-- An integer is read back. -/
theorem stod_showInt (n : Int) (h : n.natAbs < 2 ^ 1024) : stod (showInt n) = some (n : ℚ) := by
  obtain ⟨c, rest, hdecimal⟩ := List.exists_cons_of_ne_nil (decimal_ne_nil n.natAbs)
  have hc : isDigit c = true := decimal_digits n.natAbs c (hdecimal ▸ List.mem_cons_self)
  unfold showInt
  split
  · rename_i hneg
    rw [stod_digits n.natAbs true h rfl, if_pos rfl, ← Int.cast_natCast, ← Int.cast_neg]
    congr 2
    omega
  · rename_i hpos
    have hsign : readSign ((decimal n.natAbs).dropWhile isSpace) = (false, decimal n.natAbs) := by
      rw [hdecimal, List.dropWhile_cons_of_neg (by rw [(digit_facts hc).1]; exact Bool.false_ne_true)]
      exact readSign_digit hc
    rw [stod_digits n.natAbs false h hsign, if_neg Bool.false_ne_true, ← Int.cast_natCast]
    congr 2
    omega

end LibEmbedding.Foundation
