import LibEmbedding.CjsonText

/-!
# Numbers of a cJSON text

`print_number` writes integers, then fifteen digits where they come close, then seventeen. What
`parse_number` reads from that is the number itself where it is an integer or has been a `float`,
and is printed the same way again in any case.
-/

namespace LibEmbedding

open Foundation

namespace JsonText

-- ---------------------------------------------------------------------------
-- The bytes of a number
-- ---------------------------------------------------------------------------

/-- What `parse_value` takes for a number and `parse_number` reads to its end. -/
def Numeric (text : Bytes) : Prop :=
  (∀ c ∈ text, isNumberByte c = true) ∧ ∃ c ∈ text.head?, c = 45 ∨ isDigit c = true

theorem isNumberByte_digit (h : isDigit c = true) : isNumberByte c = true := by
  simp [isNumberByte, h]

theorem Numeric.append (hs : Numeric s) (ht : ∀ c ∈ t, isNumberByte c = true) :
    Numeric (s ++ t) := by
  obtain ⟨hbytes, c, hc, hhead⟩ := hs
  refine ⟨?_, c, by rw [List.head?_append]; simp at hc; simp [hc], hhead⟩
  simpa [or_imp, forall_and] using ⟨hbytes, ht⟩

theorem Numeric.neg (hs : Numeric s) : Numeric (45 :: s) :=
  ⟨by simpa using ⟨by decide, hs.1⟩, 45, rfl, .inl rfl⟩

theorem numeric_digits {s : Bytes} (hs : ∀ c ∈ s, isDigit c = true) (hne : s ≠ []) :
    Numeric s := by
  obtain ⟨c, rest, rfl⟩ := List.exists_cons_of_ne_nil hne
  exact ⟨fun d hd => isNumberByte_digit (hs d hd), c, rfl, .inr (hs c List.mem_cons_self)⟩

theorem numeric_withFraction {whole fraction : Bytes} (hwhole : ∀ c ∈ whole, isDigit c = true)
    (hne : whole ≠ []) (hfraction : ∀ c ∈ fraction, isDigit c = true) :
    Numeric (withFraction whole fraction) := by
  rw [withFraction_eq]
  apply (numeric_digits hwhole hne).append
  obtain ⟨k, hk⟩ := dropZeros_append fraction
  have hkept : ∀ c ∈ dropZeros fraction, isDigit c = true :=
    fun c hc => hfraction c (hk ▸ List.mem_append_left _ hc)
  split
  · simp
  · simpa using ⟨by decide, fun c hc => isNumberByte_digit (hkept c hc)⟩

theorem numeric_showGeneralDigits (p m : Nat) (e : Int) : Numeric (showGeneralDigits p m e) := by
  have hdigits := decimal_digits m
  have htake (n : Nat) : ∀ c ∈ (decimal m).take n, isDigit c = true :=
    fun c hc => hdigits c (List.mem_of_mem_take hc)
  have hdrop (n : Nat) : ∀ c ∈ (decimal m).drop n, isDigit c = true :=
    fun c hc => hdigits c (List.mem_of_mem_drop hc)
  have hne (n : Nat) : (decimal m).take (n + 1) ≠ [] := by simp [decimal_ne_nil]
  unfold showGeneralDigits
  dsimp only
  split
  · apply (numeric_withFraction (htake 1) (hne 0) (hdrop 1)).append
    have hexponent : ∀ c ∈ decimal e.natAbs, isNumberByte c = true :=
      fun c hc => isNumberByte_digit (decimal_digits _ c hc)
    intro c hc
    simp only [List.mem_cons] at hc
    rcases hc with rfl | rfl | hc
    · rfl
    · split <;> rfl
    · split at hc
      · rcases List.mem_cons.mp hc with rfl | hc
        · rfl
        · exact hexponent c hc
      · exact hexponent c hc
  split
  · apply numeric_withFraction (by simp [isDigit]) (by simp)
    intro c hc
    rcases List.mem_append.mp hc with hc | hc
    · rw [List.eq_of_mem_replicate hc]
      rfl
    · exact hdigits c hc
  · exact numeric_withFraction (htake _) (hne _) (hdrop _)

theorem numeric_showGeneral (p : Nat) (x : ℚ) : Numeric (showGeneral p x) := by
  unfold showGeneral
  split
  · exact ⟨fun c hc => by rw [List.mem_singleton.mp hc]; rfl, 48, rfl, .inr rfl⟩
  · dsimp only
    split
    · exact (numeric_showGeneralDigits _ _ _).neg
    · exact numeric_showGeneralDigits _ _ _

theorem numeric_showInt (n : Int) : Numeric (showInt n) := by
  have hnumeric := numeric_digits (decimal_digits n.natAbs) (decimal_ne_nil n.natAbs)
  unfold showInt
  split
  · exact hnumeric.neg
  · exact hnumeric

theorem numeric_numberText (d : ℚ) : Numeric (numberText d) := by
  unfold numberText
  split
  · exact numeric_showInt _
  · dsimp only
    split
    · exact numeric_showGeneral 15 d
    · exact numeric_showGeneral 17 d

-- ---------------------------------------------------------------------------
-- There and back
-- ---------------------------------------------------------------------------

/-- A double that neither it nor anything near it is subnormal or infinite. -/
def Ordinary (d : ℚ) : Prop := toDouble d = d ∧ (d = 0 ∨ 1 / 2 ^ 1021 ≤ |d| ∧ |d| ≤ 2 ^ 1023)

/-- What the text of a number is read as. -/
def rereadNumber (d : ℚ) : ℚ := (strtod (numberText d)).1

theorem ordinary_half : Ordinary (1 / 2) := by
  refine ⟨by decide +kernel, .inr ⟨?_, ?_⟩⟩
  · rw [abs_of_pos (by norm_num)]
    exact one_div_le_one_div_of_le (by norm_num) (le_self_pow₀ (by norm_num) (by norm_num))
  · rw [abs_of_pos (by norm_num)]
    exact le_trans (by norm_num) (one_le_pow₀ (by norm_num))

theorem pow_two_le_pow_ten (n k : Nat) (h : n ≤ 3 * k) : (2 : ℚ) ^ n ≤ 10 ^ k :=
  calc (2 : ℚ) ^ n ≤ 2 ^ (3 * k) := pow_le_pow_right₀ (by norm_num) h
    _ = 8 ^ k := by rw [pow_mul]; norm_num
    _ ≤ 10 ^ k := pow_le_pow_left₀ (by norm_num) (by norm_num) k

section Ordinary

variable {d : ℚ}

theorem Ordinary.sized (h : Ordinary d) : d = 0 ∨ 1 / 10 ^ 399 ≤ |d| ∧ |d| < 10 ^ 400 := by
  rcases h.2 with hzero | ⟨hlow, hhigh⟩
  · exact .inl hzero
  · refine .inr ⟨le_trans ?_ hlow, hhigh.trans_lt ?_⟩
    · exact one_div_le_one_div_of_le (by positivity) (pow_two_le_pow_ten 1021 399 (by norm_num))
    · calc (2 : ℚ) ^ 1023 ≤ 10 ^ 399 := pow_two_le_pow_ten 1023 399 (by norm_num)
        _ < 10 ^ 400 := pow_lt_pow_right₀ (by norm_num) (by norm_num)

theorem tiny_le : (1 : ℚ) / 10 ^ 400 ≤ 1 / 10 ^ 399 :=
  one_div_le_one_div_of_le (by positivity) (pow_le_pow_right₀ (by norm_num) (by norm_num))

theorem Ordinary.size (h : Ordinary d) : d = 0 ∨ 1 / 10 ^ 400 ≤ |d| :=
  h.sized.imp_right fun hsize => tiny_le.trans hsize.1

theorem natAbs_cint (x : CInt) : x.val.natAbs ≤ 2 ^ 31 := by
  obtain ⟨hlow, hhigh⟩ := x.property
  simp only [intMin, intMax] at hlow hhigh
  omega

/-- The three ways a number is written. -/
theorem numberText_cases (h : Ordinary d) :
    (∃ x : CInt, d = x.val ∧ numberText d = showInt x.val ∧ rereadNumber d = d) ∨
      (numberText d = showGeneral 15 d ∧ rereadNumber d = toDouble (general 15 d) ∧
        compareDouble (rereadNumber d) d = true) ∨
      (numberText d = showGeneral 17 d ∧ rereadNumber d = d) := by
  unfold rereadNumber
  by_cases hint : d = (Json.number d).valueint.val
  · have htext : numberText d = showInt (Json.number d).valueint.val := if_pos hint
    have hsmall := natAbs_cint (Json.number d).valueint
    refine .inl ⟨(Json.number d).valueint, hint, htext, ?_⟩
    rw [htext, strtod_showInt (hsmall.trans (by norm_num))]
    exact hint.symm
  · by_cases hclose : compareDouble (strtod (showGeneral 15 d)).1 d = true
    · have htext : numberText d = showGeneral 15 d := by
        rw [numberText, if_neg hint]
        exact if_pos hclose
      rw [htext]
      exact .inr (.inl ⟨rfl, by rw [strtod_showGeneral (by norm_num) h.size], hclose⟩)
    · have htext : numberText d = showGeneral 17 d := by
        rw [numberText, if_neg hint]
        exact if_neg hclose
      refine .inr (.inr ⟨htext, ?_⟩)
      rw [htext, strtod_showGeneral (by norm_num) h.size]
      exact toDouble_general h.size h.1

/-- The text is read to its end. -/
theorem strtod_numberText (h : Ordinary d) :
    strtod (numberText d) = (rereadNumber d, (numberText d).length) := by
  have hlength : (strtod (numberText d)).2 = (numberText d).length := by
    obtain ⟨x, -, htext, -⟩ | ⟨htext, -⟩ | ⟨htext, -⟩ := numberText_cases h
    · rw [htext, strtod_showInt ((natAbs_cint x).trans (by norm_num))]
    · rw [htext, strtod_showGeneral (by norm_num) h.size]
    · rw [htext, strtod_showGeneral (by norm_num) h.size]
  rw [← hlength]
  rfl

theorem length_showInt (x : CInt) : (showInt x.val).length ≤ 11 := by
  have hsmall := natAbs_cint x
  have hlength := length_decimal_le (n := x.val.natAbs) (k := 9) (by omega)
  unfold showInt
  split
  · rw [List.length_cons]
    omega
  · omega

/-- `number_buffer` is long enough. -/
theorem printNumber_ordinary (h : Ordinary d) : printNumber d = some (numberText d) := by
  have hsize : d = 0 ∨ 1 / 10 ^ 400 ≤ |d| ∧ |d| < 10 ^ 400 :=
    h.sized.imp_right fun hsize => ⟨tiny_le.trans hsize.1, hsize.2⟩
  apply if_pos
  obtain ⟨x, -, htext, -⟩ | ⟨htext, -⟩ | ⟨htext, -⟩ := numberText_cases h
  · rw [htext]
    exact (length_showInt x).trans (by norm_num)
  · rw [htext]
    exact (length_showGeneral (by norm_num) hsize).trans (by norm_num)
  · rw [htext]
    exact (length_showGeneral (by norm_num) hsize).trans (by norm_num)

theorem compareDouble_self (d : ℚ) : compareDouble d d = true := by
  have hnonneg : 0 ≤ |d| / 2 ^ 52 := by positivity
  simpa [compareDouble] using hnonneg

/-- The number that is read is within a unit or two of the last bit. -/
theorem rereadNumber_close (h : Ordinary d) : compareDouble (rereadNumber d) d = true := by
  obtain ⟨x, -, -, hsame⟩ | ⟨-, -, hclose⟩ | ⟨-, hsame⟩ := numberText_cases h
  · rw [hsame]
    exact compareDouble_self d
  · exact hclose
  · rw [hsame]
    exact compareDouble_self d

/-- A number that was a `float` is one again. -/
theorem toFloat_rereadNumber (h : Ordinary d) (hfloat : toFloat d = d) :
    toFloat (rereadNumber d) = d := by
  rcases eq_or_ne d 0 with rfl | hne
  · obtain ⟨x, -, -, hsame⟩ | ⟨-, hsame, -⟩ | ⟨-, hsame⟩ := numberText_cases h
    · rw [hsame, hfloat]
    · rw [hsame, general, if_pos rfl, toDouble, roundTo_zero, hfloat]
    · rw [hsame, hfloat]
  · apply roundTo_of_close hne hfloat
    have hclose : |rereadNumber d - d| ≤ max |rereadNumber d| |d| / 2 ^ 52 := by
      simpa [compareDouble] using rereadNumber_close h
    have hpos := abs_pos.mpr hne
    have hlarge : max |rereadNumber d| |d| ≤ |d| + |rereadNumber d - d| := by
      apply max_le
      · have hadd := abs_add_le d (rereadNumber d - d)
        rwa [add_sub_cancel] at hadd
      · linarith [abs_nonneg (rereadNumber d - d)]
    have hsmall : 2 ^ 52 * |rereadNumber d - d| ≤ |d| + |rereadNumber d - d| := by
      rw [le_div_iff₀ (by norm_num)] at hclose
      linarith
    norm_num at hsmall ⊢
    linarith

/-- What is read is written as before. -/
theorem numberText_rereadNumber (h : Ordinary d) : numberText (rereadNumber d) = numberText d := by
  obtain ⟨x, -, -, hsame⟩ | ⟨htext, hread, hclose⟩ | ⟨-, hsame⟩ := numberText_cases h
  · rw [hsame]
  · have hsame : showGeneral 15 (rereadNumber d) = showGeneral 15 d := by
      rw [hread]
      exact showGeneral_toDouble (h.sized.imp_right And.left)
    have hagain : (strtod (showGeneral 15 d)).1 = rereadNumber d := by rw [rereadNumber, htext]
    rw [htext]
    by_cases hint : rereadNumber d = (Json.number (rereadNumber d)).valueint.val
    · have hsmall := natAbs_cint (Json.number (rereadNumber d)).valueint
      rw [← hsame, numberText, if_pos hint]
      conv_rhs => rw [hint]
      exact (showGeneral_int (by omega)).symm
    · rw [numberText, if_neg hint]
      dsimp only
      rw [hsame, hagain, if_pos (compareDouble_self _)]
  · rw [hsame]

theorem rereadNumber_rereadNumber (h : Ordinary d) :
    rereadNumber (rereadNumber d) = rereadNumber d := by
  rw [rereadNumber, numberText_rereadNumber h, rereadNumber]

/-- An integer comes back as it is. -/
theorem rereadNumber_int (x : CInt) : rereadNumber (x.val : ℚ) = x.val := by
  have hint : (x.val : ℚ) = (Json.number (x.val : ℚ)).valueint.val := by
    rw [Json.valueint_number]
  have hsmall := natAbs_cint x
  rw [rereadNumber, numberText, if_pos hint, Json.valueint_number,
    strtod_showInt (hsmall.trans (by norm_num))]

end Ordinary

-- ---------------------------------------------------------------------------
-- Floats
-- ---------------------------------------------------------------------------

/-- What a finite `float` holds. -/
def FiniteFloat (x : ℚ) : Prop := toFloat x = x ∧ (x = 0 ∨ 1 / 2 ^ 149 ≤ |x| ∧ |x| < 2 ^ 128)

section Float

variable {x : ℚ}

theorem ordinary_of_bounds (hdouble : toDouble x = x)
    (hx : x = 0 ∨ 1 / 2 ^ 150 ≤ |x| ∧ |x| ≤ 2 ^ 129) : Ordinary x := by
  refine ⟨hdouble, hx.imp_right fun ⟨hlow, hhigh⟩ => ⟨le_trans ?_ hlow, hhigh.trans ?_⟩⟩
  · exact one_div_le_one_div_of_le (by positivity)
      (pow_le_pow_right₀ (by norm_num) (by norm_num))
  · exact pow_le_pow_right₀ (by norm_num) (by norm_num)

theorem FiniteFloat.ordinary (h : FiniteFloat x) : Ordinary x := by
  refine ordinary_of_bounds (toDouble_of_toFloat h.1) (h.2.imp_right fun ⟨hlow, hhigh⟩ => ?_)
  refine ⟨le_trans ?_ hlow, hhigh.le.trans ?_⟩
  · norm_num
  · norm_num

theorem ordinary_int (x : CInt) : Ordinary (x.val : ℚ) := by
  have hsmall := natAbs_cint x
  refine ordinary_of_bounds (roundTo_int (hsmall.trans (by norm_num))) ?_
  rcases eq_or_ne x.val 0 with hzero | hne
  · exact .inl (by rw [hzero, Int.cast_zero])
  · have habs : |(x.val : ℚ)| = x.val.natAbs := by rw [Nat.cast_natAbs, Int.cast_abs]
    have hone : (1 : ℚ) ≤ x.val.natAbs := by exact_mod_cast Int.natAbs_pos.mpr hne
    have hlarge : (x.val.natAbs : ℚ) ≤ 2 ^ 31 := by exact_mod_cast hsmall
    rw [habs]
    refine .inr ⟨le_trans ?_ hone, hlarge.trans ?_⟩
    · norm_num
    · norm_num

/-- What is read for a `float` can be printed again. -/
theorem FiniteFloat.ordinary_reread (h : FiniteFloat x) : Ordinary (rereadNumber x) := by
  have hclose : |rereadNumber x - x| ≤ max |rereadNumber x| |x| / 2 ^ 52 := by
    simpa [compareDouble] using rereadNumber_close h.ordinary
  have hdouble : toDouble (rereadNumber x) = rereadNumber x := by
    obtain ⟨n, -, -, hsame⟩ | ⟨-, hsame, -⟩ | ⟨-, hsame⟩ := numberText_cases h.ordinary
    · rw [hsame, h.ordinary.1]
    · rw [hsame, toDouble, roundTo_roundTo]
    · rw [hsame, h.ordinary.1]
  apply ordinary_of_bounds hdouble
  have hup : |rereadNumber x| ≤ |x| + |rereadNumber x - x| := by
    have hadd := abs_add_le x (rereadNumber x - x)
    rwa [add_sub_cancel] at hadd
  have hdown : |x| ≤ |rereadNumber x| + |rereadNumber x - x| := by
    have hadd := abs_add_le (rereadNumber x) (x - rereadNumber x)
    rwa [add_sub_cancel, abs_sub_comm x] at hadd
  have hmax : max |rereadNumber x| |x| ≤ |rereadNumber x| + |x| :=
    max_le (by linarith [abs_nonneg x]) (by linarith [abs_nonneg (rereadNumber x)])
  rcases h.2 with rfl | ⟨hlow, hhigh⟩
  · left
    rw [abs_zero, add_zero] at hmax
    rw [sub_zero, abs_zero] at hclose
    have hzero : |rereadNumber 0| ≤ 0 := by
      rw [le_div_iff₀ (by norm_num)] at hclose
      linarith [abs_nonneg (rereadNumber 0)]
    exact abs_eq_zero.mp (le_antisymm hzero (abs_nonneg _))
  · right
    rw [le_div_iff₀ (by norm_num)] at hclose
    have hnear := hclose.trans hmax
    norm_num at hlow hhigh hnear ⊢
    constructor <;> linarith

end Float

end JsonText

end LibEmbedding
