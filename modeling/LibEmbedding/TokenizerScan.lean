import LibEmbedding.Tokenizer

/-!
# Scanning joined texts

Normalisation and pre-tokenisation read a text unit by unit: a byte below 128, or a lead byte with
the bytes it announces. A text that ends between units can be cut off from what follows; one
that does not borrows the bytes it lacks.
-/

namespace LibEmbedding

open Foundation

-- ---------------------------------------------------------------------------
-- Units
-- ---------------------------------------------------------------------------

/-- A byte and as many bytes as it announces. -/
def IsUnit (u : Bytes) : Prop := ∃ c more, u = c :: more ∧ more.length + 1 = utf8Length c

/-- A text of whole units. -/
inductive Units : Bytes → Prop where
  | nil : Units []
  | cons : IsUnit u → Units s → Units (u ++ s)

/-- How many bytes the last unit lacks. -/
def lackLoop : Nat → Bytes → Nat
  | 0, _ => 0
  | _, [] => 0
  | fuel + 1, c :: rest =>
    let n := utf8Length c
    if rest.length + 1 < n then n - (rest.length + 1) else lackLoop fuel ((c :: rest).drop n)

def lack (s : Bytes) : Nat := lackLoop s.length s

/-- The tests on a lead byte, in order, and how many bytes it announces. -/
theorem lead_cases : ∀ c : UInt8, c < 0x80 ∧ utf8Length c = 1 ∨
    ¬c < 0x80 ∧ (c &&& 0xE0 = 0xC0 ∧ utf8Length c = 2 ∨
      c &&& 0xE0 ≠ 0xC0 ∧ (c &&& 0xF0 = 0xE0 ∧ utf8Length c = 3 ∨
        c &&& 0xF0 ≠ 0xE0 ∧ (c &&& 0xF8 = 0xF0 ∧ utf8Length c = 4 ∨
          c &&& 0xF8 ≠ 0xF0 ∧ utf8Length c = 1))) :=
  forall_byte (by decide +kernel)

theorem utf8Length_pos (c : UInt8) : 0 < utf8Length c := by
  rcases lead_cases c with h | ⟨-, h | ⟨-, h | ⟨-, h | h⟩⟩⟩ <;> omega

theorem utf8Length_le (c : UInt8) : utf8Length c ≤ 4 := by
  rcases lead_cases c with h | ⟨-, h | ⟨-, h | ⟨-, h | h⟩⟩⟩ <;> omega

theorem utf8Length_ascii : ∀ c : UInt8, c < 0x80 → utf8Length c = 1 :=
  forall_byte (by decide +kernel)

theorem isUnit_ascii (h : c < 0x80) : IsUnit [c] := ⟨c, [], rfl, (utf8Length_ascii c h).symm⟩

theorem IsUnit.ne_nil (h : IsUnit u) : u ≠ [] := by
  obtain ⟨c, more, rfl, -⟩ := h
  exact List.cons_ne_nil _ _

theorem Units.append (ha : Units a) (hb : Units b) : Units (a ++ b) := by
  induction ha with
  | nil => exact hb
  | cons hu _ ih =>
    rw [List.append_assoc]
    exact .cons hu ih

theorem IsUnit.units (h : IsUnit u) : Units u := by
  have hcons := Units.cons h .nil
  rwa [List.append_nil] at hcons

theorem units_ascii (h : ∀ c ∈ s, c < 0x80) : Units s := by
  induction s with
  | nil => exact .nil
  | cons c s ih =>
    exact .cons (isUnit_ascii (h c List.mem_cons_self)) (ih fun d hd => h d (List.mem_cons_of_mem c hd))

/-- A text is whole units and the start of one more, or whole units alone. -/
theorem lackLoop_spec (fuel : Nat) (s : Bytes) (hfuel : s.length ≤ fuel) :
    (lackLoop fuel s = 0 ∧ Units s) ∨
      ∃ front c more, s = front ++ c :: more ∧ Units front ∧ 0 < lackLoop fuel s ∧
        more.length + 1 + lackLoop fuel s = utf8Length c := by
  induction fuel generalizing s with
  | zero =>
    obtain rfl := List.eq_nil_of_length_eq_zero (Nat.le_zero.mp hfuel)
    exact .inl ⟨rfl, .nil⟩
  | succ fuel ih =>
    cases s with
    | nil => exact .inl ⟨rfl, .nil⟩
    | cons c rest =>
      rw [List.length_cons] at hfuel
      rw [lackLoop]
      by_cases hshort : rest.length + 1 < utf8Length c
      · rw [if_pos hshort]
        exact .inr ⟨[], c, rest, rfl, .nil, Nat.sub_pos_of_lt hshort, by omega⟩
      · rw [if_neg hshort]
        have hpos := utf8Length_pos c
        have hunit : IsUnit ((c :: rest).take (utf8Length c)) := by
          refine ⟨c, rest.take (utf8Length c - 1), ?_, ?_⟩
          · obtain ⟨n, hn⟩ := Nat.exists_eq_succ_of_ne_zero hpos.ne'
            rw [hn, List.take_succ_cons]
            rfl
          · rw [List.length_take]
            omega
        have hsplit : c :: rest =
            (c :: rest).take (utf8Length c) ++ (c :: rest).drop (utf8Length c) :=
          (List.take_append_drop _ _).symm
        have hlength : ((c :: rest).drop (utf8Length c)).length ≤ fuel := by
          rw [List.length_drop, List.length_cons]
          omega
        rcases ih _ hlength with ⟨hzero, hunits⟩ | ⟨front, d, more, heq, hfront, hlacks, hadd⟩
        · refine .inl ⟨hzero, ?_⟩
          rw [hsplit]
          exact .cons hunit hunits
        · refine .inr ⟨(c :: rest).take (utf8Length c) ++ front, d, more, ?_, .cons hunit hfront,
            hlacks, hadd⟩
          rw [List.append_assoc, ← heq]
          exact hsplit

-- ---------------------------------------------------------------------------
-- Normalisation
-- ---------------------------------------------------------------------------

/-- A decoder that finds a unit needs no more than the unit. -/
theorem utf8Next_unit (hmore : more.length + 1 = utf8Length c) (rest : Bytes) :
    utf8Next c (more ++ rest) = ((utf8Next c more).1, utf8Length c) := by
  rcases lead_cases c with ⟨hascii, hone⟩ | ⟨hhigh, ⟨htwo, hlead⟩ | ⟨htwo, ⟨hthree, hlead⟩ |
    ⟨hthree, ⟨hfour, hlead⟩ | ⟨hfour, hone⟩⟩⟩⟩
  · simp [utf8Next, hascii, hone]
  · obtain ⟨b, rfl⟩ := List.length_eq_one_iff.mp (by omega : more.length = 1)
    simp [utf8Next, hhigh, htwo, hlead]
  · obtain ⟨b, b', rfl⟩ := List.length_eq_two.mp (by omega : more.length = 2)
    simp [utf8Next, hhigh, htwo, hthree, hlead]
  · obtain ⟨b, b', b'', rfl⟩ := List.length_eq_three.mp (by omega : more.length = 3)
    simp [utf8Next, hhigh, htwo, hthree, hfour, hlead]
  · simp [utf8Next, hhigh, htwo, hthree, hfour, hone]

/-- What a unit is normalised to. -/
def normalizedUnit : Bytes → Bytes
  | [] => []
  | c :: more => normalizeUnit (utf8Next c more).1 (c :: more)

theorem utf8Next_pos (c : UInt8) (rest : Bytes) : 0 < (utf8Next c rest).2 := by
  unfold utf8Next
  dsimp only
  split
  · exact Nat.one_pos
  · split
    · exact Nat.two_pos
    · split
      · exact Nat.succ_pos 2
      · split
        · exact Nat.succ_pos 3
        · exact Nat.one_pos

/-- Behind what the decoder takes there is less left. -/
theorem length_drop_next (c : UInt8) (rest : Bytes) :
    ((c :: rest).drop (utf8Next c rest).2).length ≤ rest.length := by
  have hpos := utf8Next_pos c rest
  rw [List.length_drop, List.length_cons]
  omega

/-- Taking off what the decoder takes, step by step. -/
theorem scan_induction {motive : Bytes → Prop} (s : Bytes) (nil : motive [])
    (next : ∀ c rest, motive ((c :: rest).drop (utf8Next c rest).2) → motive (c :: rest)) :
    motive s := by
  induction hlength : s.length using Nat.strong_induction_on generalizing s with
  | _ n ih =>
    cases s with
    | nil => exact nil
    | cons c rest =>
      refine next c rest (ih _ ?_ _ rfl)
      rw [← hlength, List.length_cons]
      exact Nat.lt_succ_of_le (length_drop_next c rest)

theorem bertNormalizeLoop_fuel (fuel : Nat) (s : Bytes) (hfuel : s.length ≤ fuel) :
    bertNormalizeLoop fuel s = bertNormalize s := by
  induction fuel using Nat.strong_induction_on generalizing s with
  | _ fuel ih =>
    cases s with
    | nil => cases fuel <;> rfl
    | cons c rest =>
      rw [List.length_cons] at hfuel
      obtain ⟨m, rfl⟩ := Nat.exists_eq_succ_of_ne_zero (by omega : fuel ≠ 0)
      have hdrop := length_drop_next c rest
      have hown : bertNormalize (c :: rest) = normalizeUnit (utf8Next c rest).1
          ((c :: rest).take (utf8Next c rest).2) ++
            bertNormalizeLoop rest.length ((c :: rest).drop (utf8Next c rest).2) := rfl
      rw [hown, ih rest.length (by omega) _ hdrop]
      change normalizeUnit (utf8Next c rest).1 ((c :: rest).take (utf8Next c rest).2) ++
        bertNormalizeLoop m ((c :: rest).drop (utf8Next c rest).2) = _
      rw [ih m (Nat.lt_succ_self m) _ (by omega)]

theorem bertNormalize_cons (c : UInt8) (rest : Bytes) :
    bertNormalize (c :: rest) =
      normalizeUnit (utf8Next c rest).1 ((c :: rest).take (utf8Next c rest).2) ++
        bertNormalize ((c :: rest).drop (utf8Next c rest).2) := by
  rw [← bertNormalizeLoop_fuel rest.length _ (length_drop_next c rest)]
  rfl

theorem bertNormalize_unit (hu : IsUnit u) (s : Bytes) :
    bertNormalize (u ++ s) = normalizedUnit u ++ bertNormalize s := by
  obtain ⟨c, more, rfl, hmore⟩ := hu
  have hnext := utf8Next_unit hmore s
  have hlength : (c :: more).length = utf8Length c := hmore
  rw [List.cons_append, bertNormalize_cons, hnext]
  dsimp only
  rw [← hlength, ← List.cons_append, List.take_left, List.drop_left]
  rfl

/-- Behind whole units normalisation starts afresh. -/
theorem bertNormalize_append (ha : Units a) (b : Bytes) :
    bertNormalize (a ++ b) = bertNormalize a ++ bertNormalize b := by
  induction ha with
  | nil => rfl
  | @cons u s hu hs ih =>
    rw [List.append_assoc, bertNormalize_unit hu, ih, bertNormalize_unit hu, List.append_assoc]

/-- A base letter is a small letter. -/
theorem latin1Base_letter (cp : Nat) (h : 0 ≤ latin1Base cp) :
    97 ≤ latin1Base cp ∧ latin1Base cp ≤ 122 := by
  unfold latin1Base at h ⊢
  split at h
  · rename_i hrange
    rw [if_pos hrange]
    have hall : ∀ i < 64, 0 ≤ latin1Bases.getD i (-1) →
        97 ≤ latin1Bases.getD i (-1) ∧ latin1Bases.getD i (-1) ≤ 122 := by decide
    exact hall _ (by omega) h
  · exact absurd h (by decide)

theorem extendedABase_letter (cp : Nat) (h : 0 ≤ extendedABase cp) :
    97 ≤ extendedABase cp ∧ extendedABase cp ≤ 122 := by
  unfold extendedABase at h ⊢
  by_cases hfixed : cp ∈ extendedAFixed
  · rw [if_pos hfixed] at h
    exact absurd h (by decide)
  · rw [if_neg hfixed] at h ⊢
    by_cases hdotted : cp = 0x130 ∨ cp = 0x131
    · rw [if_pos hdotted]
      decide
    · rw [if_neg hdotted] at h ⊢
      by_cases hlong : cp = 0x17F
      · rw [if_pos hlong]
        decide
      · rw [if_neg hlong] at h ⊢
        dsimp only at h ⊢
        generalize (if cp % 2 = 0 then cp else cp - 1) = base at h ⊢
        split at h
        · rename_i hrange
          rw [if_pos hrange]
          exact latin1Base_letter base h
        · exact absurd h (by decide)

/-- A unit stays, or a small letter stands for it. -/
theorem normalizeUnit_cases (cp : Nat) (raw : Bytes) :
    normalizeUnit cp raw = raw ∨
      ∃ n, 97 ≤ n ∧ n ≤ 122 ∧ normalizeUnit cp raw = [UInt8.ofNat n] := by
  have hfold (b : Int) (hb : 0 ≤ b → 97 ≤ b ∧ b ≤ 122) :
      (if 0 ≤ b then [UInt8.ofNat b.toNat] else raw) = raw ∨ ∃ n, 97 ≤ n ∧ n ≤ 122 ∧
        (if 0 ≤ b then [UInt8.ofNat b.toNat] else raw) = [UInt8.ofNat n] := by
    by_cases hpos : 0 ≤ b
    · have hletter := hb hpos
      exact .inr ⟨b.toNat, by omega, by omega, if_pos hpos⟩
    · exact .inl (if_neg hpos)
  unfold normalizeUnit
  dsimp only
  split
  · rename_i hupper
    exact .inr ⟨cp - 65 + 97, by omega, by omega, rfl⟩
  · split
    · exact hfold _ (latin1Base_letter cp)
    · split
      · exact hfold _ (latin1Base_letter cp)
      · split
        · exact hfold _ (extendedABase_letter cp)
        · exact .inl rfl

theorem letter_ascii : ∀ n, 97 ≤ n → n ≤ 122 → UInt8.ofNat n < 0x80 := by
  intro n hlow hhigh
  rw [UInt8.lt_iff_toNat_lt, UInt8.toNat_ofNat', Nat.mod_eq_of_lt (by omega)]
  exact Nat.lt_of_le_of_lt hhigh (by decide)

theorem isUnit_normalizedUnit (hu : IsUnit u) : IsUnit (normalizedUnit u) := by
  obtain ⟨c, more, rfl, hmore⟩ := hu
  rcases normalizeUnit_cases (utf8Next c more).1 (c :: more) with hraw | ⟨n, hlow, hhigh, hfolded⟩
  · rw [normalizedUnit, hraw]
    exact ⟨c, more, rfl, hmore⟩
  · rw [normalizedUnit, hfolded]
    exact isUnit_ascii (letter_ascii n hlow hhigh)

/-- Whole units stay whole. -/
theorem units_bertNormalize (ha : Units a) : Units (bertNormalize a) := by
  induction ha with
  | nil => exact .nil
  | cons hu _ ih =>
    rw [bertNormalize_unit hu]
    exact .cons (isUnit_normalizedUnit hu) ih

-- ---------------------------------------------------------------------------
-- Pre-tokenisation
-- ---------------------------------------------------------------------------

/-- The loop from within a text. -/
def tokenizeFrom (current : Bytes) (tokens : List Bytes) (s : Bytes) : List Bytes :=
  basicTokenizeLoop s.length s current tokens

/-- What stands here ends a word. -/
def Breaks (s : Bytes) : Prop :=
  ∀ c rest, s = c :: rest → c ≤ 0x20 ∨ isPunctuation c = true ∨ 0x80 ≤ c

theorem breaks_cons (h : c ≤ 0x20 ∨ isPunctuation c = true ∨ 0x80 ≤ c) : Breaks (c :: rest) := by
  rintro d rest' ⟨⟩
  exact h

theorem flush_append (tokens : List Bytes) (current : Bytes) :
    flush tokens current = tokens ++ flush [] current := by
  unfold flush
  split
  · rw [List.append_nil]
  · rfl

theorem basicTokenizeLoop_append (fuel : Nat) (s current : Bytes) (tokens : List Bytes) :
    basicTokenizeLoop fuel s current tokens = tokens ++ basicTokenizeLoop fuel s current [] := by
  induction fuel generalizing s current tokens with
  | zero => exact flush_append tokens current
  | succ fuel ih =>
    cases s with
    | nil => exact flush_append tokens current
    | cons c rest =>
      rw [basicTokenizeLoop, basicTokenizeLoop]
      split
      · rw [ih, flush_append, List.append_assoc, ← ih _ _ (flush [] current)]
      · split
        · rw [ih, flush_append, List.append_assoc, List.append_assoc, ← List.append_assoc (flush _ _),
            ← ih _ _ (flush [] current ++ [[c]])]
        · split
          · dsimp only
            rw [ih, flush_append, List.append_assoc, List.append_assoc,
              ← List.append_assoc (flush _ _), ← ih _ _ (flush [] current ++ [_])]
          · exact ih _ _ _

theorem basicTokenizeLoop_fuel (fuel : Nat) (s current : Bytes) (tokens : List Bytes)
    (hfuel : s.length ≤ fuel) :
    basicTokenizeLoop fuel s current tokens = tokenizeFrom current tokens s := by
  induction fuel using Nat.strong_induction_on generalizing s current tokens with
  | _ fuel ih =>
    cases s with
    | nil => cases fuel <;> rfl
    | cons c rest =>
      rw [List.length_cons] at hfuel
      obtain ⟨m, rfl⟩ := Nat.exists_eq_succ_of_ne_zero (by omega : fuel ≠ 0)
      have hpos := utf8Length_pos c
      have hdrop : ((c :: rest).drop (utf8Length c)).length ≤ rest.length := by
        rw [List.length_drop, List.length_cons]
        omega
      have hrest : rest.length < m.succ := by omega
      rw [tokenizeFrom, List.length_cons, basicTokenizeLoop, basicTokenizeLoop]
      split
      · exact ih m (Nat.lt_succ_self m) _ _ _ (by omega)
      · split
        · exact ih m (Nat.lt_succ_self m) _ _ _ (by omega)
        · split
          · dsimp only
            rw [ih m (Nat.lt_succ_self m) _ _ _ (by omega), ih rest.length hrest _ _ _ hdrop]
          · exact ih m (Nat.lt_succ_self m) _ _ _ (by omega)

/-- One step of the loop. -/
theorem tokenizeFrom_cons (current : Bytes) (tokens : List Bytes) (c : UInt8) (rest : Bytes) :
    tokenizeFrom current tokens (c :: rest) =
      if c ≤ 0x20 then tokenizeFrom [] (flush tokens current) rest
      else if isPunctuation c then tokenizeFrom [] (flush tokens current ++ [[c]]) rest
      else if 0x80 ≤ c then
        tokenizeFrom [] (flush tokens current ++ [(c :: rest).take (utf8Length c)])
          ((c :: rest).drop (utf8Length c))
      else tokenizeFrom (current ++ [c]) tokens rest := by
  have hpos := utf8Length_pos c
  have hdrop : ((c :: rest).drop (utf8Length c)).length ≤ rest.length := by
    rw [List.length_drop, List.length_cons]
    omega
  rw [← basicTokenizeLoop_fuel rest.length _ _ _ hdrop]
  rfl

theorem high_byte : ∀ c : UInt8, 0x80 ≤ c → ¬c ≤ 0x20 ∧ isPunctuation c = false :=
  forall_byte (by decide +kernel)

theorem tokenizeFrom_unit {c : UInt8} (hc : 0x80 ≤ c) (hmore : more.length + 1 = utf8Length c)
    (current s : Bytes) (tokens : List Bytes) :
    tokenizeFrom current tokens (c :: more ++ s) =
      tokenizeFrom [] (flush tokens current ++ [c :: more]) s := by
  obtain ⟨hspace, hpunctuation⟩ := high_byte c hc
  have hlength : (c :: more).length = utf8Length c := hmore
  rw [tokenizeFrom, List.cons_append, List.length_cons, basicTokenizeLoop, if_neg hspace, if_neg,
    if_pos hc]
  · dsimp only
    rw [← List.cons_append, ← hlength, List.take_left, List.drop_left]
    exact basicTokenizeLoop_fuel _ _ _ _ (by rw [List.length_append]; omega)
  · rw [hpunctuation]
    exact Bool.false_ne_true

/-- Behind whole units the loop is in some state, whatever follows. -/
theorem tokenizeFrom_units (ha : Units a) (current : Bytes) (tokens : List Bytes) :
    ∃ current' tokens', ∀ b, tokenizeFrom current tokens (a ++ b) =
      tokenizeFrom current' tokens' b := by
  induction ha generalizing current tokens with
  | nil => exact ⟨current, tokens, fun _ => rfl⟩
  | @cons u s hu hs ih =>
    obtain ⟨c, more, rfl, hmore⟩ := hu
    by_cases hc : 0x80 ≤ c
    · obtain ⟨current', tokens', hstate⟩ := ih [] (flush tokens current ++ [c :: more])
      refine ⟨current', tokens', fun b => ?_⟩
      rw [List.append_assoc, tokenizeFrom_unit hc hmore, hstate]
    · have hascii : c < 0x80 := UInt8.not_le.mp hc
      rw [utf8Length_ascii c hascii] at hmore
      obtain rfl := List.eq_nil_of_length_eq_zero (Nat.succ.inj hmore)
      -- One step of the loop, by the kind of the byte.
      have hstep : ∃ next done, ∀ rest, tokenizeFrom current tokens (c :: rest) =
          tokenizeFrom next done rest := by
        by_cases hspace : c ≤ 0x20
        · exact ⟨[], flush tokens current, fun rest => if_pos hspace⟩
        · by_cases hpunctuation : isPunctuation c = true
          · exact ⟨[], flush tokens current ++ [[c]],
              fun rest => (if_neg hspace).trans (if_pos hpunctuation)⟩
          · exact ⟨current ++ [c], tokens,
              fun rest => (if_neg hspace).trans ((if_neg hpunctuation).trans (if_neg hc))⟩
      obtain ⟨next, done, hnext⟩ := hstep
      obtain ⟨current', tokens', hstate⟩ := ih next done
      refine ⟨current', tokens', fun b => ?_⟩
      rw [List.append_assoc, List.singleton_append, hnext, hstate]

theorem tokenizeFrom_breaks (hb : Breaks b) (current : Bytes) (tokens : List Bytes) :
    tokenizeFrom current tokens b = flush tokens current ++ basicTokenize b := by
  have hfirst : tokenizeFrom current tokens b = tokenizeFrom [] (flush tokens current) b := by
    cases b with
    | nil => rfl
    | cons c rest =>
      rw [tokenizeFrom, tokenizeFrom, List.length_cons, basicTokenizeLoop, basicTokenizeLoop]
      rcases hb c rest rfl with hspace | hpunctuation | hhigh
      · rw [if_pos hspace, if_pos hspace]
        rfl
      · by_cases hspace : c ≤ 0x20
        · rw [if_pos hspace, if_pos hspace]
          rfl
        · rw [if_neg hspace, if_neg hspace, if_pos hpunctuation, if_pos hpunctuation]
          rfl
      · obtain ⟨hspace, hpunctuation⟩ := high_byte c hhigh
        rw [if_neg hspace, if_neg hspace, hpunctuation, if_neg Bool.false_ne_true,
          if_neg Bool.false_ne_true, if_pos hhigh, if_pos hhigh]
        rfl
  rw [hfirst]
  exact basicTokenizeLoop_append _ _ _ _

/-- Behind whole units pre-tokenisation starts afresh where a word ends. -/
theorem basicTokenize_append (ha : Units a) (hb : Breaks b) :
    basicTokenize (a ++ b) = basicTokenize a ++ basicTokenize b := by
  obtain ⟨current, tokens, hstate⟩ := tokenizeFrom_units ha [] []
  have hown : basicTokenize a = flush tokens current := by
    have hnil := hstate []
    rw [List.append_nil] at hnil
    exact hnil
  rw [hown, ← tokenizeFrom_breaks hb]
  exact hstate b

theorem basicTokenize_space (s : Bytes) : basicTokenize (32 :: s) = basicTokenize s := rfl

/-- A unit of several bytes is a word. -/
theorem basicTokenize_unit {c : UInt8} (hc : 0x80 ≤ c) (hmore : more.length + 1 = utf8Length c)
    (s : Bytes) : basicTokenize (c :: more ++ s) = (c :: more) :: basicTokenize s := by
  have hunit := tokenizeFrom_unit hc hmore [] s []
  exact hunit.trans (basicTokenizeLoop_append _ _ _ _)

-- ---------------------------------------------------------------------------
-- Words and ids of a text
-- ---------------------------------------------------------------------------

namespace TokenizerWrapper

variable (t : TokenizerWrapper)

/-- The text that is pre-tokenised. -/
def processed (text : Bytes) : Bytes := if t.doLowerCase then bertNormalize text else text

def words (text : Bytes) : List Bytes := basicTokenize (t.processed text)

/-- The ids of a text, without special tokens and uncut. -/
def tok (text : Bytes) : List Int := (t.words text).foldl t.tokenizeWord []

variable {t}

theorem processed_append (ha : Units a) (b : Bytes) :
    t.processed (a ++ b) = t.processed a ++ t.processed b := by
  unfold processed
  split
  · exact bertNormalize_append ha b
  · rfl

theorem units_processed (ha : Units a) : Units (t.processed a) := by
  unfold processed
  split
  · exact units_bertNormalize ha
  · exact ha

theorem wordpieceLoop_append (t : TokenizerWrapper) (word : Bytes) (fuel start : Nat)
    (found : Bool) (ids : List Int) :
    t.wordpieceLoop word fuel start found ids =
      ids ++ t.wordpieceLoop word fuel start found [] := by
  induction fuel generalizing start found ids with
  | zero => exact (List.append_nil ids).symm
  | succ fuel ih =>
    rw [wordpieceLoop, wordpieceLoop]
    split
    · split
      · rename_i id stop _
        rw [ih stop true (ids ++ [id]), ih stop true ([] ++ [id]), List.append_assoc]
        rfl
      · split
        · exact (List.append_nil ids).symm
        · rfl
    · exact (List.append_nil ids).symm

theorem tokenizeWord_append (t : TokenizerWrapper) (ids : List Int) (word : Bytes) :
    t.tokenizeWord ids word = ids ++ t.tokenizeWord [] word := by
  unfold tokenizeWord
  split
  · unfold wordpieceTokenize
    split
    · exact (List.append_nil ids).symm
    · split
      · rfl
      · exact t.wordpieceLoop_append word _ _ _ ids
  · rfl

theorem foldl_tokenizeWord_append (t : TokenizerWrapper) (ids : List Int) (words : List Bytes) :
    words.foldl t.tokenizeWord ids = ids ++ words.foldl t.tokenizeWord [] := by
  induction words generalizing ids with
  | nil => exact (List.append_nil ids).symm
  | cons word words ih =>
    rw [List.foldl_cons, List.foldl_cons, ih, ih (t.tokenizeWord [] word), tokenizeWord_append,
      List.append_assoc]

theorem truncate_sep (h : t.addSpecialTokens = true) (ids : List Int) :
    t.truncate (ids ++ [t.sepTokenId]) = ids.take (t.maxLength - 1) ++ [t.sepTokenId] := by
  have hpos := t.maxLengthPos
  unfold truncate
  rw [List.length_append, List.length_singleton]
  split
  · rename_i hlong
    dsimp only
    have hlength : t.maxLength < (ids ++ [t.sepTokenId]).length := by
      rwa [List.length_append, List.length_singleton]
    rw [List.dropLast_take hlength, List.take_append_of_le_length (by omega)]
  · rename_i hshort
    rw [List.take_of_length_le (by omega)]

theorem encode_eq (h : t.addSpecialTokens = true) (text : Bytes) :
    t.encode text = t.truncate (t.clsTokenId :: t.tok text ++ [t.sepTokenId]) := by
  have hfold := t.foldl_tokenizeWord_append [t.clsTokenId] (t.words text)
  rw [encode, encodeSingle, if_pos h, if_pos h]
  exact congrArg (fun ids => t.truncate (ids ++ [t.sepTokenId])) hfold

end TokenizerWrapper

end LibEmbedding
