import LibEmbedding.TokenizerFolding

/-!
# Malformed text

What `bert_normalize` and `basic_tokenize` do with bytes that belong to no well-formed UTF-8
sequence. Both read within the input. Neither looks at the continuation bytes it takes, so a
stray lead byte may be folded, or take what follows it along.
-/

namespace LibEmbedding

open Foundation

-- ---------------------------------------------------------------------------
-- Reading by index
-- ---------------------------------------------------------------------------

/-- `utf8_next(s, i, cp)`, every `s[k]` a checked read. -/
def utf8NextAt (s : Bytes) (i : Nat) : Checked (Nat × Nat) := do
  let low (b : UInt8) : Nat := (b &&& 0x3F).toNat
  let c ← get s i
  if c < 0x80 then return (c.toNat, 1)
  else if c &&& 0xE0 = 0xC0 ∧ i + 1 < s.length then do
    let b₁ ← get s (i + 1)
    return ((c &&& 0x1F).toNat * 64 + low b₁, 2)
  else if c &&& 0xF0 = 0xE0 ∧ i + 2 < s.length then do
    let b₁ ← get s (i + 1)
    let b₂ ← get s (i + 2)
    return ((c &&& 0x0F).toNat * 4096 + low b₁ * 64 + low b₂, 3)
  else if c &&& 0xF8 = 0xF0 ∧ i + 3 < s.length then do
    let b₁ ← get s (i + 1)
    let b₂ ← get s (i + 2)
    let b₃ ← get s (i + 3)
    return ((c &&& 0x07).toNat * 262144 + low b₁ * 4096 + low b₂ * 64 + low b₃, 4)
  else return (c.toNat, 1)

def bertNormalizeFrom (s : Bytes) : Nat → Nat → Bytes → Checked Bytes
  | 0, _, out => .ok out
  | fuel + 1, i, out =>
    if i < s.length then do
      let (cp, n) ← utf8NextAt s i
      bertNormalizeFrom s fuel (i + n) (out ++ normalizeUnit cp ((s.drop i).take n))
    else .ok out

def bertNormalizeAt (s : Bytes) : Checked Bytes := bertNormalizeFrom s s.length 0 []

/-- The loop over the bytes a lead byte announces. -/
def takeBytes (s : Bytes) : Nat → Nat → Bytes → Checked (Nat × Bytes)
  | 0, i, current => .ok (i, current)
  | n + 1, i, current =>
    if i < s.length then do
      let b ← get s i
      takeBytes s n (i + 1) (current ++ [b])
    else .ok (i, current)

def basicTokenizeFrom (s : Bytes) : Nat → Nat → Bytes → List Bytes → Checked (List Bytes)
  | 0, _, current, tokens => .ok (flush tokens current)
  | fuel + 1, i, current, tokens =>
    if i < s.length then do
      let c ← get s i
      if c ≤ 0x20 then basicTokenizeFrom s fuel (i + 1) [] (flush tokens current)
      else if isPunctuation c then
        basicTokenizeFrom s fuel (i + 1) [] (flush tokens current ++ [[c]])
      else if 0x80 ≤ c then do
        let (j, word) ← takeBytes s (utf8Length c) i []
        basicTokenizeFrom s fuel j [] (flush tokens current ++ [word])
      else basicTokenizeFrom s fuel (i + 1) (current ++ [c]) tokens
    else .ok (flush tokens current)

def basicTokenizeAt (s : Bytes) : Checked (List Bytes) := basicTokenizeFrom s s.length 0 [] []

theorem get_behind (front : Bytes) (c : UInt8) (rest : Bytes) :
    get (front ++ c :: rest) front.length = .ok c := by
  rw [get_ok]
  simp

theorem get_further {front : Bytes} {c : UInt8} {rest : Bytes} (h : k < rest.length) :
    get (front ++ c :: rest) (front.length + (k + 1)) = .ok (rest.getD k 0) := by
  rw [get_ok, List.getElem?_append_right (Nat.le_add_right _ _), Nat.add_sub_cancel_left,
    List.getElem?_cons_succ, List.getD_eq_getElem?_getD, List.getElem?_eq_getElem h]
  rfl

theorem utf8NextAt_eq (front : Bytes) (c : UInt8) (rest : Bytes) :
    utf8NextAt (front ++ c :: rest) front.length = .ok (utf8Next c rest) := by
  have hroom (k : Nat) : front.length + k < (front ++ c :: rest).length ↔ k ≤ rest.length := by
    rw [List.length_append, List.length_cons]
    omega
  simp only [utf8NextAt, utf8Next, get_behind, ok_bind, hroom]
  split
  · rfl
  · split
    · rename_i htwo
      rw [get_further (k := 0) htwo.2]
      rfl
    · split
      · rename_i hthree
        have hlength := hthree.2
        rw [get_further (k := 0) (by omega), ok_bind, get_further (k := 1) (by omega)]
        rfl
      · split
        · rename_i hfour
          have hlength := hfour.2
          rw [get_further (k := 0) (by omega), ok_bind, get_further (k := 1) (by omega), ok_bind,
            get_further (k := 2) (by omega)]
          rfl
        · rfl

theorem bertNormalizeFrom_eq (fuel : Nat) (front rest out : Bytes) (hfuel : rest.length ≤ fuel) :
    bertNormalizeFrom (front ++ rest) fuel front.length out = .ok (out ++ bertNormalize rest) := by
  induction fuel generalizing front rest out with
  | zero =>
    obtain rfl := List.eq_nil_of_length_eq_zero (Nat.le_zero.mp hfuel)
    rw [bertNormalizeFrom, show bertNormalize [] = [] from rfl, List.append_nil]
  | succ fuel ih =>
    cases rest with
    | nil =>
      rw [bertNormalizeFrom, if_neg (by simp), show bertNormalize [] = [] from rfl, List.append_nil]
    | cons c rest =>
      have hle : (utf8Next c rest).2 ≤ (c :: rest).length := utf8Next_le c rest
      have hfront : front.length + (utf8Next c rest).2 =
          (front ++ (c :: rest).take (utf8Next c rest).2).length := by
        rw [List.length_append, List.length_take, Nat.min_eq_left hle]
      have hsplit : front ++ c :: rest = front ++ (c :: rest).take (utf8Next c rest).2 ++
          (c :: rest).drop (utf8Next c rest).2 := by
        rw [List.append_assoc, List.take_append_drop]
      rw [bertNormalizeFrom, if_pos (by simp), utf8NextAt_eq, ok_bind, bertNormalize_cons]
      dsimp only
      rw [List.drop_left, hfront, ← List.append_assoc, hsplit]
      exact ih _ _ _ ((length_drop_next c rest).trans (Nat.le_of_succ_le_succ hfuel))

theorem bertNormalizeAt_eq (s : Bytes) : bertNormalizeAt s = .ok (bertNormalize s) :=
  bertNormalizeFrom_eq s.length [] s [] le_rfl

theorem takeBytes_eq (n : Nat) (front rest current : Bytes) :
    takeBytes (front ++ rest) n front.length current =
      .ok (front.length + min n rest.length, current ++ rest.take n) := by
  induction n generalizing front rest current with
  | zero => simp [takeBytes]
  | succ n ih =>
    cases rest with
    | nil => simp [takeBytes]
    | cons b rest =>
      have hnext := ih (front ++ [b]) rest (current ++ [b])
      rw [List.append_assoc, List.append_assoc, List.singleton_append, List.length_append] at hnext
      rw [takeBytes, if_pos (by simp), get_behind, ok_bind]
      refine hnext.trans ?_
      rw [List.length_singleton, List.length_cons, Nat.succ_min_succ, List.take_succ_cons,
        List.singleton_append, Nat.add_assoc, Nat.add_comm 1]

theorem basicTokenizeFrom_eq (fuel : Nat) (front rest current : Bytes) (tokens : List Bytes)
    (hfuel : rest.length ≤ fuel) : basicTokenizeFrom (front ++ rest) fuel front.length current
      tokens = .ok (tokenizeFrom current tokens rest) := by
  induction fuel generalizing front rest current tokens with
  | zero =>
    obtain rfl := List.eq_nil_of_length_eq_zero (Nat.le_zero.mp hfuel)
    rfl
  | succ fuel ih =>
    cases rest with
    | nil =>
      rw [basicTokenizeFrom, if_neg (by simp)]
      rfl
    | cons c rest =>
      rw [List.length_cons] at hfuel
      have hone (current : Bytes) (tokens : List Bytes) :
          basicTokenizeFrom (front ++ c :: rest) fuel (front.length + 1) current tokens =
            .ok (tokenizeFrom current tokens rest) := by
        have hnext := ih (front ++ [c]) rest current tokens (by omega)
        rwa [List.append_assoc, List.singleton_append, List.length_append,
          List.length_singleton] at hnext
      rw [basicTokenizeFrom, if_pos (by simp), get_behind, ok_bind, tokenizeFrom_cons]
      split
      · exact hone _ _
      · split
        · exact hone _ _
        · split
          · have hpos := utf8Length_pos c
            have hnext := ih (front ++ (c :: rest).take (utf8Length c))
              ((c :: rest).drop (utf8Length c)) []
              (flush tokens current ++ [(c :: rest).take (utf8Length c)])
              (by rw [List.length_drop, List.length_cons]; omega)
            rw [List.append_assoc, List.take_append_drop, List.length_append,
              List.length_take] at hnext
            rw [takeBytes_eq, ok_bind]
            exact hnext
          · exact hone _ _

theorem basicTokenizeAt_eq (s : Bytes) : basicTokenizeAt s = .ok (basicTokenize s) :=
  basicTokenizeFrom_eq s.length [] s [] [] le_rfl

-- ---------------------------------------------------------------------------
-- Where a scan stops
-- ---------------------------------------------------------------------------

/-- The suffixes at which a scan of `s` stops that takes `width` bytes at a time. -/
inductive Reached (width : UInt8 → Bytes → Nat) (s : Bytes) : Bytes → Prop where
  | start : Reached width s s
  | next : Reached width s (c :: rest) → Reached width s ((c :: rest).drop (width c rest))

/-- `P` holds at every byte at which the scan stops. -/
def Along (width : UInt8 → Bytes → Nat) (P : UInt8 → Bytes → Prop) (s : Bytes) : Prop :=
  ∀ b rest, Reached width s (b :: rest) → P b rest

theorem along_nil : Along width P [] := by
  have hall (u : Bytes) (h : Reached width [] u) : u = [] := by
    induction h with
    | start => rfl
    | next _ ih => cases ih
  rintro b rest h
  cases hall _ h

theorem reached_cons (h : Reached width (c :: rest) u) :
    u = c :: rest ∨ Reached width ((c :: rest).drop (width c rest)) u := by
  induction h with
  | start => exact .inl rfl
  | next _ ih =>
    rcases ih with heq | hlater
    · obtain ⟨rfl, rfl⟩ := List.cons.inj heq
      exact .inr .start
    · exact .inr hlater.next

theorem reached_later (h : Reached width ((c :: rest).drop (width c rest)) u) :
    Reached width (c :: rest) u := by
  induction h with
  | start => exact Reached.start.next
  | next _ ih => exact ih.next

theorem along_cons {width : UInt8 → Bytes → Nat} {P : UInt8 → Bytes → Prop} {rest : Bytes} :
    Along width P (c :: rest) ↔ P c rest ∧ Along width P ((c :: rest).drop (width c rest)) := by
  constructor
  · intro h
    exact ⟨h c rest .start, fun b tail hb => h b tail (reached_later hb)⟩
  · rintro ⟨hhere, hlater⟩ b tail hb
    rcases reached_cons hb with heq | hb
    · obtain ⟨rfl, rfl⟩ := List.cons.inj heq
      exact hhere
    · exact hlater b tail hb

-- ---------------------------------------------------------------------------
-- Stray bytes
-- ---------------------------------------------------------------------------

/-- The text with each well-formed sequence normalised by itself and the other bytes left. -/
def eachNormalized (s : Bytes) : Bytes :=
  (pieces s).flatMap fun piece =>
    match piece with
    | .char c => bertNormalize (String.utf8EncodeChar c)
    | .stray b => [b]

/-- A byte that is part of no well-formed sequence stands unchanged between what comes of the
text before it and what comes of the text behind it. -/
def KeepsStrays (s : Bytes) : Prop :=
  ∀ front b back, s = front ++ b :: back → ¬InSequence s front.length →
    bertNormalize s = eachNormalized front ++ b :: eachNormalized back

/-- How many bytes `bert_normalize` takes. -/
def unitWidth (c : UInt8) (rest : Bytes) : Nat := (utf8Next c rest).2

/-- What is taken with a byte that starts no sequence is copied, and no sequence starts within
that normalisation would change. -/
def Harmless (b : UInt8) (rest : Bytes) : Prop :=
  frontChar (b :: rest) = none →
    normalizeUnit (utf8Next b rest).1 ((b :: rest).take (utf8Next b rest).2) =
      (b :: rest).take (utf8Next b rest).2 ∧
    ∀ front c back, rest = front ++ String.utf8EncodeChar c ++ back →
      front.length + 1 < (utf8Next b rest).2 →
      bertNormalize (String.utf8EncodeChar c) = String.utf8EncodeChar c

theorem bertNormalize_one (c : Char) :
    bertNormalize (String.utf8EncodeChar c) = normalizeChar c := by
  have h := bertNormalize_char c []
  rwa [List.append_nil, show bertNormalize [] = [] from rfl, List.append_nil] at h

theorem eachNormalized_char (c : Char) (rest : Bytes) :
    eachNormalized (String.utf8EncodeChar c ++ rest) = normalizeChar c ++ eachNormalized rest := by
  rw [eachNormalized, pieces_char, List.flatMap_cons]
  dsimp only
  rw [bertNormalize_one]
  rfl

theorem eachNormalized_stray (h : frontChar (b :: rest) = none) :
    eachNormalized (b :: rest) = b :: eachNormalized rest := by
  rw [eachNormalized, pieces_stray h, List.flatMap_cons]
  rfl

theorem eachNormalized_utf8 (text : List Char) :
    eachNormalized (utf8 text) = bertNormalize (utf8 text) := by
  induction text with
  | nil => rfl
  | cons c text ih => rw [utf8_cons, eachNormalized_char, bertNormalize_char, ih]

/-- All stray bytes stay if the whole text is normalised sequence by sequence. -/
theorem keepsStrays_iff (s : Bytes) : KeepsStrays s ↔ bertNormalize s = eachNormalized s := by
  have hsplit {front back : Bytes} {b : UInt8} (h : ¬InSequence (front ++ b :: back) front.length) :
      eachNormalized (front ++ b :: back) = eachNormalized front ++ b :: eachNormalized back := by
    rw [eachNormalized, pieces_split h, List.flatMap_append, List.flatMap_cons]
    rfl
  constructor
  · intro h
    by_cases hall : ∀ i < s.length, InSequence s i
    · obtain ⟨text, rfl⟩ := eq_utf8_of_inSequence hall
      exact (eachNormalized_utf8 text).symm
    · push Not at hall
      obtain ⟨i, hi, hout⟩ := hall
      have heq : s = s.take i ++ s[i] :: s.drop (i + 1) := by
        rw [List.getElem_cons_drop, List.take_append_drop]
      have hlength : (s.take i).length = i := by
        rw [List.length_take, Nat.min_eq_left hi.le]
      have hout' : ¬InSequence (s.take i ++ s[i] :: s.drop (i + 1)) (s.take i).length := by
        rwa [← heq, hlength]
      have hkept := h _ _ _ heq (by rwa [hlength])
      rw [← hsplit hout', ← heq] at hkept
      exact hkept
  · rintro h front b back rfl hout
    rw [h, hsplit hout]

/-- A continuation byte that the scan stops at is copied by itself. -/
theorem trail_alone : ∀ d : UInt8, Trail d → ¬d < 0x80 ∧ d &&& 0xE0 ≠ 0xC0 ∧
    d &&& 0xF0 ≠ 0xE0 ∧ d &&& 0xF8 ≠ 0xF0 ∧ normalizeUnit d.toNat [d] = [d] :=
  forall_byte (by decide +kernel)

theorem utf8Next_trail (h : Trail d) (rest : Bytes) : utf8Next d rest = (d.toNat, 1) := by
  obtain ⟨hhigh, htwo, hthree, hfour, -⟩ := trail_alone d h
  simp [utf8Next, hhigh, htwo, hthree, hfour]

theorem bertNormalize_trails (h : ∀ d ∈ trails, Trail d) (rest : Bytes) :
    bertNormalize (trails ++ rest) = trails ++ bertNormalize rest := by
  induction trails with
  | nil => rfl
  | cons d trails ih =>
    obtain ⟨hd, htrails⟩ := List.forall_mem_cons.mp h
    obtain ⟨-, -, -, -, hcopied⟩ := trail_alone d hd
    rw [List.cons_append, bertNormalize_cons, utf8Next_trail hd]
    simp only [List.take_succ_cons, List.take_zero, List.drop_succ_cons, List.drop_zero, hcopied]
    rw [ih htrails]
    rfl

theorem along_trails (h : ∀ d ∈ trails, Trail d) (rest : Bytes) :
    Along unitWidth Harmless (trails ++ rest) ↔ Along unitWidth Harmless rest := by
  induction trails with
  | nil => rfl
  | cons d trails ih =>
    obtain ⟨hd, htrails⟩ := List.forall_mem_cons.mp h
    obtain ⟨-, -, -, -, hcopied⟩ := trail_alone d hd
    have hnext := utf8Next_trail hd (trails ++ rest)
    have hharmless : Harmless d (trails ++ rest) := by
      intro _
      rw [hnext]
      refine ⟨by simpa using hcopied, fun front c back _ hlt => ?_⟩
      exact absurd hlt (by simp)
    rw [List.cons_append, along_cons, and_iff_right hharmless, unitWidth, hnext]
    exact ih htrails

/-- A sequence that normalisation changes does not start like its normalisation. -/
theorem changed_ne (h : normalizeChar c ≠ String.utf8EncodeChar c) (a b : Bytes) :
    String.utf8EncodeChar c ++ a ≠ normalizeChar c ++ b := by
  rcases normalizeUnit_cases c.toNat (String.utf8EncodeChar c) with hraw | ⟨n, hlow, hhigh, hletter⟩
  · exact absurd hraw h
  · intro heq
    have hascii := letter_ascii n hlow hhigh
    rw [show normalizeChar c = [UInt8.ofNat n] from hletter] at h heq
    have hfront := frontChar_append c a
    rw [heq, List.singleton_append, frontChar_ascii hascii] at hfront
    rw [← Option.some.inj hfront, utf8EncodeChar_ascii hascii] at h
    exact h rfl

/-- No sequence that starts within `taken` is changed. -/
def Spared (taken rest : Bytes) : Prop :=
  ∀ front c back, taken ++ rest = front ++ String.utf8EncodeChar c ++ back →
    front.length < taken.length → normalizeChar c = String.utf8EncodeChar c

theorem spared_nil (rest : Bytes) : Spared [] rest := by
  intro front c back _ hlt
  exact absurd hlt (Nat.not_lt_zero _)

theorem spared_stray (h : frontChar (x :: (taken ++ rest)) = none) :
    Spared (x :: taken) rest ↔ Spared taken rest := by
  constructor
  · intro hspared front c back heq hlt
    refine hspared (x :: front) c back ?_ (Nat.succ_lt_succ hlt)
    rw [List.cons_append, heq, List.cons_append, List.cons_append]
  · intro hspared front c back heq hlt
    cases front with
    | nil => exact absurd heq (frontChar_none.mp h c back)
    | cons y front =>
      rw [List.cons_append, List.cons_append, List.cons_append] at heq
      exact hspared front c back (List.cons.inj heq).2 (Nat.lt_of_succ_lt_succ hlt)

theorem spared_char {c : Char} : Spared (String.utf8EncodeChar c ++ taken) rest ↔
    normalizeChar c = String.utf8EncodeChar c ∧ Spared taken rest := by
  have hpos := c.utf8Size_pos
  constructor
  · intro hspared
    refine ⟨hspared [] c (taken ++ rest) (by rw [List.append_assoc]; rfl) ?_, ?_⟩
    · rw [List.length_append, String.length_utf8EncodeChar, List.length_nil]
      omega
    · intro front d back heq hlt
      refine hspared (String.utf8EncodeChar c ++ front) d back ?_ ?_
      · rw [List.append_assoc, heq]
        simp only [List.append_assoc]
      · rw [List.length_append, List.length_append]
        exact Nat.add_lt_add_left hlt _
  · rintro ⟨hc, hspared⟩ front d back heq hlt
    rw [List.append_assoc] at heq
    cases front with
    | nil =>
      obtain ⟨rfl, -⟩ := utf8EncodeChar_append_inj heq
      exact hc
    | cons y front =>
      obtain ⟨front', hfront'⟩ := sequence_behind heq.symm (List.cons_ne_nil y front)
      rw [hfront', List.append_assoc, List.append_assoc, List.append_cancel_left_eq] at heq
      rw [hfront', List.length_append, List.length_append] at hlt
      exact hspared front' d back (by rw [heq, List.append_assoc]) (Nat.lt_of_add_lt_add_left hlt)

/-- The last sequence that starts within may reach beyond. -/
theorem spared_cut {c : Char} (hcut : taken ++ trails = String.utf8EncodeChar c)
    (hne : taken ≠ []) :
    Spared taken (trails ++ rest) ↔ normalizeChar c = String.utf8EncodeChar c := by
  have heq : taken ++ (trails ++ rest) = String.utf8EncodeChar c ++ rest := by
    rw [← List.append_assoc, hcut]
  constructor
  · intro hspared
    exact hspared [] c rest heq (List.length_pos_of_ne_nil hne)
  · intro hc front d back heq' hlt
    rw [heq] at heq'
    cases front with
    | nil =>
      obtain ⟨rfl, -⟩ := utf8EncodeChar_append_inj heq'
      exact hc
    | cons y front =>
      obtain ⟨front', hfront'⟩ := sequence_behind heq'.symm (List.cons_ne_nil y front)
      have hlength := congrArg List.length hcut
      rw [hfront', List.length_append] at hlt
      rw [List.length_append] at hlength
      omega

/-- Bytes copied on the way to `rest` are what normalisation sequence by sequence gives exactly
if no sequence among them is changed, and it goes on like that behind them. -/
theorem copied_iff {taken rest : Bytes}
    (hshorter : ∀ s, s.length ≤ (taken ++ rest).length →
      (bertNormalize s = eachNormalized s ↔ Along unitWidth Harmless s)) :
    taken ++ bertNormalize rest = eachNormalized (taken ++ rest) ↔
      Spared taken rest ∧ Along unitWidth Harmless rest := by
  induction hlength : taken.length using Nat.strong_induction_on generalizing taken with
  | _ n ih =>
    cases taken with
    | nil => rw [and_iff_right (spared_nil rest)]; exact hshorter rest le_rfl
    | cons x taken =>
      cases hfront : frontChar (x :: (taken ++ rest)) with
      | none =>
        rw [List.cons_append, List.cons_append, eachNormalized_stray hfront, List.cons_inj_right,
          spared_stray hfront]
        refine ih taken.length (by simp [← hlength]) (fun s hs => hshorter s ?_) rfl
        rw [List.cons_append, List.length_cons]
        exact Nat.le_succ_of_le hs
      | some c =>
        obtain ⟨tail, heq⟩ := frontChar_some hfront
        rw [← List.cons_append] at heq
        rcases List.append_eq_append_iff.mp heq with ⟨trails, htrails, hrest⟩ | ⟨taken', htaken, rfl⟩
        · -- The sequence reaches beyond the bytes taken.
          have htrail : ∀ d ∈ trails, Trail d := by
            obtain ⟨lead, more, hencode, -, hmore⟩ := utf8EncodeChar_eq_cons c
            rw [hencode, List.cons_append] at htrails
            intro d hd
            refine hmore d ?_
            rw [(List.cons.inj htrails).2]
            exact List.mem_append_right taken hd
          subst hrest
          rw [heq, eachNormalized_char, bertNormalize_trails htrail, ← List.append_assoc, ← htrails,
            spared_cut htrails.symm (List.cons_ne_nil x taken), along_trails htrail]
          by_cases hc : normalizeChar c = String.utf8EncodeChar c
          · rw [hc, List.append_cancel_left_eq, and_iff_right rfl]
            refine hshorter tail ?_
            simp only [List.length_append]
            omega
          · exact iff_of_false (changed_ne hc _ _) fun h => hc h.1
        · rw [htaken, List.append_assoc, List.append_assoc, eachNormalized_char, spared_char]
          by_cases hc : normalizeChar c = String.utf8EncodeChar c
          · rw [hc, List.append_cancel_left_eq, and_iff_right rfl]
            have hpos := c.utf8Size_pos
            have hlonger : (x :: taken).length = c.utf8Size + taken'.length := by
              rw [htaken, List.length_append, String.length_utf8EncodeChar]
            refine ih taken'.length (by omega) (fun s hs => hshorter s (hs.trans ?_)) rfl
            rw [List.length_append, List.length_append]
            omega
          · exact iff_of_false (changed_ne hc _ _) fun h => hc h.1.1

theorem harmless_char (c : Char) (rest : Bytes) :
    Along unitWidth Harmless (String.utf8EncodeChar c ++ rest) ↔ Along unitWidth Harmless rest := by
  obtain ⟨b, more, hencode, hmore⟩ := isUnit_char c
  have hfront := frontChar_append c rest
  rw [hencode, List.cons_append] at hfront ⊢
  have hharmless : Harmless b (more ++ rest) := by
    intro hnone
    rw [hfront] at hnone
    cases hnone
  have hdrop : (b :: (more ++ rest)).drop (unitWidth b (more ++ rest)) = rest := by
    rw [unitWidth, utf8Next_unit hmore]
    dsimp only
    rw [← hmore, List.drop_succ_cons, List.drop_left]
  rw [along_cons, and_iff_right hharmless, hdrop]

/-- Sequence by sequence, exactly if the scan does no harm wherever it stops at a stray byte. -/
theorem bertNormalize_eq_iff (s : Bytes) :
    bertNormalize s = eachNormalized s ↔ Along unitWidth Harmless s := by
  induction hlength : s.length using Nat.strong_induction_on generalizing s with
  | _ n ih =>
    cases s with
    | nil => exact iff_of_true rfl along_nil
    | cons b rest =>
      cases hfront : frontChar (b :: rest) with
      | some c =>
        obtain ⟨tail, heq⟩ := frontChar_some hfront
        have hpos := c.utf8Size_pos
        rw [heq, bertNormalize_char, eachNormalized_char, List.append_cancel_left_eq,
          harmless_char]
        refine ih tail.length ?_ tail rfl
        rw [← hlength, heq, List.length_append, String.length_utf8EncodeChar]
        omega
      | none =>
        have hpos := utf8Next_pos b rest
        obtain ⟨m, hm⟩ := Nat.exists_eq_succ_of_ne_zero hpos.ne'
        rw [bertNormalize_cons, eachNormalized_stray hfront, along_cons, unitWidth, Harmless, hm,
          List.take_succ_cons, List.drop_succ_cons]
        by_cases hcopied : normalizeUnit (utf8Next b rest).1 (b :: rest.take m) = b :: rest.take m
        · rw [hcopied, List.cons_append, List.cons_inj_right]
          have hiff := @copied_iff (rest.take m) (rest.drop m) fun s hs => by
            refine ih s.length ?_ s rfl
            rw [List.take_append_drop] at hs
            rw [← hlength, List.length_cons]
            omega
          rw [List.take_append_drop] at hiff
          have hle := utf8Next_le b rest
          have htaken : (rest.take m).length = m := by
            rw [List.length_take]
            omega
          rw [hiff, Spared, List.take_append_drop, htaken, eq_self, true_and]
          simp only [bertNormalize_one, Nat.succ_eq_add_one, Nat.add_lt_add_iff_right]
          rw [forall_prop_of_true hfront]
        · refine iff_of_false (fun heq => ?_) fun h => hcopied (h.1 hfront).1
          rcases normalizeUnit_cases (utf8Next b rest).1 (b :: rest.take m) with
            hraw | ⟨k, hlow, hhigh, hletter⟩
          · exact hcopied hraw
          · rw [hletter, List.singleton_append] at heq
            obtain ⟨rfl, -⟩ := List.cons.inj heq
            exact absurd (letter_ascii k hlow hhigh) (UInt8.not_lt.mpr (high_of_stray hfront))

-- ---------------------------------------------------------------------------
-- Blanks in tokens
-- ---------------------------------------------------------------------------

/-- No token holds a whitespace byte. -/
def NoBlankTaken (s : Bytes) : Prop := ∀ token ∈ basicTokenize s, ∀ b ∈ token, 0x20 < b

/-- How many bytes `basic_tokenize` takes. -/
def tokenWidth (c : UInt8) (_ : Bytes) : Nat := utf8Length c

/-- No whitespace byte stands among those a lead byte announces. -/
def AnnouncesNoBlank (b : UInt8) (rest : Bytes) : Prop :=
  0x80 ≤ b → ∀ d ∈ rest.take (utf8Length b - 1), 0x20 < d

theorem flush_blanks {tokens : List Bytes} :
    (∀ token ∈ flush tokens current, ∀ b ∈ token, 0x20 < b) ↔
      (∀ token ∈ tokens, ∀ b ∈ token, 0x20 < b) ∧ ∀ b ∈ current, (0x20 : UInt8) < b := by
  unfold flush
  split
  · rename_i hnil
    subst hnil
    simp
  · rw [List.forall_mem_append, List.forall_mem_singleton]

theorem tokenizeFrom_blanks (s current : Bytes) (tokens : List Bytes) :
    (∀ token ∈ tokenizeFrom current tokens s, ∀ b ∈ token, 0x20 < b) ↔
      ((∀ token ∈ tokens, ∀ b ∈ token, 0x20 < b) ∧ ∀ b ∈ current, (0x20 : UInt8) < b) ∧
        Along tokenWidth AnnouncesNoBlank s := by
  induction hlength : s.length using Nat.strong_induction_on generalizing s current tokens with
  | _ n ih =>
    cases s with
    | nil => rw [and_iff_left along_nil]; exact flush_blanks
    | cons c rest =>
      have hrest : rest.length < n := by simp [← hlength]
      have hone (h : ¬0x80 ≤ c) : (c :: rest).drop (tokenWidth c rest) = rest ∧
          AnnouncesNoBlank c rest := by
        refine ⟨?_, fun hhigh => absurd hhigh h⟩
        rw [tokenWidth, utf8Length_ascii c (UInt8.not_le.mp h)]
        rfl
      rw [tokenizeFrom_cons, along_cons]
      by_cases hblank : c ≤ 0x20
      · have hlow : ¬0x80 ≤ c := fun h => absurd (high_byte c h).1 (not_not.mpr hblank)
        rw [if_pos hblank, (hone hlow).1, and_iff_right (hone hlow).2,
          ih rest.length hrest rest _ _ rfl, flush_blanks]
        simp
      · rw [if_neg hblank]
        have hc : 0x20 < c := UInt8.not_le.mp hblank
        by_cases hpunctuation : isPunctuation c = true
        · have hlow : ¬0x80 ≤ c := fun h => by
            rw [(high_byte c h).2] at hpunctuation
            cases hpunctuation
          rw [if_pos hpunctuation, (hone hlow).1, and_iff_right (hone hlow).2,
            ih rest.length hrest rest _ _ rfl, List.forall_mem_append, flush_blanks,
            List.forall_mem_singleton, List.forall_mem_singleton]
          simp [hc]
        · rw [if_neg hpunctuation]
          by_cases hhigh : 0x80 ≤ c
          · have hpos := utf8Length_pos c
            obtain ⟨m, hm⟩ := Nat.exists_eq_succ_of_ne_zero hpos.ne'
            have hdrop : ((c :: rest).drop (utf8Length c)).length < n := by
              rw [List.length_drop, hlength]
              omega
            rw [if_pos hhigh, ih _ hdrop _ _ _ rfl, List.forall_mem_append, flush_blanks,
              List.forall_mem_singleton, AnnouncesNoBlank, tokenWidth, hm, List.take_succ_cons,
              List.forall_mem_cons]
            simp only [hc, hhigh, true_and, forall_const, Nat.succ_eq_add_one, Nat.add_sub_cancel,
              List.not_mem_nil, false_implies, and_true, and_assoc]
          · rw [if_neg hhigh, (hone hhigh).1, and_iff_right (hone hhigh).2,
              ih rest.length hrest rest _ _ rfl, List.forall_mem_append, List.forall_mem_singleton]
            simp [hc]

theorem noBlankTaken_iff (s : Bytes) : NoBlankTaken s ↔ Along tokenWidth AnnouncesNoBlank s := by
  have h := tokenizeFrom_blanks s [] []
  rw [and_iff_right ⟨by simp, by simp⟩] at h
  exact h

-- ---------------------------------------------------------------------------
-- Passing through
-- ---------------------------------------------------------------------------

/-- Both scans read within the text, stray bytes stay in place, and no token gets a blank. -/
structure PassesMalformed (s : Bytes) : Prop where
  normalizeReads : bertNormalizeAt s = .ok (bertNormalize s)
  tokenizeReads : basicTokenizeAt s = .ok (basicTokenize s)
  strays : KeepsStrays s
  blanks : NoBlankTaken s

/-- Malformed text passes through exactly if no stray byte at which normalisation stops is
folded or takes a sequence along that would be changed, and no lead byte at which tokenisation
stops announces a blank. -/
theorem passesMalformed_iff (s : Bytes) :
    PassesMalformed s ↔ Along unitWidth Harmless s ∧ Along tokenWidth AnnouncesNoBlank s := by
  rw [← bertNormalize_eq_iff, ← keepsStrays_iff, ← noBlankTaken_iff]
  constructor
  · intro h
    exact ⟨h.strays, h.blanks⟩
  · rintro ⟨hstrays, hblanks⟩
    exact ⟨bertNormalizeAt_eq s, basicTokenizeAt_eq s, hstrays, hblanks⟩

/-- A lead byte before a capital is dropped with it, and one before a blank makes a token of
both. -/
theorem lead_before_ascii_lost :
    ¬PassesMalformed [0xC3, 0x41] ∧ ¬PassesMalformed [0xC3, 0x20] := by
  constructor
  · intro h
    have hkept := (keepsStrays_iff _).mp h.strays
    have hfront : frontChar [0xC3, 0x41] = none := by decide +kernel
    have hlost : bertNormalize [0xC3, 0x41] = [0x61] := by decide +kernel
    rw [eachNormalized_stray hfront, hlost] at hkept
    exact absurd (List.cons.inj hkept).1 (by decide)
  · intro h
    have hblank := h.blanks [0xC3, 0x20] (by decide) 0x20 (by decide)
    exact absurd hblank (by decide)

end LibEmbedding
