import Mathlib.Tactic

/-!
# UTF-8 among arbitrary bytes

A byte string falls into well-formed sequences, the encodings of characters, and stray
bytes that belong to none. A sequence is recognised at its first byte and never starts
inside another one, so a scan from the front finds them all.
-/

namespace LibEmbedding.Foundation

/-- The bytes of a text. -/
def utf8 (text : List Char) : List UInt8 := text.flatMap String.utf8EncodeChar

@[simp] theorem utf8_nil : utf8 [] = [] := rfl

@[simp] theorem utf8_cons (c : Char) (text : List Char) :
    utf8 (c :: text) = String.utf8EncodeChar c ++ utf8 text := rfl

@[simp] theorem utf8_append (a b : List Char) : utf8 (a ++ b) = utf8 a ++ utf8 b :=
  List.flatMap_append

-- ---------------------------------------------------------------------------
-- One sequence
-- ---------------------------------------------------------------------------

/-- A continuation byte. -/
def Trail (b : UInt8) : Prop := 0x80 ≤ b ∧ b < 0xC0

instance (b : UInt8) : Decidable (Trail b) := inferInstanceAs (Decidable (_ ∧ _))

/-- The code point and the bytes of a sequence, by the number of its bytes. -/
inductive Sequence : Nat → List UInt8 → Prop where
  | one : b < 0x80 → Sequence b.toNat [b]
  | two : 0xC2 ≤ b → b < 0xE0 → Trail d →
      Sequence ((b.toNat - 0xC0) * 64 + (d.toNat - 0x80)) [b, d]
  | three : 0xE0 ≤ b → b < 0xF0 → Trail d → Trail e →
      Sequence ((b.toNat - 0xE0) * 4096 + (d.toNat - 0x80) * 64 + (e.toNat - 0x80)) [b, d, e]
  | four : 0xF0 ≤ b → b < 0xF5 → Trail d → Trail e → Trail f →
      Sequence ((b.toNat - 0xF0) * 262144 + (d.toNat - 0x80) * 4096 + (e.toNat - 0x80) * 64 +
        (f.toNat - 0x80)) [b, d, e, f]

theorem toNat_ofNat_of_lt {n : Nat} (h : n < 256) : (UInt8.ofNat n).toNat = n := by
  rw [UInt8.toNat_ofNat', Nat.mod_eq_of_lt h]

theorem toNat_trail (n : Nat) : (UInt8.ofNat (n % 64 + 128)).toNat = n % 64 + 128 :=
  toNat_ofNat_of_lt (by omega)

theorem trail_ofNat (n : Nat) : Trail (UInt8.ofNat (n % 64 + 128)) := by
  rw [Trail, UInt8.le_iff_toNat_le, UInt8.lt_iff_toNat_lt, toNat_trail]
  constructor
  · exact Nat.le_add_left 128 (n % 64)
  · show n % 64 + 128 < 192
    omega

/-- Every character is encoded as a sequence. -/
theorem utf8EncodeChar_sequence (c : Char) : Sequence c.toNat (String.utf8EncodeChar c) := by
  have hmax : c.val.toNat ≤ 0x10FFFF := by
    rcases c.valid with h | ⟨-, h⟩
    · exact (Nat.le_of_lt h).trans (by decide)
    · exact Nat.le_of_lt_succ h
  change Sequence c.val.toNat _
  unfold String.utf8EncodeChar
  dsimp only
  generalize c.val.toNat = v at hmax
  split
  · rename_i hone
    have hvalue : (UInt8.ofNat v).toNat = v := toNat_ofNat_of_lt (by omega)
    have hascii : UInt8.ofNat v < 0x80 := by
      rw [UInt8.lt_iff_toNat_lt, hvalue]
      exact Nat.lt_succ_of_le hone
    have hsequence := Sequence.one hascii
    rwa [hvalue] at hsequence
  · split
    · rename_i hone htwo
      have hlead : (UInt8.ofNat (v / 64 % 32 + 192)).toNat = v / 64 + 192 := by
        rw [toNat_ofNat_of_lt (by omega)]
        omega
      have hsequence := Sequence.two (b := UInt8.ofNat (v / 64 % 32 + 192))
        (by rw [UInt8.le_iff_toNat_le, hlead]; change 194 ≤ _; omega)
        (by rw [UInt8.lt_iff_toNat_lt, hlead]; change _ < 224; omega) (trail_ofNat v)
      have hvalue : (v / 64 + 192 - 192) * 64 + (v % 64 + 128 - 128) = v := by omega
      rwa [hlead, toNat_trail, hvalue] at hsequence
    · split
      · rename_i hone htwo hthree
        have hlead : (UInt8.ofNat (v / 4096 % 16 + 224)).toNat = v / 4096 + 224 := by
          rw [toNat_ofNat_of_lt (by omega)]
          omega
        have hsequence := Sequence.three (b := UInt8.ofNat (v / 4096 % 16 + 224))
          (by rw [UInt8.le_iff_toNat_le, hlead]; exact Nat.le_add_left 224 _)
          (by rw [UInt8.lt_iff_toNat_lt, hlead]; change _ < 240; omega)
          (trail_ofNat (v / 64)) (trail_ofNat v)
        have hvalue : (v / 4096 + 224 - 224) * 4096 + (v / 64 % 64 + 128 - 128) * 64 +
            (v % 64 + 128 - 128) = v := by omega
        rwa [hlead, toNat_trail, toNat_trail, hvalue] at hsequence
      · rename_i hone htwo hthree
        have hlead : (UInt8.ofNat (v / 262144 % 8 + 240)).toNat = v / 262144 + 240 := by
          rw [toNat_ofNat_of_lt (by omega)]
          omega
        have hsequence := Sequence.four (b := UInt8.ofNat (v / 262144 % 8 + 240))
          (by rw [UInt8.le_iff_toNat_le, hlead]; exact Nat.le_add_left 240 _)
          (by rw [UInt8.lt_iff_toNat_lt, hlead]; change _ < 245; omega)
          (trail_ofNat (v / 4096)) (trail_ofNat (v / 64)) (trail_ofNat v)
        have hvalue : (v / 262144 + 240 - 240) * 262144 + (v / 4096 % 64 + 128 - 128) * 4096 +
            (v / 64 % 64 + 128 - 128) * 64 + (v % 64 + 128 - 128) = v := by omega
        rwa [hlead, toNat_trail, toNat_trail, toNat_trail, hvalue] at hsequence

/-- The first byte of a sequence is no continuation byte, the others are. -/
theorem utf8EncodeChar_eq_cons (c : Char) :
    ∃ b more, String.utf8EncodeChar c = b :: more ∧ ¬Trail b ∧ ∀ d ∈ more, Trail d := by
  have hlow {b : UInt8} (h : b < 0x80) : ¬Trail b := fun ht => absurd ht.1 (UInt8.not_le.mpr h)
  have hhigh {b : UInt8} (h : 0xC0 ≤ b) : ¬Trail b := fun ht => absurd ht.2 (UInt8.not_lt.mpr h)
  obtain ⟨v, hv⟩ : ∃ v, Sequence v (String.utf8EncodeChar c) := ⟨_, utf8EncodeChar_sequence c⟩
  generalize String.utf8EncodeChar c = bytes at hv
  cases hv with
  | one hb => exact ⟨_, _, rfl, hlow hb, by simp⟩
  | two hb _ hd =>
    exact ⟨_, _, rfl, hhigh (UInt8.le_trans (by decide : (0xC0 : UInt8) ≤ 0xC2) hb),
      by simpa using hd⟩
  | three hb _ hd he =>
    exact ⟨_, _, rfl, hhigh (UInt8.le_trans (by decide : (0xC0 : UInt8) ≤ 0xE0) hb),
      by simpa using ⟨hd, he⟩⟩
  | four hb _ hd he hf =>
    exact ⟨_, _, rfl, hhigh (UInt8.le_trans (by decide : (0xC0 : UInt8) ≤ 0xF0) hb),
      by simpa using ⟨hd, he, hf⟩⟩

-- ---------------------------------------------------------------------------
-- The character in front
-- ---------------------------------------------------------------------------

/-- The character whose encoding the bytes start with. -/
def frontChar (bytes : List UInt8) : Option Char := bytes.toByteArray.utf8DecodeChar? 0

theorem frontChar_append (c : Char) (rest : List UInt8) :
    frontChar (String.utf8EncodeChar c ++ rest) = some c := by
  rw [frontChar, List.toByteArray_append]
  exact ByteArray.utf8DecodeChar?_utf8EncodeChar_append

theorem frontChar_some {bytes : List UInt8} (h : frontChar bytes = some c) :
    ∃ rest, bytes = String.utf8EncodeChar c ++ rest := by
  obtain ⟨rest, hrest⟩ := ByteArray.exists_of_utf8DecodeChar?_eq_some h
  refine ⟨rest.data.toList, ?_⟩
  have hdata := congrArg (fun b : ByteArray => b.data.toList) hrest
  simpa using hdata

theorem frontChar_none {bytes : List UInt8} :
    frontChar bytes = none ↔ ∀ c rest, bytes ≠ String.utf8EncodeChar c ++ rest := by
  constructor
  · rintro h c rest rfl
    rw [frontChar_append] at h
    cases h
  · intro h
    cases hfront : frontChar bytes with
    | none => rfl
    | some c =>
      obtain ⟨rest, hrest⟩ := frontChar_some hfront
      exact absurd hrest (h c rest)

/-- No two sequences start with the same bytes. -/
theorem utf8EncodeChar_append_inj {c d : Char} {a b : List UInt8}
    (h : String.utf8EncodeChar c ++ a = String.utf8EncodeChar d ++ b) : c = d ∧ a = b := by
  have hfront := frontChar_append c a
  rw [h, frontChar_append] at hfront
  obtain rfl := Option.some.inj hfront
  exact ⟨rfl, List.append_cancel_left h⟩

theorem utf8EncodeChar_ascii {b : UInt8} (h : b < 0x80) :
    String.utf8EncodeChar (Char.ofNat b.toNat) = [b] := by
  have hall : ∀ n < 128, String.utf8EncodeChar (Char.ofNat n) = [UInt8.ofNat n] := by
    decide +kernel
  rw [hall b.toNat (UInt8.lt_iff_toNat_lt.mp h), UInt8.ofNat_toNat]

/-- A byte below 128 is a sequence by itself. -/
theorem frontChar_ascii (h : b < 0x80) (rest : List UInt8) :
    frontChar (b :: rest) = some (Char.ofNat b.toNat) := by
  have hfront := frontChar_append (Char.ofNat b.toNat) rest
  rwa [utf8EncodeChar_ascii h] at hfront

/-- A byte that starts no sequence is no byte below 128. -/
theorem high_of_stray (h : frontChar (b :: rest) = none) : 0x80 ≤ b := by
  rw [← UInt8.not_lt]
  intro hlow
  rw [frontChar_ascii hlow] at h
  cases h

-- ---------------------------------------------------------------------------
-- Sequences and stray bytes
-- ---------------------------------------------------------------------------

inductive Piece where
  | char (c : Char)
  | stray (b : UInt8)
  deriving DecidableEq, Repr

def Piece.bytes : Piece → List UInt8
  | .char c => String.utf8EncodeChar c
  | .stray b => [b]

def piecesLoop : Nat → List UInt8 → List Piece
  | 0, _ => []
  | _, [] => []
  | fuel + 1, b :: rest =>
    match frontChar (b :: rest) with
    | some c => .char c :: piecesLoop fuel ((b :: rest).drop c.utf8Size)
    | none => .stray b :: piecesLoop fuel rest

/-- The sequences and the stray bytes of a byte string, in order. -/
def pieces (s : List UInt8) : List Piece := piecesLoop s.length s

theorem drop_utf8Size (c : Char) (rest : List UInt8) :
    (String.utf8EncodeChar c ++ rest).drop c.utf8Size = rest := by
  rw [← String.length_utf8EncodeChar, List.drop_left]

theorem piecesLoop_fuel (fuel : Nat) (s : List UInt8) (hfuel : s.length ≤ fuel) :
    piecesLoop fuel s = pieces s := by
  induction fuel using Nat.strong_induction_on generalizing s with
  | _ fuel ih =>
    cases s with
    | nil => cases fuel <;> rfl
    | cons b rest =>
      rw [List.length_cons] at hfuel
      obtain ⟨m, rfl⟩ := Nat.exists_eq_succ_of_ne_zero (by omega : fuel ≠ 0)
      rw [pieces, List.length_cons, piecesLoop, piecesLoop]
      cases frontChar (b :: rest) with
      | none =>
        dsimp only
        rw [ih m (Nat.lt_succ_self m) rest (by omega), pieces]
      | some c =>
        have hpos := c.utf8Size_pos
        have hdrop : ((b :: rest).drop c.utf8Size).length ≤ rest.length := by
          rw [List.length_drop, List.length_cons]
          omega
        dsimp only
        rw [ih m (Nat.lt_succ_self m) _ (by omega), ih rest.length (by omega) _ hdrop]

@[simp] theorem pieces_nil : pieces [] = [] := rfl

@[simp] theorem pieces_char (c : Char) (rest : List UInt8) :
    pieces (String.utf8EncodeChar c ++ rest) = .char c :: pieces rest := by
  obtain ⟨b, more, hencode, -⟩ := utf8EncodeChar_eq_cons c
  have hfront := frontChar_append c rest
  have hdrop := drop_utf8Size c rest
  rw [hencode, List.cons_append] at hfront hdrop ⊢
  rw [pieces, List.length_cons, piecesLoop, hfront]
  dsimp only
  rw [hdrop, piecesLoop_fuel _ rest (by rw [List.length_append]; omega)]

@[simp] theorem pieces_stray (h : frontChar (b :: rest) = none) :
    pieces (b :: rest) = .stray b :: pieces rest := by
  rw [pieces, List.length_cons, piecesLoop, h]
  rfl

/-- Taking the pieces off one by one. -/
theorem piece_induction {motive : List UInt8 → Prop} (s : List UInt8) (nil : motive [])
    (char : ∀ c rest, motive rest → motive (String.utf8EncodeChar c ++ rest))
    (stray : ∀ b rest, frontChar (b :: rest) = none → motive rest → motive (b :: rest)) :
    motive s := by
  induction hlength : s.length using Nat.strong_induction_on generalizing s with
  | _ n ih =>
    cases s with
    | nil => exact nil
    | cons b rest =>
      cases hfront : frontChar (b :: rest) with
      | none => exact stray b rest hfront (ih rest.length (by simp [← hlength]) rest rfl)
      | some c =>
        obtain ⟨tail, heq⟩ := frontChar_some hfront
        have hpos := c.utf8Size_pos
        rw [heq]
        refine char c tail (ih tail.length ?_ tail rfl)
        rw [← hlength, heq, List.length_append, String.length_utf8EncodeChar]
        omega

/-- The pieces are the whole string. -/
theorem flatMap_pieces (s : List UInt8) : (pieces s).flatMap Piece.bytes = s := by
  induction s using piece_induction with
  | nil => rfl
  | char c rest ih => rw [pieces_char, List.flatMap_cons, ih, Piece.bytes]
  | stray b rest h ih => rw [pieces_stray h, List.flatMap_cons, ih, Piece.bytes, List.singleton_append]

-- ---------------------------------------------------------------------------
-- Which bytes belong to a sequence
-- ---------------------------------------------------------------------------

/-- The byte at `i` is part of a well-formed sequence, wherever that starts. -/
def InSequence (s : List UInt8) (i : Nat) : Prop :=
  ∃ front c rest, s = front ++ String.utf8EncodeChar c ++ rest ∧ front.length ≤ i ∧
    i < front.length + c.utf8Size

theorem inSequence_head {c : Char} (h : i < c.utf8Size) (rest : List UInt8) :
    InSequence (String.utf8EncodeChar c ++ rest) i :=
  ⟨[], c, rest, rfl, Nat.zero_le i, by simpa using h⟩

theorem InSequence.append_left {s : List UInt8} (h : InSequence s i) (front : List UInt8) :
    InSequence (front ++ s) (front.length + i) := by
  obtain ⟨before, c, rest, rfl, hle, hlt⟩ := h
  refine ⟨front ++ before, c, rest, by simp only [List.append_assoc], ?_, ?_⟩
  · rw [List.length_append]
    omega
  · rw [List.length_append]
    omega

/-- A byte outside every sequence is a piece of its own. -/
theorem pieces_split {front back : List UInt8}
    (h : ¬InSequence (front ++ b :: back) front.length) :
    pieces (front ++ b :: back) = pieces front ++ .stray b :: pieces back := by
  induction hlength : front.length using Nat.strong_induction_on generalizing front with
  | _ n ih =>
    cases front with
    | nil =>
      refine pieces_stray ?_
      rw [frontChar_none]
      intro c rest heq
      rw [List.nil_append, heq] at h
      exact h (inSequence_head c.utf8Size_pos rest)
    | cons x front =>
      cases hfront : frontChar (x :: (front ++ b :: back)) with
      | none =>
        have halone : frontChar (x :: front) = none := by
          rw [frontChar_none] at hfront ⊢
          intro c rest heq
          refine hfront c (rest ++ b :: back) ?_
          rw [← List.append_assoc, ← heq, List.cons_append]
        have hback : ¬InSequence (front ++ b :: back) front.length := by
          intro hin
          refine h ?_
          rw [List.length_cons, Nat.add_comm]
          exact hin.append_left [x]
        rw [List.cons_append, pieces_stray hfront, pieces_stray halone,
          ih front.length (by simp [← hlength]) hback rfl, List.cons_append]
      | some c =>
        obtain ⟨rest, heq⟩ := frontChar_some hfront
        -- The sequence in front ends before the byte.
        have hshort : c.utf8Size ≤ (x :: front).length := by
          by_contra hlong
          refine h ?_
          rw [List.cons_append, heq]
          exact inSequence_head (Nat.lt_of_not_le hlong) rest
        have hpre : ∃ front', x :: front = String.utf8EncodeChar c ++ front' := by
          have hinit := List.prefix_of_prefix_length_le
            (⟨rest, heq.symm⟩ : String.utf8EncodeChar c <+: x :: (front ++ b :: back))
            (⟨b :: back, rfl⟩ : x :: front <+: x :: (front ++ b :: back))
            (by rwa [String.length_utf8EncodeChar])
          exact hinit.imp fun _ => Eq.symm
        obtain ⟨front', hfront'⟩ := hpre
        rw [hfront'] at h ⊢
        have hpos := c.utf8Size_pos
        have hlt : front'.length < n := by
          rw [← hlength, hfront', List.length_append, String.length_utf8EncodeChar]
          omega
        have hback : ¬InSequence (front' ++ b :: back) front'.length := by
          intro hin
          refine h ?_
          rw [List.length_append, List.append_assoc]
          exact hin.append_left _
        rw [List.append_assoc, pieces_char, pieces_char, ih _ hlt hback rfl, List.cons_append]

/-- No sequence starts inside the one in front. -/
theorem sequence_behind {front rest rest' : List UInt8} {c d : Char}
    (h : front ++ String.utf8EncodeChar d ++ rest' = String.utf8EncodeChar c ++ rest)
    (hne : front ≠ []) : ∃ front', front = String.utf8EncodeChar c ++ front' := by
  obtain ⟨lead, more, hc, -, hmore⟩ := utf8EncodeChar_eq_cons c
  obtain ⟨lead', more', hd, hlead', -⟩ := utf8EncodeChar_eq_cons d
  rw [List.append_assoc, List.append_eq_append_iff] at h
  rcases h with ⟨inside, hinside, hrest⟩ | ⟨front', hfront, -⟩
  · cases inside with
    | nil => exact ⟨[], by rw [hinside, List.append_nil, List.append_nil]⟩
    | cons b inside =>
      -- The first byte of the second sequence would continue the first.
      rw [hd, List.cons_append, List.cons_append] at hrest
      obtain ⟨rfl, -⟩ := List.cons.inj hrest
      cases front with
      | nil => exact absurd rfl hne
      | cons x front =>
        rw [hc, List.cons_append] at hinside
        obtain ⟨-, hmore'⟩ := List.cons.inj hinside
        exact absurd (hmore lead' (by rw [hmore']; simp)) hlead'
  · exact ⟨front', hfront⟩

/-- A byte string all of whose bytes belong to sequences is a text. -/
theorem eq_utf8_of_inSequence {s : List UInt8} (h : ∀ i < s.length, InSequence s i) :
    ∃ text, s = utf8 text := by
  induction s using piece_induction with
  | nil => exact ⟨[], rfl⟩
  | char c rest ih =>
    have hrest : ∀ i < rest.length, InSequence rest i := by
      intro i hi
      obtain ⟨front, d, rest', heq, hle, hlt⟩ := h (c.utf8Size + i) (by simpa using hi)
      have hne : front ≠ [] := by
        rintro rfl
        obtain ⟨rfl, -⟩ := utf8EncodeChar_append_inj heq
        rw [List.length_nil] at hlt
        omega
      obtain ⟨front', rfl⟩ := sequence_behind heq.symm hne
      rw [List.append_assoc, List.append_assoc, List.append_cancel_left_eq] at heq
      rw [List.length_append, String.length_utf8EncodeChar] at hle hlt
      exact ⟨front', d, rest', by rw [heq, List.append_assoc], by omega, by omega⟩
    obtain ⟨text, rfl⟩ := ih hrest
    exact ⟨c :: text, rfl⟩
  | stray b rest hstray ih =>
    obtain ⟨front, c, rest', heq, hle, -⟩ := h 0 (Nat.succ_pos _)
    obtain rfl := List.eq_nil_of_length_eq_zero (Nat.le_zero.mp hle)
    exact absurd heq (frontChar_none.mp hstray c rest')

end LibEmbedding.Foundation
