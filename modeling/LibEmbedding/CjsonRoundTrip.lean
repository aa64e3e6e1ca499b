import LibEmbedding.CjsonNumbers
import LibEmbedding.CjsonStrings

/-!
# What is printed is parsed

`cJSON_Parse` of what `cJSON_Print` has written gives the tree back, its strings up to their first
NUL and its numbers as their texts say, with and without format. Printing that gives the same text
again.
-/

namespace LibEmbedding

open Foundation

namespace JsonText

-- ---------------------------------------------------------------------------
-- Trees
-- ---------------------------------------------------------------------------

mutual

/-- A tree that can be printed below `depth` others. -/
def Printable (depth : Nat) : Json → Prop
  | .number d => Ordinary d
  | .array items => depth < nestingLimit ∧ PrintableElements (depth + 1) items
  | .object members => depth < nestingLimit ∧ PrintableMembers (depth + 1) members
  | _ => True

def PrintableElements (depth : Nat) : List Json → Prop
  | [] => True
  | item :: items => Printable depth item ∧ PrintableElements depth items

def PrintableMembers (depth : Nat) : List (Bytes × Json) → Prop
  | [] => True
  | (_, item) :: members => Printable depth item ∧ PrintableMembers depth members

end

mutual

/-- The tree that comes back. -/
def reread : Json → Json
  | .number d => .number (rereadNumber d)
  | .string s => .string (cstr s)
  | .array items => .array (rereadElements items)
  | .object members => .object (rereadMembers members)
  | .null => .null
  | .bool b => .bool b

def rereadElements : List Json → List Json
  | [] => []
  | item :: items => reread item :: rereadElements items

def rereadMembers : List (Bytes × Json) → List (Bytes × Json)
  | [] => []
  | (name, item) :: members => (cstr name, reread item) :: rereadMembers members

end

theorem printableElements_iff :
    PrintableElements depth items ↔ ∀ item ∈ items, Printable depth item := by
  induction items with
  | nil => simp [PrintableElements]
  | cons item items ih => rw [PrintableElements, ih, List.forall_mem_cons]

theorem printableMembers_iff :
    PrintableMembers depth members ↔ ∀ member ∈ members, Printable depth member.2 := by
  induction members with
  | nil => simp [PrintableMembers]
  | cons member members ih => rw [PrintableMembers, ih, List.forall_mem_cons]

theorem rereadElements_eq (items : List Json) : rereadElements items = items.map reread := by
  induction items with
  | nil => rfl
  | cons item items ih => rw [rereadElements, ih, List.map_cons]

theorem rereadMembers_eq (members : List (Bytes × Json)) :
    rereadMembers members = members.map fun (name, item) => (cstr name, reread item) := by
  induction members with
  | nil => rfl
  | cons member members ih => rw [rereadMembers, ih, List.map_cons]

mutual

theorem reread_reread (t : Json) (h : Printable depth t) : reread (reread t) = reread t := by
  match t with
  | .null => rfl
  | .bool b => rfl
  | .number d => rw [reread, reread, rereadNumber_rereadNumber h]
  | .string s => rw [reread, reread, cstr_legible (legible_cstr s)]
  | .array items => rw [reread, reread, rereadElements_reread items h.2]
  | .object members => rw [reread, reread, rereadMembers_reread members h.2]

theorem rereadElements_reread (items : List Json) (h : PrintableElements depth items) :
    rereadElements (rereadElements items) = rereadElements items := by
  match items with
  | [] => rfl
  | item :: items =>
    rw [rereadElements, rereadElements, reread_reread item h.1, rereadElements_reread items h.2]

theorem rereadMembers_reread (members : List (Bytes × Json)) (h : PrintableMembers depth members) :
    rereadMembers (rereadMembers members) = rereadMembers members := by
  match members with
  | [] => rfl
  | (name, item) :: members =>
    rw [rereadMembers, rereadMembers, reread_reread item h.1, rereadMembers_reread members h.2,
      cstr_legible (legible_cstr name)]

end

-- ---------------------------------------------------------------------------
-- Printing
-- ---------------------------------------------------------------------------

/-- A text that begins with a character of its own. -/
def Opens (text : Bytes) : Prop :=
  ∃ c rest, text = c :: rest ∧ 32 < c ∧ c < 128 ∧ c ≠ 93 ∧ 0 ∉ text

theorem legible_escaped (s : Bytes) (hs : 0 ∉ s) : 0 ∉ s.flatMap escapeByte := by
  intro h
  obtain ⟨c, hc, hzero⟩ := List.mem_flatMap.mp h
  obtain ⟨hbyte, -⟩ | ⟨e, hbyte, hletter⟩ | ⟨hbyte, hsmall⟩ := escapeByte_cases c
  · rw [hbyte, List.mem_singleton] at hzero
    exact hs (hzero ▸ hc)
  · rw [hbyte] at hzero
    obtain rfl : (0 : UInt8) = e := by simpa using hzero
    simp [unescape] at hletter
  · rw [hbyte] at hzero
    have hdigit : ∀ n < 16, hexDigit n ≠ 0 := by decide
    simp only [List.mem_cons, List.not_mem_nil, or_false] at hzero
    obtain h | h | h | h | h | h := hzero
    · exact absurd h (by decide)
    · exact absurd h (by decide)
    · exact absurd h (by decide)
    · exact absurd h (by decide)
    · exact hdigit _ (by omega) h.symm
    · exact hdigit _ (by omega) h.symm

theorem legible_printString (s : Bytes) : 0 ∉ printString s := by
  have h := legible_escaped (cstr s) (legible_cstr s)
  simp [printString] at h ⊢
  exact h

theorem isNumberByte_bounds (h : isNumberByte c = true) : 32 < c ∧ c < 128 ∧ c ≠ 93 := by
  simp only [isNumberByte, isDigit, Bool.or_eq_true, decide_eq_true_eq, Bool.and_eq_true] at h
  simp only [UInt8.lt_iff_toNat_lt, UInt8.le_iff_toNat_le] at *
  obtain ((((h | rfl) | rfl) | rfl) | rfl) | rfl := h
  · have hlow : 48 ≤ c.toNat := h.1
    have hhigh : c.toNat ≤ 57 := h.2
    refine ⟨Nat.lt_of_lt_of_le (by decide) hlow, Nat.lt_of_le_of_lt hhigh (by decide), ?_⟩
    rintro rfl
    exact absurd hhigh (by decide)
  all_goals decide

theorem Numeric.opens (h : Numeric text) : Opens text := by
  obtain ⟨hbytes, c, hc, -⟩ := h
  obtain ⟨rest, rfl⟩ := List.head?_eq_some_iff.mp hc
  obtain ⟨hlow, hhigh, hclose⟩ := isNumberByte_bounds (hbytes c List.mem_cons_self)
  refine ⟨c, rest, rfl, hlow, hhigh, hclose, fun hzero => ?_⟩
  exact absurd (isNumberByte_bounds (hbytes 0 hzero)).1 (by decide)

section Print

variable {format : Bool} {depth : Nat}

theorem legible_tabs (format : Bool) (n : Nat) : 0 ∉ tabs format n := by
  unfold tabs
  split
  · exact fun h => absurd (List.eq_of_mem_replicate h) (by decide)
  · simp

theorem printElements_cons :
    printElements format depth (item :: items) = some all ↔
      ∃ text more, printValue format depth item = some text ∧
        printElements format depth items = some more ∧
        all = text ++
          (if items.isEmpty then [] else if format then [44, 32] else [44]) ++ more := by
  simp only [printElements, bind, Option.bind_eq_some_iff, pure, Option.some.injEq]
  constructor
  · rintro ⟨text, htext, more, hmore, rfl⟩
    exact ⟨text, more, htext, hmore, rfl⟩
  · rintro ⟨text, more, htext, hmore, rfl⟩
    exact ⟨text, htext, more, hmore, rfl⟩

/-- What stands between the white space before a member and the next one. -/
def memberText (format : Bool) (name text : Bytes) (last : Bool) : Bytes :=
  printString name ++ (if format then [58, 9] else [58]) ++ text ++ (if last then [] else [44]) ++
    (if format then [10] else [])

theorem printMembers_cons :
    printMembers format depth ((name, item) :: members) = some all ↔
      ∃ text more, printValue format depth item = some text ∧
        printMembers format depth members = some more ∧
        all = tabs format depth ++ memberText format name text members.isEmpty ++ more := by
  simp only [printMembers, bind, Option.bind_eq_some_iff, pure, Option.some.injEq, memberText,
    List.append_assoc]
  constructor
  · rintro ⟨text, htext, more, hmore, rfl⟩
    exact ⟨text, more, htext, hmore, rfl⟩
  · rintro ⟨text, more, htext, hmore, rfl⟩
    exact ⟨text, htext, more, hmore, rfl⟩

mutual

theorem printValue_opens (format : Bool) (depth : Nat) (t : Json) {text : Bytes}
    (h : printValue format depth t = some text) : Opens text := by
  match t with
  | .null =>
    obtain rfl := Option.some.inj h
    exact ⟨110, ascii "ull", by decide, by decide, by decide, by decide, by decide⟩
  | .bool false =>
    obtain rfl := Option.some.inj h
    exact ⟨102, ascii "alse", by decide, by decide, by decide, by decide, by decide⟩
  | .bool true =>
    obtain rfl := Option.some.inj h
    exact ⟨116, ascii "rue", by decide, by decide, by decide, by decide, by decide⟩
  | .number d =>
    rw [printValue, printNumber, Option.ite_none_right_eq_some] at h
    obtain rfl := Option.some.inj h.2
    exact (numeric_numberText d).opens
  | .string s =>
    obtain rfl := Option.some.inj h
    exact ⟨34, (cstr s).flatMap escapeByte ++ [34], by simp [printString], by decide, by decide,
      by decide, legible_printString s⟩
  | .array items =>
    rw [printValue, Option.ite_none_left_eq_some, Option.map_eq_some_iff] at h
    obtain ⟨-, text, htext, rfl⟩ := h
    have hzero := printElements_legible format (depth + 1) items htext
    exact ⟨91, text ++ [93], by simp, by decide, by decide, by decide, by simpa using hzero⟩
  | .object members =>
    rw [printValue, Option.ite_none_left_eq_some, Option.map_eq_some_iff] at h
    obtain ⟨-, text, htext, rfl⟩ := h
    have hzero := printMembers_legible format (depth + 1) members htext
    have htabs := legible_tabs format depth
    refine ⟨123, (if format then [10] else []) ++ text ++ tabs format depth ++ [125], by simp,
      by decide, by decide, by decide, ?_⟩
    cases format <;> simpa using ⟨hzero, htabs⟩

theorem printElements_legible (format : Bool) (depth : Nat) (items : List Json) {text : Bytes}
    (h : printElements format depth items = some text) : 0 ∉ text := by
  match items with
  | [] =>
    obtain rfl := Option.some.inj h
    simp
  | item :: items =>
    obtain ⟨text, more, htext, hmore, rfl⟩ := printElements_cons.mp h
    obtain ⟨-, -, -, -, -, -, hzero⟩ := printValue_opens format depth item htext
    have hrest := printElements_legible format depth items hmore
    split
    · simpa using ⟨hzero, hrest⟩
    · split <;> simpa using ⟨hzero, hrest⟩

theorem printMembers_legible (format : Bool) (depth : Nat) (members : List (Bytes × Json))
    {text : Bytes} (h : printMembers format depth members = some text) : 0 ∉ text := by
  match members with
  | [] =>
    obtain rfl := Option.some.inj h
    simp
  | (name, item) :: members =>
    obtain ⟨text, more, htext, hmore, rfl⟩ := printMembers_cons.mp h
    obtain ⟨-, -, -, -, -, -, hzero⟩ := printValue_opens format depth item htext
    have hrest := printMembers_legible format depth members hmore
    have htabs := legible_tabs format depth
    have hname := legible_printString name
    unfold memberText
    cases format <;> cases members.isEmpty <;> simp [hzero, hrest, htabs, hname]

end

mutual

theorem printValue_some (format : Bool) (depth : Nat) (t : Json) (h : Printable depth t) :
    ∃ text, printValue format depth t = some text := by
  match t with
  | .null => exact ⟨_, rfl⟩
  | .bool false => exact ⟨_, rfl⟩
  | .bool true => exact ⟨_, rfl⟩
  | .number d => exact ⟨_, printNumber_ordinary h⟩
  | .string s => exact ⟨_, rfl⟩
  | .array items =>
    obtain ⟨hdepth, hitems⟩ := h
    obtain ⟨text, htext⟩ := printElements_some format (depth + 1) items hitems
    rw [printValue, if_neg (Nat.not_le.mpr hdepth), htext]
    exact ⟨_, rfl⟩
  | .object members =>
    obtain ⟨hdepth, hmembers⟩ := h
    obtain ⟨text, htext⟩ := printMembers_some format (depth + 1) members hmembers
    rw [printValue, if_neg (Nat.not_le.mpr hdepth), htext]
    exact ⟨_, rfl⟩

theorem printElements_some (format : Bool) (depth : Nat) (items : List Json)
    (h : PrintableElements depth items) : ∃ text, printElements format depth items = some text := by
  match items with
  | [] => exact ⟨_, rfl⟩
  | item :: items =>
    obtain ⟨text, htext⟩ := printValue_some format depth item h.1
    obtain ⟨more, hmore⟩ := printElements_some format depth items h.2
    exact ⟨_, printElements_cons.mpr ⟨text, more, htext, hmore, rfl⟩⟩

theorem printMembers_some (format : Bool) (depth : Nat) (members : List (Bytes × Json))
    (h : PrintableMembers depth members) :
    ∃ text, printMembers format depth members = some text := by
  match members with
  | [] => exact ⟨_, rfl⟩
  | (name, item) :: members =>
    obtain ⟨text, htext⟩ := printValue_some format depth item h.1
    obtain ⟨more, hmore⟩ := printMembers_some format depth members h.2
    exact ⟨_, printMembers_cons.mpr ⟨text, more, htext, hmore, rfl⟩⟩

end

end Print

-- ---------------------------------------------------------------------------
-- Parsing
-- ---------------------------------------------------------------------------

section Parse

variable {before rest tail : Bytes} {depth fuel : Nat} {c : UInt8}

theorem startsWith_other {literal : Bytes} (h : ∃ d ∈ literal.head?, d ≠ c) :
    (At before (c :: rest) depth).startsWith literal = false := by
  obtain ⟨d, hd, hne⟩ := h
  obtain ⟨more, rfl⟩ := List.head?_eq_some_iff.mp hd
  rw [startsWith_at, decide_eq_false_iff_not, List.cons_prefix_cons]
  exact fun hsame => hne hsame.1

/-- A value that is no keyword is told by its first byte. -/
theorem parseValue_at (hc : c ≠ 110 ∧ c ≠ 102 ∧ c ≠ 116) :
    parseValue (fuel + 1) (At before (c :: rest) depth) =
      if c = 34 then do
        let (s, b) ← parseString (At before (c :: rest) depth)
        return (s.map .string, b)
      else if c = 45 ∨ isDigit c then .ok (parseNumber (At before (c :: rest) depth))
      else if c = 91 then parseArray (parseElements fuel) (At before (c :: rest) depth)
      else if c = 123 then parseObject (parseMembers fuel) (At before (c :: rest) depth)
      else .ok (none, At before (c :: rest) depth) := by
  rw [parseValue, startsWith_other ⟨110, rfl, hc.1.symm⟩, startsWith_other ⟨102, rfl, hc.2.1.symm⟩,
    startsWith_other ⟨116, rfl, hc.2.2.symm⟩, peek_at]
  rfl

/-- What may stand behind a number. -/
def Ends (tail : Bytes) : Prop := ∃ c ∈ tail.head?, isNumberByte c = false

theorem parseNumber_at {text : Bytes} {v : ℚ} (htext : Numeric text) (htail : Ends tail)
    (hread : strtod text = (v, text.length)) :
    parseNumber (At before (text ++ tail) depth) =
      (some (.number v), At (before ++ text) tail depth) := by
  have htake : (text ++ tail).takeWhile isNumberByte = text := by
    obtain ⟨c, hc, hbyte⟩ := htail
    obtain ⟨more, rfl⟩ := List.head?_eq_some_iff.mp hc
    rw [List.takeWhile_append_of_pos htext.1, List.takeWhile_cons_of_neg (by simp [hbyte]),
      List.append_nil]
  have hne : text.length ≠ 0 := by
    obtain ⟨-, c, hc, -⟩ := htext
    obtain ⟨more, rfl⟩ := List.head?_eq_some_iff.mp hc
    simp
  rw [parseNumber, rest_at, htake, hread]
  dsimp only
  rw [if_neg hne, advance_at]

theorem parseValue_number {text : Bytes} {v : ℚ} (htext : Numeric text) (htail : Ends tail)
    (hread : strtod text = (v, text.length)) :
    parseValue (fuel + 1) (At before (text ++ tail) depth) =
      .ok (some (.number v), At (before ++ text) tail depth) := by
  have hnumber : parseNumber (At before (text ++ tail) depth) =
      (some (.number v), At (before ++ text) tail depth) := parseNumber_at htext htail hread
  obtain ⟨-, c, hc, hhead⟩ := htext
  obtain ⟨more, rfl⟩ := List.head?_eq_some_iff.mp hc
  have hother : c ≠ 34 ∧ c ≠ 110 ∧ c ≠ 102 ∧ c ≠ 116 := by
    obtain rfl | hdigit := hhead
    · decide
    · refine ⟨?_, ?_, ?_, ?_⟩
      all_goals
        rintro rfl
        exact absurd hdigit (by decide)
  rw [List.cons_append] at hnumber ⊢
  rw [parseValue_at hother.2, if_neg hother.1, if_pos hhead, hnumber]

theorem parseValue_string (s : Bytes) :
    parseValue (fuel + 1) (At before (printString s ++ tail) depth) =
      .ok (some (.string (cstr s)), At (before ++ printString s) tail depth) := by
  have hstring := parseString_printed before s tail depth
  have hopen : printString s ++ tail = 34 :: ((cstr s).flatMap escapeByte ++ [34] ++ tail) := by
    simp [printString]
  rw [hopen] at hstring ⊢
  rw [parseValue_at (by decide), if_pos rfl, hstring]
  rfl

/-- A keyword. -/
theorem parseValue_literal :
    parseValue (fuel + 1) (At before (ascii "null" ++ tail) depth) =
        .ok (some .null, At (before ++ ascii "null") tail depth) ∧
      parseValue (fuel + 1) (At before (ascii "false" ++ tail) depth) =
        .ok (some (.bool false), At (before ++ ascii "false") tail depth) ∧
      parseValue (fuel + 1) (At before (ascii "true" ++ tail) depth) =
        .ok (some (.bool true), At (before ++ ascii "true") tail depth) := by
  have hfalse : ¬ascii "null" <+: ascii "false" ++ tail := by
    intro h
    exact absurd (List.cons_prefix_cons.mp h).1 (by decide)
  have htrue : ¬ascii "null" <+: ascii "true" ++ tail := by
    intro h
    exact absurd (List.cons_prefix_cons.mp h).1 (by decide)
  have hother : ¬ascii "false" <+: ascii "true" ++ tail := by
    intro h
    exact absurd (List.cons_prefix_cons.mp h).1 (by decide)
  have hstart (literal : Bytes) : literal <+: literal ++ tail := List.prefix_append _ _
  have hskip (literal : Bytes) :
      (At before (literal ++ tail) depth).advance literal.length =
        At (before ++ literal) tail depth := advance_at literal
  refine ⟨?_, ?_, ?_⟩
  · simp only [parseValue, startsWith_at, hstart, decide_true, if_true]
    exact congrArg (fun b => Except.ok (some Json.null, b)) (hskip (ascii "null"))
  · simp only [parseValue, startsWith_at, hfalse, hstart, decide_true, decide_false, if_true,
      Bool.false_eq_true, if_false]
    exact congrArg (fun b => Except.ok (some (Json.bool false), b)) (hskip (ascii "false"))
  · simp only [parseValue, startsWith_at, htrue, hother, hstart, decide_true, decide_false, if_true,
      Bool.false_eq_true, if_false]
    exact congrArg (fun b => Except.ok (some (Json.bool true), b)) (hskip (ascii "true"))

/-- The loop of `parse_array` around an element that has been read. -/
theorem parseElements_step {white text : Bytes} {t : Json} (hwhite : ∀ c ∈ white, c ≤ 32)
    (hopens : Opens text) (hrest : 32 < next)
    (hvalue : parseValue fuel (At (before ++ c :: white) (text ++ next :: rest) depth) =
      .ok (some t, At (before ++ c :: white ++ text) (next :: rest) depth)) :
    parseElements (fuel + 1) (At before (c :: (white ++ (text ++ next :: rest))) depth) =
      if next = 44 then do
        let (items, b) ← parseElements fuel
          (At (before ++ c :: white ++ text) (next :: rest) depth)
        return (items.map (t :: ·), b)
      else if next = 93 then
        .ok (some [t], At (before ++ c :: white ++ text) (next :: rest) depth)
      else .ok (none, At (before ++ c :: white ++ text) (next :: rest) depth) := by
  obtain ⟨d, more, rfl, hd, -⟩ := hopens
  rw [parseElements, advance_at_cons, List.cons_append, skipWhitespace_at hwhite hd]
  simp only [List.append_assoc, List.cons_append, List.nil_append] at hvalue ⊢
  rw [hvalue]
  simp only [ok_bind, skipWhitespace_at_cons hrest, peek_at, List.head?_cons, Option.some.injEq]
  rfl

theorem parseName_at {white : Bytes} (name : Bytes) (hwhite : ∀ c ∈ white, c ≤ 32) :
    parseName (At before (c :: (white ++ (printString name ++ 58 :: rest))) depth) =
      .ok (some (cstr name), At (before ++ c :: white ++ printString name) (58 :: rest) depth) := by
  have hname := parseString_printed (before ++ c :: white) name (58 :: rest) depth
  obtain ⟨more, hopen⟩ : ∃ more, printString name ++ 58 :: rest = 34 :: more :=
    ⟨_, by rw [printString, List.append_assoc, List.append_assoc]; rfl⟩
  have hskip : (At (before ++ [c]) (white ++ 34 :: more) depth).skipWhitespace =
      At (before ++ [c] ++ white) (34 :: more) depth := skipWhitespace_at hwhite (by decide)
  rw [hopen] at hname ⊢
  simp only [List.append_assoc, List.cons_append, List.nil_append] at hname hskip ⊢
  rw [parseName, canAccessAtIndex_at, advance_at_cons, hskip, if_neg (by simp), hname]
  simp only [ok_bind]
  rw [skipWhitespace_at_cons (by decide), peek_at, if_neg (by simp)]
  rfl

/-- The loop of `parse_object` around a member that has been read. -/
theorem parseMembers_step (before : Bytes) (c : UInt8) {white gap text after : Bytes} {t : Json}
    (name rest : Bytes)
    (hwhite : ∀ c ∈ white, c ≤ 32) (hgap : ∀ c ∈ gap, c ≤ 32) (hafter : ∀ c ∈ after, c ≤ 32)
    (hopens : Opens text) (hrest : 32 < next)
    (hvalue : ∀ before', parseValue fuel (At before' (text ++ (after ++ next :: rest)) depth) =
      .ok (some t, At (before' ++ text) (after ++ next :: rest) depth)) :
    parseMembers (fuel + 1) (At before (c :: (white ++ (printString name ++
        58 :: (gap ++ (text ++ (after ++ next :: rest)))))) depth) =
      let b := At (before ++ c :: (white ++ (printString name ++ 58 :: (gap ++ (text ++ after)))))
        (next :: rest) depth
      if next = 44 then do
        let (items, b) ← parseMembers fuel b
        return (items.map ((cstr name, t) :: ·), b)
      else if next = 125 then .ok (some [(cstr name, t)], b)
      else .ok (none, b) := by
  obtain ⟨d, more, rfl, hd, -⟩ := hopens
  have hskip (before' : Bytes) : (At before' (gap ++ ((d :: more) ++ (after ++ next :: rest)))
      depth).skipWhitespace = At (before' ++ gap) ((d :: more) ++ (after ++ next :: rest)) depth :=
    skipWhitespace_at hgap hd
  rw [parseMembers, parseName_at name hwhite]
  simp only [ok_bind]
  rw [advance_at_cons, hskip, hvalue]
  simp only [ok_bind]
  rw [skipWhitespace_at hafter hrest, peek_at, List.head?_cons]
  simp only [List.append_assoc, List.cons_append, List.nil_append, Option.some.injEq]
  rfl

theorem enter_at : ParseBuffer.mk (At before rest depth).content (At before rest depth).offset
    (depth + 1) = At before rest (depth + 1) := rfl

theorem parseArray_empty {elements : ParseBuffer → Except Stop (Parsed (List Json))}
    (hdepth : depth < nestingLimit) :
    parseArray elements (At before (91 :: 93 :: tail) depth) =
      .ok (some (.array []), At (before ++ [91, 93]) tail depth) := by
  rw [parseArray, depth_at, if_neg (Nat.not_le.mpr hdepth)]
  simp only [enter_at, readByte_at, ok_bind]
  rw [if_neg (by simp)]
  simp only [advance_at_cons]
  rw [skipWhitespace_at_cons (by decide), peek_at, List.head?_cons]
  simp only [if_true, close_at, List.append_assoc]
  rfl

theorem parseArray_items {elements : ParseBuffer → Except Stop (Parsed (List Json))}
    {items : List Json} {inner : Bytes} (hdepth : depth < nestingLimit) (hc : 32 < c ∧ c ≠ 93)
    (helements : elements (At before (91 :: c :: rest) (depth + 1)) =
      .ok (some items, At (before ++ 91 :: inner) (93 :: tail) (depth + 1))) :
    parseArray elements (At before (91 :: c :: rest) depth) =
      .ok (some (.array items), At (before ++ 91 :: inner ++ [93]) tail depth) := by
  rw [parseArray, depth_at, if_neg (Nat.not_le.mpr hdepth)]
  simp only [enter_at, readByte_at, ok_bind]
  rw [if_neg (by simp)]
  simp only [advance_at_cons]
  rw [skipWhitespace_at_cons hc.1, peek_at, List.head?_cons]
  simp only [if_neg hc.2, stepBack_at, helements, ok_bind, close_at]
  rfl

theorem parseObject_empty (members : ParseBuffer → Except Stop (Parsed (List (Bytes × Json))))
    (before tail : Bytes) {white : Bytes} (hdepth : depth < nestingLimit)
    (hwhite : ∀ c ∈ white, c ≤ 32) :
    parseObject members (At before (123 :: (white ++ 125 :: tail)) depth) =
      .ok (some (.object []), At (before ++ 123 :: (white ++ [125])) tail depth) := by
  rw [parseObject, depth_at, if_neg (Nat.not_le.mpr hdepth)]
  simp only [enter_at, peek_at, List.head?_cons]
  rw [if_neg (by simp)]
  simp only [advance_at_cons]
  rw [skipWhitespace_at hwhite (by decide), peek_at, List.head?_cons]
  simp only [if_true, close_at, List.append_assoc, List.cons_append, List.nil_append]
  rfl

theorem parseObject_members (members : ParseBuffer → Except Stop (Parsed (List (Bytes × Json))))
    (before : Bytes) (c : UInt8) (rest : Bytes) {items : List (Bytes × Json)}
    {white inner : Bytes} (hdepth : depth < nestingLimit)
    (hwhite : ∀ c ∈ white, c ≤ 32) (hc : 32 < c ∧ c ≠ 125)
    (hmembers : ∀ before' d, before ++ 123 :: white = before' ++ [d] →
      members (At before' (d :: c :: rest) (depth + 1)) =
        .ok (some items, At (before' ++ d :: inner) (125 :: tail) (depth + 1))) :
    parseObject members (At before (123 :: (white ++ c :: rest)) depth) =
      .ok (some (.object items), At (before ++ 123 :: (white ++ inner) ++ [125]) tail depth) := by
  obtain ⟨before', d, hlast⟩ : ∃ before' d, before ++ 123 :: white = before' ++ [d] :=
    ⟨_, _, (List.dropLast_append_getLast (by simp)).symm⟩
  have hwhole : before ++ [123] ++ white = before' ++ [d] := by simpa using hlast
  have hinner : before ++ 123 :: (white ++ inner) = before' ++ d :: inner := by
    rw [← List.cons_append, ← List.append_assoc, hlast, List.append_assoc]
    rfl
  rw [parseObject, depth_at, if_neg (Nat.not_le.mpr hdepth)]
  simp only [enter_at, peek_at, List.head?_cons]
  rw [if_neg (by simp)]
  simp only [advance_at_cons]
  rw [skipWhitespace_at hwhite hc.1, peek_at, List.head?_cons, hwhole]
  simp only [if_neg hc.2, stepBack_at, hmembers before' d hlast, ok_bind, close_at, hinner]
  rfl

end Parse

-- ---------------------------------------------------------------------------
-- The round trip
-- ---------------------------------------------------------------------------

theorem ends_other (h : isNumberByte c = false) (rest : Bytes) : Ends (c :: rest) := ⟨c, rfl, h⟩

/-- White space and what is no part of a number either. -/
theorem ends_white {white : Bytes} (hwhite : ∀ c ∈ white, c ≤ 32)
    (h : isNumberByte c = false) (rest : Bytes) : Ends (white ++ c :: rest) := by
  cases white with
  | nil => exact ends_other h rest
  | cons d white =>
    refine ends_other (Bool.eq_false_iff.mpr fun hd => ?_) _
    exact absurd (hwhite d List.mem_cons_self) (UInt8.not_le.mpr (isNumberByte_bounds hd).1)

theorem tabs_white (format : Bool) (n : Nat) : ∀ c ∈ tabs format n, c ≤ 32 := by
  intro c hc
  unfold tabs at hc
  split at hc
  · rw [List.eq_of_mem_replicate hc]
    decide
  · cases hc

theorem newline_white (format : Bool) : ∀ c ∈ (if format then [10] else [] : Bytes), c ≤ 32 := by
  intro c hc
  cases format with
  | true =>
    rw [List.mem_singleton.mp hc]
    decide
  | false => cases hc

theorem white_append {s t : Bytes} (hs : ∀ c ∈ s, c ≤ 32) (ht : ∀ c ∈ t, c ≤ 32) :
    ∀ c ∈ s ++ t, c ≤ 32 := fun c hc => (List.mem_append.mp hc).elim (hs c) (ht c)

/-- The elements of an array begin with the first one. -/
theorem printElements_opens (hne : items ≠ [])
    (h : printElements format depth items = some text) : Opens text := by
  obtain ⟨item, items, rfl⟩ := List.exists_cons_of_ne_nil hne
  obtain ⟨first, more, hfirst, -, rfl⟩ := printElements_cons.mp h
  obtain ⟨c, rest, rfl, hlow, hhigh, hclose, -⟩ := printValue_opens format depth item hfirst
  exact ⟨c, _, by rw [List.append_assoc, List.cons_append], hlow, hhigh, hclose,
    printElements_legible format depth (item :: items) h⟩

/-- The members of an object begin with the name of the first one, behind the white space. -/
theorem printMembers_opens (hne : members ≠ [])
    (h : printMembers format depth members = some text) :
    ∃ rest, text = tabs format depth ++ 34 :: rest := by
  obtain ⟨⟨name, item⟩, members, rfl⟩ := List.exists_cons_of_ne_nil hne
  obtain ⟨first, more, -, -, rfl⟩ := printMembers_cons.mp h
  simp only [memberText, printString, List.append_assoc, List.cons_append, List.nil_append]
  exact ⟨_, rfl⟩

mutual

theorem parseValue_printed (format : Bool) (depth : Nat) (t : Json) (hp : Printable depth t)
    {text tail : Bytes} (h : printValue format depth t = some text) (htail : Ends tail) {fuel : Nat}
    (hfuel : 2 * text.length ≤ fuel) (before : Bytes) :
    parseValue fuel (At before (text ++ tail) depth) =
      .ok (some (reread t), At (before ++ text) tail depth) := by
  obtain ⟨fuel, rfl⟩ : ∃ n, fuel = n + 1 := by
    obtain ⟨c, rest, rfl, -⟩ := printValue_opens format depth t h
    rw [List.length_cons] at hfuel
    exact Nat.exists_eq_succ_of_ne_zero (by omega)
  match t with
  | .null =>
    obtain rfl := Option.some.inj h
    exact parseValue_literal.1
  | .bool false =>
    obtain rfl := Option.some.inj h
    exact parseValue_literal.2.1
  | .bool true =>
    obtain rfl := Option.some.inj h
    exact parseValue_literal.2.2
  | .number d =>
    rw [printValue, printNumber_ordinary hp] at h
    obtain rfl := Option.some.inj h
    exact parseValue_number (numeric_numberText d) htail (strtod_numberText hp)
  | .string s =>
    obtain rfl := Option.some.inj h
    exact parseValue_string s
  | .array items =>
    obtain ⟨hdepth, hitems⟩ := hp
    rw [printValue, if_neg (Nat.not_le.mpr hdepth), Option.map_eq_some_iff] at h
    obtain ⟨inner, hinner, rfl⟩ := h
    rcases eq_or_ne items [] with rfl | hne
    · obtain rfl := Option.some.inj hinner
      exact (parseValue_at (by decide)).trans (parseArray_empty hdepth)
    · have hlength : 2 * inner.length + 1 ≤ fuel := by
        simp only [List.length_append, List.length_singleton] at hfuel
        omega
      have helements := parseElements_printed format (depth + 1) items hne hitems hinner
        (List.forall_mem_nil _) hlength before tail 91
      obtain ⟨c, rest, rfl, hlow, -, hclose, -⟩ := printElements_opens hne hinner
      have harray := parseArray_items hdepth ⟨hlow, hclose⟩ helements
      simp only [List.append_assoc, List.cons_append, List.nil_append] at harray ⊢
      rw [parseValue_at (by decide)]
      exact harray
  | .object members =>
    obtain ⟨hdepth, hmembers⟩ := hp
    rw [printValue, if_neg (Nat.not_le.mpr hdepth), Option.map_eq_some_iff] at h
    obtain ⟨inner, hinner, rfl⟩ := h
    have hnewline := newline_white format
    have htabs := tabs_white format depth
    rcases eq_or_ne members [] with rfl | hne
    · obtain rfl := Option.some.inj hinner
      have hobject := parseObject_empty (parseMembers fuel) before tail hdepth
        (white_append hnewline htabs)
      simp only [List.append_assoc, List.cons_append, List.nil_append] at hobject ⊢
      rw [parseValue_at (by decide)]
      exact hobject
    · obtain ⟨rest, rfl⟩ := printMembers_opens hne hinner
      have hlength : 2 * (34 :: rest).length + 1 ≤ fuel := by
        simp only [List.length_append, List.length_singleton] at hfuel
        omega
      have hobject := parseObject_members (parseMembers fuel) before 34
        (rest ++ (tabs format depth ++ 125 :: tail)) hdepth
        (white_append hnewline (tabs_white format (depth + 1))) (by decide)
        fun before' d _ => parseMembers_printed format (depth + 1) members hne hmembers hinner
          (List.forall_mem_nil _) htabs hlength before' tail d
      simp only [List.append_assoc, List.cons_append, List.nil_append] at hobject ⊢
      rw [parseValue_at (by decide)]
      exact hobject

theorem parseElements_printed (format : Bool) (depth : Nat) (items : List Json) (hne : items ≠ [])
    (hp : PrintableElements depth items) {text : Bytes}
    (h : printElements format depth items = some text) {white : Bytes}
    (hwhite : ∀ c ∈ white, c ≤ 32) {fuel : Nat} (hfuel : 2 * text.length + 1 ≤ fuel)
    (before tail : Bytes) (c : UInt8) :
    parseElements fuel (At before (c :: (white ++ (text ++ 93 :: tail))) depth) =
      .ok (some (rereadElements items),
        At (before ++ c :: (white ++ text)) (93 :: tail) depth) := by
  match items with
  | [] => exact absurd rfl hne
  | item :: items =>
    obtain ⟨hitem, hitems⟩ := hp
    obtain ⟨text, more, htext, hmore, rfl⟩ := printElements_cons.mp h
    obtain ⟨fuel, rfl⟩ := Nat.exists_eq_succ_of_ne_zero (Nat.ne_of_gt (Nat.zero_lt_of_lt hfuel))
    simp only [List.length_append] at hfuel
    have hopens := printValue_opens format depth item htext
    have hvalue (next : UInt8) (rest : Bytes) (hnext : isNumberByte next = false) :=
      parseValue_printed format depth item hitem htext (ends_other hnext rest)
        (by omega : 2 * text.length ≤ fuel) (before ++ c :: white)
    rcases eq_or_ne items [] with rfl | hrest
    · obtain rfl := Option.some.inj hmore
      simp only [List.isEmpty_nil, if_true, List.append_nil]
      rw [parseElements_step hwhite hopens (by decide) (hvalue 93 tail rfl), if_neg (by decide),
        if_pos rfl]
      simp only [List.append_assoc, List.cons_append]
      rfl
    · have hempty : items.isEmpty = false := by simpa using hrest
      obtain ⟨gap, hgap, hsep⟩ : ∃ gap : Bytes, (∀ c ∈ gap, c ≤ 32) ∧
          (if items.isEmpty then [] else if format then [44, 32] else [44]) = 44 :: gap := by
        rw [hempty]
        cases format
        · exact ⟨[], by simp, rfl⟩
        · exact ⟨[32], by simp, rfl⟩
      rw [hsep] at hfuel ⊢
      simp only [List.length_cons] at hfuel
      have hnext := parseElements_printed format depth items hrest hitems hmore hgap
        (by omega : 2 * more.length + 1 ≤ fuel) (before ++ c :: white ++ text) tail 44
      simp only [List.append_assoc, List.cons_append] at hnext ⊢
      rw [parseElements_step hwhite hopens (by decide) (hvalue 44 _ rfl), if_pos rfl]
      simp only [List.append_assoc, List.cons_append]
      rw [hnext]
      rfl

theorem parseMembers_printed (format : Bool) (depth : Nat) (members : List (Bytes × Json))
    (hne : members ≠ []) (hp : PrintableMembers depth members) {body : Bytes}
    (h : printMembers format depth members = some (tabs format depth ++ body))
    {white closing : Bytes} (hwhite : ∀ c ∈ white, c ≤ 32) (hclosing : ∀ c ∈ closing, c ≤ 32)
    {fuel : Nat} (hfuel : 2 * body.length + 1 ≤ fuel) (before tail : Bytes) (c : UInt8) :
    parseMembers fuel (At before (c :: (white ++ (body ++ (closing ++ 125 :: tail)))) depth) =
      .ok (some (rereadMembers members),
        At (before ++ c :: (white ++ (body ++ closing))) (125 :: tail) depth) := by
  match members with
  | [] => exact absurd rfl hne
  | (name, item) :: members =>
    obtain ⟨hitem, hmembers⟩ := hp
    obtain ⟨text, more, htext, hmore, hbody⟩ := printMembers_cons.mp h
    rw [List.append_assoc, List.append_cancel_left_eq] at hbody
    subst hbody
    obtain ⟨fuel, rfl⟩ := Nat.exists_eq_succ_of_ne_zero (Nat.ne_of_gt (Nat.zero_lt_of_lt hfuel))
    obtain ⟨gap, hgap, hcolon⟩ : ∃ gap : Bytes, (∀ c ∈ gap, c ≤ 32) ∧
        (if format then [58, 9] else [58]) = 58 :: gap := by
      cases format
      · exact ⟨[], by simp, rfl⟩
      · exact ⟨[9], by simp, rfl⟩
    have hnewline := newline_white format
    rw [memberText, hcolon] at hfuel ⊢
    simp only [List.length_append, List.length_cons] at hfuel
    have hopens := printValue_opens format depth item htext
    have hvalue (after : Bytes) (hafter : ∀ c ∈ after, c ≤ 32) (next : UInt8) (rest : Bytes)
        (hnext : isNumberByte next = false) (before' : Bytes) :=
      parseValue_printed format depth item hitem htext (ends_white hafter hnext rest)
        (by omega : 2 * text.length ≤ fuel) before'
    rcases eq_or_ne members [] with rfl | hrest
    · obtain rfl := Option.some.inj hmore
      have hafter := white_append hnewline hclosing
      have hstep := parseMembers_step before c name tail hwhite hgap
        hafter hopens (by decide) (hvalue _ hafter 125 tail rfl)
      simp only [List.isEmpty_nil, if_true, List.append_nil, List.append_assoc,
        List.cons_append] at hstep ⊢
      rw [hstep, if_neg (by decide)]
      rfl
    · have hempty : members.isEmpty = false := by simpa using hrest
      obtain ⟨body, rfl⟩ := printMembers_opens hrest hmore
      have hwhite' := white_append hnewline (tabs_white format depth)
      have hlength : 2 * (34 :: body).length + 1 ≤ fuel := by
        simp only [hempty, Bool.false_eq_true, if_false, List.length_cons, List.length_nil,
          List.length_append] at hfuel ⊢
        omega
      have hnext (before' : Bytes) := parseMembers_printed format depth members hrest hmembers
        hmore hwhite' hclosing hlength before' tail 44
      have hstep (rest : Bytes) := parseMembers_step before c name rest
        hwhite hgap (List.forall_mem_nil _) hopens (by decide)
        (hvalue [] (List.forall_mem_nil _) 44 rest rfl)
      simp only [hempty, Bool.false_eq_true, if_false, if_true, List.append_assoc,
        List.cons_append, List.nil_append, List.append_nil] at hstep hnext ⊢
      rw [hstep, hnext]
      simp only [ok_bind, List.append_assoc, List.cons_append]
      rfl

end

-- ---------------------------------------------------------------------------
-- There and back
-- ---------------------------------------------------------------------------

mutual

/-- What was read is printed as it was. -/
theorem printValue_reread (format : Bool) (depth : Nat) (t : Json) (h : Printable depth t) :
    printValue format depth (reread t) = printValue format depth t := by
  match t with
  | .null => rfl
  | .bool b => rfl
  | .number d =>
    rw [reread, printValue, printValue, printNumber, printNumber, numberText_rereadNumber h]
  | .string s =>
    rw [reread, printValue, printValue, printString, printString, cstr_legible (legible_cstr s)]
  | .array items =>
    rw [reread, printValue, printValue, printElements_reread format (depth + 1) items h.2]
  | .object members =>
    rw [reread, printValue, printValue, printMembers_reread format (depth + 1) members h.2]

theorem printElements_reread (format : Bool) (depth : Nat) (items : List Json)
    (h : PrintableElements depth items) :
    printElements format depth (rereadElements items) = printElements format depth items := by
  match items with
  | [] => rfl
  | item :: items =>
    have hempty : (rereadElements items).isEmpty = items.isEmpty := by cases items <;> rfl
    rw [rereadElements, printElements, printElements, printValue_reread format depth item h.1,
      printElements_reread format depth items h.2, hempty]

theorem printMembers_reread (format : Bool) (depth : Nat) (members : List (Bytes × Json))
    (h : PrintableMembers depth members) :
    printMembers format depth (rereadMembers members) = printMembers format depth members := by
  match members with
  | [] => rfl
  | (name, item) :: members =>
    have hempty : (rereadMembers members).isEmpty = members.isEmpty := by
      cases members with
      | nil => rfl
      | cons member members => rfl
    have hname : printString (cstr name) = printString name := by
      rw [printString, printString, cstr_legible (legible_cstr name)]
    rw [rereadMembers, printMembers, printMembers, printValue_reread format depth item h.1,
      printMembers_reread format depth members h.2, hempty, hname]

end

theorem parse_opens {text : Bytes} (h : Opens text) {b : ParseBuffer} {x : Option Json}
    (hvalue : parseValue (2 * (text.length + 1) + 2) (At [] (text ++ [0]) 0) = .ok (x, b)) :
    parse text = .ok x := by
  obtain ⟨c, rest, rfl, hlow, hhigh, -, hzero⟩ := h
  have hbom : ¬((ParseBuffer.mk (c :: rest ++ [0]) 0 0).canAccessAtIndex 4 = true ∧
      (ParseBuffer.mk (c :: rest ++ [0]) 0 0).rest.take 3 = [0xEF, 0xBB, 0xBF]) := by
    rintro ⟨-, htake⟩
    obtain rfl : c = 0xEF := (List.cons.inj htake).1
    exact absurd hhigh (by decide)
  have hstart : (ParseBuffer.mk (c :: rest ++ [0]) 0 0).skipUtf8Bom.skipWhitespace =
      At [] (c :: rest ++ [0]) 0 := by
    have hskip : (At [] (c :: (rest ++ [0])) 0).skipWhitespace = At [] (c :: (rest ++ [0])) 0 :=
      skipWhitespace_at_cons hlow
    rw [ParseBuffer.skipUtf8Bom, if_neg hbom]
    exact hskip
  rw [parse, cstr_legible hzero, parseWithLength, if_neg (by simp), hstart]
  simp only [List.length_append, List.length_singleton]
  rw [hvalue]
  rfl

/-- A tree that can be printed is printed, with and without format, and parsed from its text. -/
theorem parse_printed (format : Bool) {t : Json} (h : Printable 0 t) :
    ∃ text, printValue format 0 t = some text ∧ parse text = .ok (some (reread t)) := by
  obtain ⟨text, htext⟩ := printValue_some format 0 t h
  refine ⟨text, htext, ?_⟩
  apply parse_opens (printValue_opens format 0 t htext)
  exact parseValue_printed format 0 t h htext (ends_other (by decide) []) (by omega) []

end JsonText

end LibEmbedding
