import LibEmbedding.Cjson
import LibEmbedding.Foundation.Buffer
import LibEmbedding.Foundation.Doubles

/-!
# cJSON texts

`cJSON_ParseWithLength`, `cJSON_Parse` and `cJSON_Print` of the vendored `cJSON.c`, on the bytes
they read and write. A read behind `can_access_at_index` is one of `content[i]?`; a read that the
code makes without looking is checked here, and so is every write. Allocation succeeds.
-/

namespace LibEmbedding

open Foundation

namespace JsonText

/-- `CJSON_NESTING_LIMIT` -/
def nestingLimit : Nat := 1000

-- ---------------------------------------------------------------------------
-- The parse buffer
-- ---------------------------------------------------------------------------

structure ParseBuffer where
  content : Bytes
  offset : Nat
  depth : Nat
  deriving DecidableEq

/-- A parse goes wrong, or has not come to its end. -/
inductive Stop
  | fault (fault : Fault)
  | fuel
  deriving DecidableEq

/-- The item, or a failure, and the buffer after it. -/
abbrev Parsed (α : Type) := Option α × ParseBuffer

/-- A read without a check. -/
def readByte (content : Bytes) (i : Nat) : Except Stop UInt8 :=
  match content[i]? with
  | some c => .ok c
  | none => .error (.fault .outOfBounds)

namespace ParseBuffer

def length (b : ParseBuffer) : Nat := b.content.length

def canAccessAtIndex (b : ParseBuffer) (index : Nat) : Bool := b.offset + index < b.length

/-- `can_access_at_index(buffer, 0)` and the byte there. -/
def peek (b : ParseBuffer) : Option UInt8 := b.content[b.offset]?

/-- What is left to read. -/
def rest (b : ParseBuffer) : Bytes := b.content.drop b.offset

def advance (b : ParseBuffer) (n : Nat) : ParseBuffer := { b with offset := b.offset + n }

def stepBack (b : ParseBuffer) : ParseBuffer := { b with offset := b.offset - 1 }

/-- `can_read` and `strncmp`. -/
def startsWith (b : ParseBuffer) (literal : Bytes) : Bool :=
  b.offset + literal.length ≤ b.length ∧ b.rest.take literal.length = literal

/-- `buffer_skip_whitespace` -/
def skipWhitespace (b : ParseBuffer) : ParseBuffer :=
  if b.canAccessAtIndex 0 then
    let b := b.advance (b.rest.takeWhile (· ≤ 32)).length
    if b.offset = b.length then b.stepBack else b
  else b

/-- `skip_utf8_bom`, at the beginning. -/
def skipUtf8Bom (b : ParseBuffer) : ParseBuffer :=
  if b.canAccessAtIndex 4 ∧ b.rest.take 3 = [0xEF, 0xBB, 0xBF] then b.advance 3 else b

end ParseBuffer

-- ---------------------------------------------------------------------------
-- Numbers
-- ---------------------------------------------------------------------------

def isNumberByte (c : UInt8) : Bool :=
  isDigit c || c = 43 || c = 45 || c = 101 || c = 69 || c = 46

def parseNumber (b : ParseBuffer) : Option Json × ParseBuffer :=
  let (number, taken) := strtod (b.rest.takeWhile isNumberByte)
  if taken = 0 then (none, b) else (some (.number number), b.advance taken)

-- ---------------------------------------------------------------------------
-- Strings
-- ---------------------------------------------------------------------------

def hexValue (c : UInt8) : Option Nat :=
  if 48 ≤ c ∧ c ≤ 57 then some (c.toNat - 48)
  else if 65 ≤ c ∧ c ≤ 70 then some (10 + c.toNat - 65)
  else if 97 ≤ c ∧ c ≤ 102 then some (10 + c.toNat - 97)
  else none

/-- `parse_hex4` and its loop. What is no digit makes it 0. -/
def parseHex (content : Bytes) : Nat → Nat → Nat → Except Stop Nat
  | 0, _, h => .ok h
  | n + 1, p, h => do
    let c ← readByte content p
    match hexValue c with
    | some d => parseHex content n (p + 1) (h * 16 + d)
    | none => return 0

def parseHex4 (content : Bytes) (p : Nat) : Except Stop Nat := parseHex content 4 p 0

/-- The continuation byte with the lowest six bits. -/
def trailByte (codepoint : Nat) : UInt8 := UInt8.ofNat ((codepoint ||| 0x80) &&& 0xBF)

def leadByte (codepoint mark : Nat) : UInt8 := UInt8.ofNat ((codepoint ||| mark) &&& 0xFF)

/-- The encoding at the end of `utf16_literal_to_utf8`. -/
def encodeUtf8 (codepoint : Nat) : Option Bytes :=
  if codepoint < 0x80 then some [UInt8.ofNat (codepoint &&& 0x7F)]
  else if codepoint < 0x800 then
    some [leadByte (codepoint >>> 6) 0xC0, trailByte codepoint]
  else if codepoint < 0x10000 then
    some [leadByte (codepoint >>> 12) 0xE0, trailByte (codepoint >>> 6), trailByte codepoint]
  else if codepoint ≤ 0x10FFFF then
    some [leadByte (codepoint >>> 18) 0xF0, trailByte (codepoint >>> 12),
      trailByte (codepoint >>> 6), trailByte codepoint]
  else none

/-- `utf16_literal_to_utf8`: how long the literal is, and what it stands for. -/
def utf16LiteralToUtf8 (content : Bytes) (first inputEnd : Nat) :
    Except Stop (Option (Nat × Bytes)) := do
  if inputEnd - first < 6 then return none
  let firstCode ← parseHex4 content (first + 2)
  if 0xDC00 ≤ firstCode ∧ firstCode ≤ 0xDFFF then return none
  if 0xD800 ≤ firstCode ∧ firstCode ≤ 0xDBFF then
    let second := first + 6
    if inputEnd - second < 6 then return none
    let c ← readByte content second
    if c ≠ 92 then return none
    let u ← readByte content (second + 1)
    if u ≠ 117 then return none
    let secondCode ← parseHex4 content (second + 2)
    if secondCode < 0xDC00 ∨ 0xDFFF < secondCode then return none
    let codepoint := 0x10000 + (((firstCode &&& 0x3FF) <<< 10) ||| (secondCode &&& 0x3FF))
    return (encodeUtf8 codepoint).map fun bytes => (12, bytes)
  else return (encodeUtf8 firstCode).map fun bytes => (6, bytes)

/-- The loop that looks for the closing quote, behind the opening one: how many bytes come
before it, and how many of them the loop has skipped. -/
def scanString : Bytes → Option (Nat × Nat)
  | [] => none
  | c :: rest =>
    if c = 34 then some (0, 0)
    else if c = 92 then
      match rest with
      | [] => none
      | _ :: rest => (scanString rest).map fun (n, skipped) => (n + 2, skipped + 1)
    else (scanString rest).map fun (n, skipped) => (n + 1, skipped)

/-- A write into `output`, which has `room` bytes. -/
def push (room : Nat) (output bytes : Bytes) : Except Stop Bytes :=
  if output.length + bytes.length ≤ room then .ok (output ++ bytes)
  else .error (.fault .outOfBounds)

/-- The escapes of one letter. -/
def unescape (c : UInt8) : Option UInt8 :=
  if c = 98 then some 8
  else if c = 102 then some 12
  else if c = 110 then some 10
  else if c = 114 then some 13
  else if c = 116 then some 9
  else if c = 34 ∨ c = 92 ∨ c = 47 then some c
  else none

/-- The loop of `parse_string` through the literal: the output, or where it fails. -/
def decodeString (content : Bytes) (inputEnd room : Nat) :
    Nat → Nat → Bytes → Except Stop (Except Nat Bytes)
  | 0, _, _ => .error .fuel
  | fuel + 1, p, output =>
    if p < inputEnd then do
      let c ← readByte content p
      if c ≠ 92 then
        let output ← push room output [c]
        decodeString content inputEnd room fuel (p + 1) output
      else if inputEnd - p < 1 then return .error p
      else
        let e ← readByte content (p + 1)
        match unescape e with
        | some out =>
          let output ← push room output [out]
          decodeString content inputEnd room fuel (p + 2) output
        | none =>
          if e ≠ 117 then return .error p
          match ← utf16LiteralToUtf8 content p inputEnd with
          | none => return .error p
          | some (sequenceLength, bytes) =>
            let output ← push room output bytes
            decodeString content inputEnd room fuel (p + sequenceLength) output
    else .ok (.ok output)

/-- `parse_string`, which gives what the C string that it has written says. -/
def parseString (b : ParseBuffer) : Except Stop (Parsed Bytes) := do
  let c ← readByte b.content b.offset
  let inputPointer := b.offset + 1
  if c ≠ 34 then return (none, { b with offset := inputPointer })
  match scanString (b.content.drop inputPointer) with
  | none => return (none, { b with offset := inputPointer })
  | some (n, skippedBytes) =>
    let inputEnd := inputPointer + n
    let allocationLength := inputEnd - b.offset - skippedBytes
    let room := allocationLength + 1
    match ← decodeString b.content inputEnd room (n + 1) inputPointer [] with
    | .error p => return (none, { b with offset := p })
    | .ok output =>
      let output ← push room output [0]
      return (some (cstr output), { b with offset := inputEnd + 1 })

-- ---------------------------------------------------------------------------
-- Values
-- ---------------------------------------------------------------------------

/-- The end of an array or an object. -/
def ParseBuffer.close (b : ParseBuffer) : ParseBuffer :=
  { b with depth := b.depth - 1, offset := b.offset + 1 }

/-- `parse_array` around its loop. -/
def parseArray (elements : ParseBuffer → Except Stop (Parsed (List Json))) (b : ParseBuffer) :
    Except Stop (Parsed Json) := do
  if nestingLimit ≤ b.depth then return (none, b)
  let b := { b with depth := b.depth + 1 }
  let c ← readByte b.content b.offset
  if c ≠ 91 then return (none, b)
  let b := (b.advance 1).skipWhitespace
  match b.peek with
  | none => return (none, b.stepBack)
  | some c =>
    if c = 93 then return (some (.array []), b.close)
    match ← elements b.stepBack with
    | (none, b) => return (none, b)
    | (some items, b) => return (some (.array items), b.close)

/-- `parse_object` around its loop. -/
def parseObject (members : ParseBuffer → Except Stop (Parsed (List (Bytes × Json))))
    (b : ParseBuffer) : Except Stop (Parsed Json) := do
  if nestingLimit ≤ b.depth then return (none, b)
  let b := { b with depth := b.depth + 1 }
  if b.peek ≠ some 123 then return (none, b)
  let b := (b.advance 1).skipWhitespace
  match b.peek with
  | none => return (none, b.stepBack)
  | some c =>
    if c = 125 then return (some (.object []), b.close)
    match ← members b.stepBack with
    | (none, b) => return (none, b)
    | (some items, b) => return (some (.object items), b.close)

/-- The name of a member and the colon. -/
def parseName (b : ParseBuffer) : Except Stop (Parsed Bytes) := do
  if !b.canAccessAtIndex 1 then return (none, b)
  match ← parseString (b.advance 1).skipWhitespace with
  | (none, b) => return (none, b)
  | (some name, b) =>
    let b := b.skipWhitespace
    if b.peek ≠ some 58 then return (none, b)
    return (some name, b)

mutual

def parseValue : Nat → ParseBuffer → Except Stop (Parsed Json)
  | 0, _ => .error .fuel
  | fuel + 1, b =>
    if b.startsWith (ascii "null") then .ok (some .null, b.advance 4)
    else if b.startsWith (ascii "false") then .ok (some (.bool false), b.advance 5)
    else if b.startsWith (ascii "true") then .ok (some (.bool true), b.advance 4)
    else match b.peek with
      | none => .ok (none, b)
      | some c =>
        if c = 34 then do
          let (s, b) ← parseString b
          return (s.map .string, b)
        else if c = 45 ∨ isDigit c then .ok (parseNumber b)
        else if c = 91 then parseArray (parseElements fuel) b
        else if c = 123 then parseObject (parseMembers fuel) b
        else .ok (none, b)

/-- The loop of `parse_array`, before the next element. -/
def parseElements : Nat → ParseBuffer → Except Stop (Parsed (List Json))
  | 0, _ => .error .fuel
  | fuel + 1, b => do
    match ← parseValue fuel (b.advance 1).skipWhitespace with
    | (none, b) => return (none, b)
    | (some item, b) =>
      let b := b.skipWhitespace
      if b.peek = some 44 then
        let (items, b) ← parseElements fuel b
        return (items.map (item :: ·), b)
      else if b.peek = some 93 then return (some [item], b)
      else return (none, b)

/-- The loop of `parse_object`, before the next member. -/
def parseMembers : Nat → ParseBuffer → Except Stop (Parsed (List (Bytes × Json)))
  | 0, _ => .error .fuel
  | fuel + 1, b => do
    match ← parseName b with
    | (none, b) => return (none, b)
    | (some name, b) =>
      match ← parseValue fuel (b.advance 1).skipWhitespace with
      | (none, b) => return (none, b)
      | (some item, b) =>
        let b := b.skipWhitespace
        if b.peek = some 44 then
          let (items, b) ← parseMembers fuel b
          return (items.map ((name, item) :: ·), b)
        else if b.peek = some 125 then return (some [(name, item)], b)
        else return (none, b)

end

/-- `cJSON_ParseWithLength` -/
def parseWithLength (value : Bytes) : Except Stop (Option Json) :=
  if value = [] then .ok none
  else (parseValue (2 * value.length + 2) (ParseBuffer.mk value 0 0).skipUtf8Bom.skipWhitespace).map
    Prod.fst

/-- `cJSON_Parse` of a C string, whose end is read too. -/
def parse (value : Bytes) : Except Stop (Option Json) := parseWithLength (cstr value ++ [0])

-- ---------------------------------------------------------------------------
-- Printing
-- ---------------------------------------------------------------------------

/-- `compare_double` -/
def compareDouble (a b : ℚ) : Bool := |a - b| ≤ max |a| |b| / 2 ^ 52

/-- The text of a number before its length is looked at. -/
def numberText (d : ℚ) : Bytes :=
  if d = (Json.number d).valueint.val then showInt (Json.number d).valueint.val
  else
    let text := showGeneral 15 d
    if compareDouble (strtod text).1 d then text else showGeneral 17 d

/-- `print_number` -/
def printNumber (d : ℚ) : Option Bytes :=
  if (numberText d).length ≤ 25 then some (numberText d) else none

/-- A digit of `%x`. -/
def hexDigit (n : Nat) : UInt8 := if n < 10 then 48 + UInt8.ofNat n else 87 + UInt8.ofNat n

/-- A byte in `print_string_ptr`. -/
def escapeByte (c : UInt8) : Bytes :=
  if 31 < c ∧ c ≠ 34 ∧ c ≠ 92 then [c]
  else if c = 92 then [92, 92]
  else if c = 34 then [92, 34]
  else if c = 8 then [92, 98]
  else if c = 12 then [92, 102]
  else if c = 10 then [92, 110]
  else if c = 13 then [92, 114]
  else if c = 9 then [92, 116]
  else [92, 117, 48, 48, hexDigit (c.toNat / 16), hexDigit (c.toNat % 16)]

/-- `print_string_ptr` -/
def printString (s : Bytes) : Bytes := [34] ++ (cstr s).flatMap escapeByte ++ [34]

def tabs (format : Bool) (n : Nat) : Bytes := if format then List.replicate n 9 else []

mutual

/-- `print_value` at a depth. -/
def printValue (format : Bool) (depth : Nat) : Json → Option Bytes
  | .null => some (ascii "null")
  | .bool false => some (ascii "false")
  | .bool true => some (ascii "true")
  | .number d => printNumber d
  | .string s => some (printString s)
  | .array items =>
    if nestingLimit ≤ depth then none
    else (printElements format (depth + 1) items).map fun text => [91] ++ text ++ [93]
  | .object members =>
    if nestingLimit ≤ depth then none
    else (printMembers format (depth + 1) members).map fun text =>
      [123] ++ (if format then [10] else []) ++ text ++ tabs format depth ++ [125]

/-- The loop of `print_array`. -/
def printElements (format : Bool) (depth : Nat) : List Json → Option Bytes
  | [] => some []
  | item :: items => do
    let text ← printValue format depth item
    let more ← printElements format depth items
    return text ++ (if items.isEmpty then [] else if format then [44, 32] else [44]) ++ more

/-- The loop of `print_object`. -/
def printMembers (format : Bool) (depth : Nat) : List (Bytes × Json) → Option Bytes
  | [] => some []
  | (name, item) :: members => do
    let text ← printValue format depth item
    let more ← printMembers format depth members
    return tabs format depth ++ printString name ++ (if format then [58, 9] else [58]) ++ text ++
      (if members.isEmpty then [] else [44]) ++ (if format then [10] else []) ++ more

end

/-- `cJSON_Print` -/
def print (item : Json) : Option Bytes := printValue true 0 item

end JsonText

end LibEmbedding
