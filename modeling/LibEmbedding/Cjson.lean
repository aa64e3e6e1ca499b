import LibEmbedding.Types
import Mathlib.Data.Rat.Defs

/-!
# The cJSON tree

The part of the vendored `cJSON.c` the library reads and writes documents with.
An object is a list of named children that may repeat a name: adding appends,
looking up takes the first child whose name matches regardless of case.
-/

namespace LibEmbedding

open Foundation

/-- `tolower` in the C locale. -/
def toLower (c : UInt8) : UInt8 := if 65 ≤ c ∧ c ≤ 90 then c + 32 else c

inductive Json where
  | null
  | bool (b : Bool)
  | number (valuedouble : ℚ)
  | string (valuestring : Bytes)
  | array (items : List Json)
  | object (members : List (Bytes × Json))

namespace Json

/-- The child list of a node; array elements have no name. -/
def children : Json → List (Option Bytes × Json)
  | .array items => items.map (none, ·)
  | .object members => members.map fun m => (some m.1, m.2)
  | _ => []

def sameName (name : Bytes) (child : Option Bytes × Json) : Bool :=
  child.1.any fun s => s.map toLower = name.map toLower

def getObjectItem (object : Option Json) (name : Bytes) : Option Json :=
  object.bind fun o => (o.children.find? (sameName name)).map Prod.snd

def getArraySize (array : Option Json) : Nat := (array.elim [] children).length

def getArrayItem (array : Option Json) (index : Nat) : Option Json :=
  array.bind fun a => a.children[index]?.map Prod.snd

/-- `valueint`: set from numbers by truncation that saturates, 1 in `true`. -/
def valueint : Json → CInt
  | .number d => clamp (d.num.tdiv d.den)
  | .bool true => clamp 1
  | _ => clamp 0

def valuedouble : Json → ℚ
  | .number d => d
  | _ => 0

def valuestring : Json → Option Bytes
  | .string s => some s
  | _ => none

def isObject : Json → Bool
  | .object _ => true
  | _ => false

def addItemToArray (item : Json) : Json → Json
  | .array items => .array (items ++ [item])
  | .object members => .object (members ++ [([], item)])
  | other => other

def addItemToObject (name : Bytes) (item : Json) : Json → Json
  | .object members => .object (members ++ [(name, item)])
  | .array items => .array (items ++ [item])
  | other => other

@[simp] theorem valueint_number (x : CInt) : valueint (.number (x.val : ℚ)) = x := by
  simp [valueint]

@[simp] theorem valuedouble_number (d : ℚ) : valuedouble (.number d) = d := rfl

@[simp] theorem getObjectItem_none (name : Bytes) : getObjectItem none name = none := rfl

theorem getObjectItem_object (members : List (Bytes × Json)) (name : Bytes) :
    getObjectItem (some (.object members)) name =
      (members.find? fun m => m.1.map toLower = name.map toLower).map Prod.snd := by
  simp only [getObjectItem, Option.bind_some, children, List.find?_map, Option.map_map]
  rfl

end Json

/-- Printing and parsing over a type of texts. Parsing what was printed gives
the tree back, and a printed text is not empty. -/
structure Cjson (Text : Type) where
  print : Json → Text
  parse : Text → Option Json
  empty : Text → Bool
  parse_print : ∀ tree, parse (print tree) = some tree
  print_nonempty : ∀ tree, empty (print tree) = false

/-- Texts that are the trees themselves; `none` is the empty text. -/
def treeCodec : Cjson (Option Json) where
  print := some
  parse text := text
  empty := Option.isNone
  parse_print _ := rfl
  print_nonempty _ := rfl

end LibEmbedding
