import LatticeSurgery.Error
import LatticeSurgery.Json.Token

/-! # JSON values

A value keeps its numerals and strings as they are written, and its members in order, repeated keys
included; what they mean is up to the reader of a particular type. Reading goes token by token with
the containers begun so far on a stack, so that nesting has no limit.
-/

namespace LatticeSurgery

/-- A JSON value. -/
inductive Json where
  | null
  | bool (value : Bool)
  | number (literal : List Char)
  | string (raw : List Char)
  | array (items : List Json)
  | object (members : List (List Char × Json))
  deriving Repr

namespace Json

/-! ## Reading -/

/-- A container that is not complete yet. -/
inductive Frame where
  /-- An array, by the items before the current one. -/
  | array (items : List Json)
  /-- An object, by the members before the current one and the key of the current one. -/
  | object (members : List (List Char × Json)) (key : List Char)
  deriving Repr

/-- What may come next. -/
inductive Reading where
  /-- A value. -/
  | value (stack : List Frame)
  /-- An item, or the end of an array just begun. -/
  | firstItem (stack : List Frame)
  /-- A key, or the end of an object just begun. -/
  | firstKey (stack : List Frame)
  /-- A key after a comma. -/
  | key (members : List (List Char × Json)) (stack : List Frame)
  /-- The colon after a key. -/
  | colon (members : List (List Char × Json)) (key : List Char) (stack : List Frame)
  /-- A comma or an end, a value being complete. -/
  | complete (value : Json) (stack : List Frame)
  deriving Repr

namespace Reading

/-- Begins a value. -/
def begin (stack : List Frame) : Token → Option Reading
  | .null => some (complete .null stack)
  | .bool b => some (complete (.bool b) stack)
  | .number literal => some (complete (.number literal) stack)
  | .string raw => some (complete (.string raw) stack)
  | .openArray => some (firstItem stack)
  | .openObject => some (firstKey stack)
  | _ => none

/-- Reads one token. -/
def step : Reading → Token → Option Reading
  | value stack, token => begin stack token
  | firstItem stack, .closeArray => some (complete (.array []) stack)
  | firstItem stack, token => begin (.array [] :: stack) token
  | firstKey stack, .closeObject => some (complete (.object []) stack)
  | firstKey stack, .string raw => some (colon [] raw stack)
  | key members stack, .string raw => some (colon members raw stack)
  | colon members raw stack, .colon => some (value (.object members raw :: stack))
  | complete v (.array items :: stack), .comma => some (value (.array (items ++ [v]) :: stack))
  | complete v (.array items :: stack), .closeArray => some (complete (.array (items ++ [v])) stack)
  | complete v (.object members raw :: stack), .comma => some (key (members ++ [(raw, v)]) stack)
  | complete v (.object members raw :: stack), .closeObject =>
      some (complete (.object (members ++ [(raw, v)])) stack)
  | _, _ => none

/-- Reads several tokens. -/
def steps (reading : Reading) : List Token → Option Reading
  | [] => some reading
  | token :: rest => do
      let reading ← reading.step token
      reading.steps rest

end Reading

/-- The value written by a text, if it is JSON. -/
def parse? (text : String) : Option Json := do
  let tokens ← Token.scan text.toList
  match ← (Reading.value []).steps tokens with
  | .complete value [] => some value
  | _ => none

/-! ## Writing -/

/-- How a value is set out. -/
inductive Style where
  /-- On one line without spaces. -/
  | compact
  /-- One item a line, indented by two spaces a level. -/
  | pretty
  deriving Repr, DecidableEq

/-- What stands before an item at some depth, and before the end of a container. -/
def Style.lineBreak (style : Style) (depth : Nat) : List Char :=
  match style with
  | .compact => []
  | .pretty => '\n' :: List.replicate (2 * depth) ' '

/-- What stands between a key and its value. -/
def Style.separator : Style → List Char
  | .compact => [':']
  | .pretty => [':', ' ']

mutual

/-- Text of a value at some depth. -/
def write (style : Style) (depth : Nat) : Json → List Char
  | null => "null".toList
  | bool true => "true".toList
  | bool false => "false".toList
  | number literal => literal
  | string raw => '"' :: raw ++ ['"']
  | array [] => ['[', ']']
  | array (item :: items) =>
      '[' :: style.lineBreak (depth + 1) ++ write style (depth + 1) item
        ++ writeItems style (depth + 1) items ++ style.lineBreak depth ++ [']']
  | object [] => ['{', '}']
  | object ((key, value) :: members) =>
      '{' :: style.lineBreak (depth + 1) ++ ('"' :: key ++ '"' :: style.separator)
        ++ write style (depth + 1) value ++ writeMembers style (depth + 1) members
        ++ style.lineBreak depth ++ ['}']

/-- Text of the items after the first. -/
def writeItems (style : Style) (depth : Nat) : List Json → List Char
  | [] => []
  | item :: items =>
      ',' :: style.lineBreak depth ++ write style depth item ++ writeItems style depth items

/-- Text of the members after the first. -/
def writeMembers (style : Style) (depth : Nat) : List (List Char × Json) → List Char
  | [] => []
  | (key, value) :: members =>
      ',' :: style.lineBreak depth ++ ('"' :: key ++ '"' :: style.separator)
        ++ write style depth value ++ writeMembers style depth members

end

/-- Text of a value. -/
def text (style : Style) (value : Json) : String := String.ofList (value.write style 0)

/-! ## Parts of values -/

/-- A 64-bit number written without sign, fraction, exponent or leading zero. -/
def natural? (literal : List Char) : Option Nat :=
  if literal.isEmpty || !literal.all Char.isDigit || (1 < literal.length && literal.head? = some '0') then none
  else
    let n := Nat.ofDigitChars 10 literal 0
    if n < wordLimit then some n else none

/-- An object whose keys are plain texts. -/
def record (members : List (String × Json)) : Json :=
  object (members.map fun (key, value) => (Quoted.encode key, value))

/-- Members with their keys decoded; refuses a key that is no text. -/
def decodeKeys? : List (List Char × Json) → Option (List (String × Json))
  | [] => some []
  | (raw, value) :: rest => do
      let key ← Quoted.decode? raw
      let members ← decodeKeys? rest
      return (key, value) :: members

/-- Values of the named fields of a record: by key in an object, where other keys are passed over and
    none of these may be repeated, or by position in an array. A field may be missing. -/
def fields? (names : List String) : Json → Option (List (Option Json))
  | array items =>
      if items.length ≤ names.length then
        some (items.map some ++ List.replicate (names.length - items.length) none)
      else none
  | object members => do
      let members ← decodeKeys? members
      if names.any fun name => 1 < members.countP (·.1 = name) then none
      else some (names.map fun name => members.lookup name)
  | _ => none

/-- Name and content of a choice between alternatives: the bare name, or an object with the name as
    its only key. -/
def variant? : Json → Option (String × Option Json)
  | string raw => (Quoted.decode? raw).map fun name => (name, none)
  | object [(raw, content)] => (Quoted.decode? raw).map fun name => (name, some content)
  | _ => none

/-- Name of a choice that has no content. -/
def tag? (value : Json) : Option String := do
  match ← value.variant? with
  | (name, none) | (name, some null) => some name
  | _ => none

end Json

end LatticeSurgery
