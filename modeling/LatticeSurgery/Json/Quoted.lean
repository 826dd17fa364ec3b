/-! # Quoted text

The inside of a JSON string. Writing escapes the quote, the backslash and the control characters;
reading goes through UTF-16 code units, so that an escaped pair of surrogates is one character and a
surrogate without its partner is none.
-/

namespace LatticeSurgery.Quoted

/-- Value of a hexadecimal digit. -/
def hexValue? (c : Char) : Option Nat :=
  if '0' ≤ c ∧ c ≤ '9' then some (c.toNat - '0'.toNat)
  else if 'a' ≤ c ∧ c ≤ 'f' then some (c.toNat - 'a'.toNat + 10)
  else if 'A' ≤ c ∧ c ≤ 'F' then some (c.toNat - 'A'.toNat + 10)
  else none

/-- Number written with four hexadecimal digits. -/
def hex4? (a b c d : Char) : Option Nat := do
  let a ← hexValue? a
  let b ← hexValue? b
  let c ← hexValue? c
  let d ← hexValue? d
  return ((a * 16 + b) * 16 + c) * 16 + d

/-- Character that follows the backslash in a short escape, and what it stands for. -/
def shortEscapes : List (Char × Char) :=
  [('"', '"'), ('\\', '\\'), ('/', '/'), ('b', '\x08'), ('f', '\x0c'), ('n', '\n'), ('r', '\r'),
    ('t', '\t')]

/-- Code units of escaped text; refuses unknown escapes, bare quotes and control characters. -/
def units? : List Char → Option (List Nat)
  | [] => some []
  | '\\' :: 'u' :: a :: b :: c :: d :: rest => do
      let unit ← hex4? a b c d
      let units ← units? rest
      return unit :: units
  | '\\' :: c :: rest => do
      let meant ← shortEscapes.lookup c
      let units ← units? rest
      return meant.toNat :: units
  | c :: rest =>
      if c = '\\' ∨ c = '"' ∨ c.toNat < 0x20 then none
      else do
        let units ← units? rest
        return c.toNat :: units

/-- Characters written by code units; refuses a surrogate without its partner. -/
def ofUnits? : List Nat → Option (List Char)
  | [] => some []
  | high :: low :: rest =>
      if 0xd800 ≤ high ∧ high < 0xdc00 then
        if 0xdc00 ≤ low ∧ low < 0xe000 then do
          let chars ← ofUnits? rest
          return Char.ofNat (0x10000 + (high - 0xd800) * 0x400 + (low - 0xdc00)) :: chars
        else none
      else if 0xdc00 ≤ high ∧ high < 0xe000 then none
      else do
        let chars ← ofUnits? (low :: rest)
        return Char.ofNat high :: chars
  | [unit] => if 0xd800 ≤ unit ∧ unit < 0xe000 then none else some [Char.ofNat unit]

/-- Text that an escaped form stands for. -/
def decode? (raw : List Char) : Option String := do
  let units ← units? raw
  let chars ← ofUnits? units
  return String.ofList chars

/-- Written form of one character. -/
def encodeChar (c : Char) : List Char :=
  if c = '"' then ['\\', '"']
  else if c = '\\' then ['\\', '\\']
  else if c = '\x08' then ['\\', 'b']
  else if c = '\t' then ['\\', 't']
  else if c = '\n' then ['\\', 'n']
  else if c = '\x0c' then ['\\', 'f']
  else if c = '\r' then ['\\', 'r']
  else if c.toNat < 0x20 then
    ['\\', 'u', '0', '0', Nat.digitChar (c.toNat / 16), Nat.digitChar (c.toNat % 16)]
  else [c]

/-- Escaped form of a text. -/
def encode (text : String) : List Char := text.toList.flatMap encodeChar

end LatticeSurgery.Quoted
