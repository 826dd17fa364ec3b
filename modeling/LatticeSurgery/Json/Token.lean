import LatticeSurgery.Json.Quoted

/-! # JSON tokens

Splitting a text into punctuation, strings and words. Strings and numerals are kept as they are
written; only their form is checked here.
-/

namespace LatticeSurgery

/-- A token of JSON text. -/
inductive Token where
  | openArray
  | closeArray
  | openObject
  | closeObject
  | comma
  | colon
  | null
  | bool (value : Bool)
  | number (literal : List Char)
  | string (raw : List Char)
  deriving Repr, DecidableEq

/-! ## Numerals -/

namespace Numeral

/-- One digit or more. -/
def isDigits (cs : List Char) : Bool := !cs.isEmpty && cs.all Char.isDigit

/-- Nothing, or an exponent. -/
def isExponent : List Char → Bool
  | [] => true
  | e :: '+' :: digits | e :: '-' :: digits => (e = 'e' || e = 'E') && isDigits digits
  | e :: digits => (e = 'e' || e = 'E') && isDigits digits

/-- What may follow the whole part. -/
def isTail : List Char → Bool
  | '.' :: digit :: rest => digit.isDigit && isExponent (rest.dropWhile Char.isDigit)
  | rest => isExponent rest

/-- A numeral without sign; the whole part has no leading zero. -/
def isUnsigned : List Char → Bool
  | '0' :: rest => isTail rest
  | digit :: rest => digit.isDigit && isTail (rest.dropWhile Char.isDigit)
  | [] => false

/-- A JSON numeral. -/
def isNumeral : List Char → Bool
  | '-' :: rest => isUnsigned rest
  | cs => isUnsigned cs

end Numeral

/-! ## Tokens -/

namespace Token

/-- The white space of JSON. -/
def isBlank (c : Char) : Bool := c = ' ' || c = '\t' || c = '\n' || c = '\r'

/-- Characters that numerals and names are made of. -/
def isWordChar (c : Char) : Bool := c.isAlphanum || c = '+' || c = '-' || c = '.'

/-- Token of a single character. -/
def ofMark? : Char → Option Token
  | '[' => some openArray
  | ']' => some closeArray
  | '{' => some openObject
  | '}' => some closeObject
  | ',' => some comma
  | ':' => some colon
  | _ => none

/-- Token of a word: one of the three names, or a numeral. -/
def ofWord? (word : List Char) : Option Token :=
  if word = "null".toList then some null
  else if word = "true".toList then some (bool true)
  else if word = "false".toList then some (bool false)
  else if Numeral.isNumeral word then some (number word)
  else none

/-- Splits off the inside of a string at the quote that ends it. -/
def splitQuoted : List Char → Option (List Char × List Char)
  | [] => none
  | '"' :: rest => some ([], rest)
  | '\\' :: c :: rest => (splitQuoted rest).map fun (raw, rest) => ('\\' :: c :: raw, rest)
  | c :: rest => (splitQuoted rest).map fun (raw, rest) => (c :: raw, rest)

theorem length_of_splitQuoted {cs raw rest : List Char} (h : splitQuoted cs = some (raw, rest)) :
    rest.length < cs.length := by
  fun_induction splitQuoted cs generalizing raw rest with
  | case1 => simp at h
  | case2 => simp_all
  | case3 c cs ih | case4 c cs _ _ ih =>
      simp only [Option.map_eq_some_iff, Prod.mk.injEq, Prod.exists] at h
      obtain ⟨_, _, inner, _, rfl⟩ := h
      have := ih inner
      simp only [List.length_cons]
      omega

/-- Splits a text into tokens. -/
def scan (cs : List Char) : Option (List Token) :=
  match cs with
  | [] => some []
  | c :: cs =>
      if isBlank c then scan cs
      else if c = '"' then
        match _h : splitQuoted cs with
        | some (raw, rest) =>
            if (Quoted.units? raw).isSome then (scan rest).map (string raw :: ·) else none
        | none => none
      else
        match ofMark? c with
        | some token => (scan cs).map (token :: ·)
        | none => do
            let token ← ofWord? (c :: cs.takeWhile isWordChar)
            let tokens ← scan (cs.dropWhile isWordChar)
            return token :: tokens
termination_by cs.length
decreasing_by
  · simp
  · have := length_of_splitQuoted _h
    simp only [List.length_cons]
    omega
  · simp
  · have := (List.dropWhile_sublist (l := cs) isWordChar).length_le
    simp only [List.length_cons]
    omega

end Token

end LatticeSurgery
