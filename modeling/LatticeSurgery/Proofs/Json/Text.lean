import LatticeSurgery.Json.Value

/-! # Written text is read back

The text of a value, in either style, is read as that value. The text splits into the tokens of the value, whatever
comes after it, and the tokens are read as the value, whatever containers are begun.
-/

namespace LatticeSurgery

/-! ## Quoted text -/

namespace Quoted

theorem hexValue?_digitChar : ∀ d < 16, hexValue? (Nat.digitChar d) = some d := by decide

theorem hex4?_control {n : Nat} (small : n < 0x20) :
    hex4? '0' '0' (Nat.digitChar (n / 16)) (Nat.digitChar (n % 16)) = some n := by
  have high := hexValue?_digitChar (n / 16) (by omega)
  have low := hexValue?_digitChar (n % 16) (by omega)
  have zero : hexValue? '0' = some 0 := by decide
  simp only [hex4?, high, low, zero, bind, Option.bind, pure, Option.some.injEq]
  omega

/-- A character is written as a short escape, by its number, or as it is. -/
theorem encodeChar_cases (c : Char) :
    (∃ e, encodeChar c = ['\\', e] ∧ e ≠ 'u' ∧ shortEscapes.lookup e = some c) ∨
      c.toNat < 0x20 ∧
        encodeChar c = ['\\', 'u', '0', '0', Nat.digitChar (c.toNat / 16), Nat.digitChar (c.toNat % 16)] ∨
      encodeChar c = [c] ∧ ¬(c = '\\' ∨ c = '"' ∨ c.toNat < 0x20) := by
  by_cases listed : c ∈ ['"', '\\', '\x08', '\t', '\n', '\x0c', '\r']
  · simp only [List.mem_cons, List.not_mem_nil, or_false] at listed
    rcases listed with rfl | rfl | rfl | rfl | rfl | rfl | rfl
    · exact .inl ⟨'"', by decide⟩
    · exact .inl ⟨'\\', by decide⟩
    · exact .inl ⟨'b', by decide⟩
    · exact .inl ⟨'t', by decide⟩
    · exact .inl ⟨'n', by decide⟩
    · exact .inl ⟨'f', by decide⟩
    · exact .inl ⟨'r', by decide⟩
  · simp only [List.mem_cons, List.not_mem_nil, or_false, not_or] at listed
    by_cases small : c.toNat < 0x20
    · exact .inr (.inl ⟨small, by simp only [encodeChar, listed, if_false, small, if_true]⟩)
    · exact .inr (.inr (by simp only [encodeChar, listed, small, if_false, or_self, not_false_eq_true, and_self]))

theorem units?_encodeChar (c : Char) (rest : List Char) :
    units? (encodeChar c ++ rest) = (units? rest).map (c.toNat :: ·) := by
  rcases encodeChar_cases c with ⟨e, same, other, meant⟩ | ⟨small, same⟩ | ⟨same, plain⟩
  · rw [same]
    show units? ('\\' :: e :: rest) = _
    rw [units?, meant]
    · cases units? rest <;> rfl
    · exact fun _ _ _ _ _ here => absurd here other
  · rw [same]
    show units? ('\\' :: 'u' :: '0' :: '0' :: _ :: _ :: rest) = _
    rw [units?, hex4?_control small]
    cases units? rest <;> rfl
  · rw [same]
    show units? (c :: rest) = _
    rw [units?, if_neg plain]
    · cases units? rest <;> rfl
    all_goals
      intros
      simp_all

theorem units?_encode (text : String) : units? (encode text) = some (text.toList.map Char.toNat) := by
  unfold encode
  induction text.toList with
  | nil => rfl
  | cons c cs ih => rw [List.flatMap_cons, units?_encodeChar, ih]; rfl

/-- No character is a surrogate. -/
theorem ofUnits?_toNat (cs : List Char) : ofUnits? (cs.map Char.toNat) = some cs := by
  have whole : ∀ c : Char, ¬(0xd800 ≤ c.toNat ∧ c.toNat < 0xe000) := by
    intro c
    rcases c.valid with low | ⟨high, -⟩
    · exact fun between => Nat.not_le.mpr low between.1
    · exact fun between => Nat.not_lt.mpr high between.2
  induction cs with
  | nil => rfl
  | cons c cs ih =>
      have alone := whole c
      cases cs with
      | nil => simp [ofUnits?, alone]
      | cons d cs =>
          rw [List.map_cons, List.map_cons, ofUnits?, if_neg (by omega), if_neg (by omega), ← List.map_cons, ih]
          simp

theorem decode?_encode (text : String) : decode? (encode text) = some text := by
  simp [decode?, units?_encode, ofUnits?_toNat]

end Quoted

/-! ## Tokens -/

namespace Token

theorem splitQuoted_escaped (c : Char) (cs : List Char) :
    splitQuoted ('\\' :: c :: cs) = (splitQuoted cs).map fun parts => ('\\' :: c :: parts.1, parts.2) := by
  simp [splitQuoted]

theorem splitQuoted_plain {c : Char} (quote : c ≠ '"') (slash : c ≠ '\\') (cs : List Char) :
    splitQuoted (c :: cs) = (splitQuoted cs).map fun parts => (c :: parts.1, parts.2) := by
  rw [splitQuoted]
  all_goals simp_all

theorem splitQuoted_encode (text : String) (rest : List Char) :
    splitQuoted (Quoted.encode text ++ '"' :: rest) = some (Quoted.encode text, rest) := by
  have digit : ∀ d < 16, Nat.digitChar d ≠ '"' ∧ Nat.digitChar d ≠ '\\' := by decide
  unfold Quoted.encode
  induction text.toList with
  | nil => simp [splitQuoted]
  | cons c cs ih =>
      rw [List.flatMap_cons, List.append_assoc]
      rcases Quoted.encodeChar_cases c with ⟨e, same, -, -⟩ | ⟨small, same⟩ | ⟨same, plain⟩
      · rw [same]
        simp [splitQuoted_escaped, ih]
      · obtain ⟨quote, slash⟩ := digit (c.toNat / 16) (by omega)
        obtain ⟨quote', slash'⟩ := digit (c.toNat % 16) (by omega)
        rw [same]
        simp [splitQuoted_escaped, splitQuoted_plain, quote, slash, quote', slash', ih]
      · rw [not_or, not_or] at plain
        rw [same]
        simp [splitQuoted_plain plain.2.1 plain.1, ih]

/-- Nothing that would go on with a word. -/
def Ends (rest : List Char) : Prop := ∀ c, rest.head? = some c → isWordChar c = false

theorem ends_cons {c : Char} {rest : List Char} : Ends (c :: rest) ↔ isWordChar c = false := by
  simp [Ends]

theorem scan_blank {c : Char} (blank : isBlank c) (cs : List Char) : scan (c :: cs) = scan cs := by
  rw [scan, if_pos blank]

theorem scan_mark {c : Char} {token : Token} (mark : ofMark? c = some token) (cs : List Char) :
    scan (c :: cs) = (scan cs).map (token :: ·) := by
  obtain ⟨solid, other⟩ : isBlank c = false ∧ c ≠ '"' := by
    unfold ofMark? at mark
    split at mark
    case h_7 => cases mark
    all_goals exact ⟨rfl, by decide⟩
  rw [scan, if_neg (by simp [solid]), if_neg other, mark]

theorem scan_string (text : String) (rest : List Char) :
    scan ('"' :: (Quoted.encode text ++ '"' :: rest)) = (scan rest).map (string (Quoted.encode text) :: ·) := by
  rw [scan, if_neg (by decide), if_pos rfl]
  split
  next raw after split =>
      rw [splitQuoted_encode, Option.some.injEq, Prod.mk.injEq] at split
      obtain ⟨rfl, rfl⟩ := split
      rw [if_pos (by simp [Quoted.units?_encode])]
  next split =>
      rw [splitQuoted_encode] at split
      cases split

theorem not_mark_of_isWordChar {c : Char} (h : isWordChar c) : isBlank c = false ∧ c ≠ '"' ∧ ofMark? c = none := by
  have marks : [' ', '\t', '\n', '\r', '"', '[', ']', '\x7b', '\x7d', ',', ':'].all (!isWordChar ·) := by decide
  have other : c ∉ [' ', '\t', '\n', '\r', '"', '[', ']', '\x7b', '\x7d', ',', ':'] := by
    intro member
    have mark := List.all_eq_true.mp marks c member
    simp [h] at mark
  simp only [List.mem_cons, List.not_mem_nil, or_false, not_or] at other
  refine ⟨by simp [isBlank, other], other.2.2.2.2.1, ?_⟩
  unfold ofMark?
  split <;> simp_all

theorem scan_word {c : Char} {word rest : List Char} {token : Token} (chars : (c :: word).all isWordChar)
    (known : ofWord? (c :: word) = some token) (ends : Ends rest) :
    scan (c :: (word ++ rest)) = (scan rest).map (token :: ·) := by
  rw [List.all_eq_true] at chars
  obtain ⟨solid, other, unmarked⟩ := not_mark_of_isWordChar (chars c List.mem_cons_self)
  have stops : rest.takeWhile isWordChar = [] ∧ rest.dropWhile isWordChar = rest := by
    cases rest with
    | nil => exact ⟨rfl, rfl⟩
    | cons d rest =>
        have stop := ends d rfl
        simp [stop]
  have all : ∀ d ∈ word, isWordChar d := fun d member => chars d (List.mem_cons_of_mem _ member)
  rw [scan, if_neg (by simp [solid]), if_neg other, unmarked]
  simp only [List.takeWhile_append_of_pos all, List.dropWhile_append_of_pos all, stops, List.append_nil, known]
  cases scan rest <;> rfl

theorem scan_lineBreak (style : Json.Style) (depth : Nat) (cs : List Char) :
    scan (style.lineBreak depth ++ cs) = scan cs := by
  cases style with
  | compact => rfl
  | pretty =>
      show scan ('\n' :: (List.replicate (2 * depth) ' ' ++ cs)) = _
      rw [scan_blank (by decide)]
      induction 2 * depth with
      | zero => rfl
      | succ n ih =>
          rw [List.replicate_succ, List.cons_append, scan_blank (by decide)]
          exact ih

theorem scan_separator (style : Json.Style) (cs : List Char) :
    scan (style.separator ++ cs) = (scan cs).map (colon :: ·) := by
  cases style with
  | compact => exact scan_mark rfl cs
  | pretty =>
      show scan (':' :: ' ' :: cs) = _
      rw [scan_mark rfl, scan_blank (by decide)]

end Token

/-! ## Numerals -/

namespace Numeral

theorem head_toDigits {n : Nat} (positive : 0 < n) : (Nat.toDigits 10 n).head? ≠ some '0' := by
  induction n using Nat.strongRecOn with
  | ind n ih =>
      rcases Nat.lt_or_ge n 10 with small | large
      · rw [Nat.toDigits_of_lt_base small]
        simp
        omega
      · rw [Nat.toDigits_of_base_le (by decide) large, List.head?_append]
        have first := ih (n / 10) (by omega) (by omega)
        cases found : (Nat.toDigits 10 (n / 10)).head? with
        | none => exact absurd (List.head?_eq_none_iff.mp found) Nat.toDigits_ne_nil
        | some c => simpa [found] using first

theorem isDigit_of_mem_toDigits {n : Nat} {c : Char} (member : c ∈ Nat.toDigits 10 n) : c.isDigit :=
  Nat.isDigit_of_mem_toDigits (by decide) (by decide) member

theorem isNumeral_toDigits (n : Nat) : isNumeral (Nat.toDigits 10 n) := by
  rcases Nat.eq_zero_or_pos n with rfl | positive
  · decide
  · have lead := head_toDigits positive
    have digits := @isDigit_of_mem_toDigits n
    cases found : Nat.toDigits 10 n with
    | nil => exact absurd found Nat.toDigits_ne_nil
    | cons c cs =>
        rw [found] at lead digits
        have first := digits List.mem_cons_self
        have zero : c ≠ '0' := by simpa using lead
        have sign : c ≠ '-' := by
          rintro rfl
          exact absurd first (by decide)
        have all : ∀ d ∈ cs, d.isDigit := fun d member => digits (List.mem_cons_of_mem _ member)
        have rest : (cs ++ []).dropWhile Char.isDigit = [] := List.dropWhile_append_of_pos all
        rw [List.append_nil] at rest
        rw [isNumeral, isUnsigned, rest, first]
        · rfl
        all_goals simp_all

end Numeral

namespace Token

theorem isWordChar_of_isDigit {c : Char} (digit : c.isDigit) : isWordChar c := by
  simp [isWordChar, Char.isAlphanum, digit]

theorem ofWord?_toDigits (n : Nat) : ofWord? (Nat.toDigits 10 n) = some (number (Nat.toDigits 10 n)) := by
  have other : ∀ word ∈ ["null".toList, "true".toList, "false".toList], Nat.toDigits 10 n ≠ word := by
    rintro word member same
    have named : ["null".toList, "true".toList, "false".toList].all (·.any (!·.isDigit)) := by decide
    obtain ⟨c, inside, letter⟩ := List.any_eq_true.mp (List.all_eq_true.mp named word member)
    rw [← same] at inside
    simp [Numeral.isDigit_of_mem_toDigits inside] at letter
  simp only [List.forall_mem_cons] at other
  rw [ofWord?, if_neg other.1, if_neg other.2.1, if_neg other.2.2.1, if_pos (Numeral.isNumeral_toDigits n)]

end Token

namespace Json

theorem natural?_toDigits {n : Nat} (fits : n < wordLimit) : natural? (Nat.toDigits 10 n) = some n := by
  have filled : (Nat.toDigits 10 n).isEmpty = false := by
    rw [Bool.eq_false_iff]
    exact fun empty => Nat.toDigits_ne_nil (List.isEmpty_iff.mp empty)
  have digits : (Nat.toDigits 10 n).all Char.isDigit := List.all_eq_true.mpr fun _ => Numeral.isDigit_of_mem_toDigits
  have lead : ¬(1 < (Nat.toDigits 10 n).length ∧ (Nat.toDigits 10 n).head? = some '0') := by
    rintro ⟨long, zero⟩
    rcases Nat.eq_zero_or_pos n with rfl | positive
    · exact absurd long (by decide)
    · exact Numeral.head_toDigits positive zero
  unfold natural?
  rw [if_neg (by simpa [filled, digits] using lead), Nat.ofDigitChars_ten_toDigits]
  exact if_pos fits

/-! ## Values -/

/-- Values whose numbers are natural numbers and whose strings and keys are texts. -/
inductive Plain : Json → Prop where
  | null : Plain .null
  | bool (value : Bool) : Plain (.bool value)
  | number (n : Nat) : Plain (.number (Nat.toDigits 10 n))
  | string (text : String) : Plain (.string (Quoted.encode text))
  | array {items : List Json} : (∀ item ∈ items, Plain item) → Plain (.array items)
  | object {members : List (List Char × Json)} : (∀ member ∈ members, ∃ text, member.1 = Quoted.encode text) →
      (∀ member ∈ members, Plain member.2) → Plain (.object members)

mutual

/-- The tokens of a value. -/
def tokens : Json → List Token
  | null => [.null]
  | bool value => [.bool value]
  | number literal => [.number literal]
  | string raw => [.string raw]
  | array [] => [.openArray, .closeArray]
  | array (item :: items) => .openArray :: (tokens item ++ (itemTokens items ++ [.closeArray]))
  | object [] => [.openObject, .closeObject]
  | object ((key, value) :: members) =>
      .openObject :: .string key :: .colon :: (tokens value ++ (memberTokens members ++ [.closeObject]))

/-- The tokens of the items after the first. -/
def itemTokens : List Json → List Token
  | [] => []
  | item :: items => .comma :: (tokens item ++ itemTokens items)

/-- The tokens of the members after the first. -/
def memberTokens : List (List Char × Json) → List Token
  | [] => []
  | (key, value) :: members => .comma :: .string key :: .colon :: (tokens value ++ memberTokens members)

end

/-- The text of a value splits into its tokens. -/
def Splits (style : Style) (v : Json) : Prop :=
  ∀ depth rest, Token.Ends rest →
    Token.scan (v.write style depth ++ rest) = (Token.scan rest).map (v.tokens ++ ·)

/-- The tokens of a value are read as the value, also where an array could have ended. -/
def Reads (v : Json) : Prop :=
  ∀ stack rest, (Reading.value stack).steps (v.tokens ++ rest) = (Reading.complete v stack).steps rest ∧
    (Reading.firstItem stack).steps (v.tokens ++ rest) = (Reading.complete v (.array [] :: stack)).steps rest

section Splitting

variable {style : Style}

theorem ends_lineBreak {depth : Nat} {c : Char} (mark : Token.isWordChar c = false) (rest : List Char) :
    Token.Ends (style.lineBreak depth ++ c :: rest) := by
  cases style with
  | compact => exact Token.ends_cons.mpr mark
  | pretty => exact Token.ends_cons.mpr (by decide)

theorem ends_writeItems {depth : Nat} {items : List Json} {rest : List Char} (ends : Token.Ends rest) :
    Token.Ends (writeItems style depth items ++ rest) := by
  cases items with
  | nil => exact ends
  | cons item items => rw [writeItems]; exact Token.ends_cons.mpr (by decide)

theorem ends_writeMembers {depth : Nat} {members : List (List Char × Json)} {rest : List Char}
    (ends : Token.Ends rest) : Token.Ends (writeMembers style depth members ++ rest) := by
  cases members with
  | nil => exact ends
  | cons member members => rw [writeMembers]; exact Token.ends_cons.mpr (by decide)

theorem scan_writeItems {items : List Json} (splits : ∀ item ∈ items, item.Splits style) (depth : Nat)
    {rest : List Char} (ends : Token.Ends rest) :
    Token.scan (writeItems style depth items ++ rest) = (Token.scan rest).map (itemTokens items ++ ·) := by
  induction items with
  | nil => simp [writeItems, itemTokens]
  | cons item items ih =>
      obtain ⟨first, others⟩ := List.forall_mem_cons.mp splits
      simp only [writeItems, itemTokens, List.cons_append, List.append_assoc]
      rw [Token.scan_mark rfl, Token.scan_lineBreak, first depth _ (ends_writeItems ends), ih others]
      simp [Function.comp_def]

theorem scan_writeMembers {members : List (List Char × Json)}
    (keys : ∀ member ∈ members, ∃ text, member.1 = Quoted.encode text)
    (splits : ∀ member ∈ members, member.2.Splits style) (depth : Nat) {rest : List Char} (ends : Token.Ends rest) :
    Token.scan (writeMembers style depth members ++ rest) = (Token.scan rest).map (memberTokens members ++ ·) := by
  induction members with
  | nil => simp [writeMembers, memberTokens]
  | cons member members ih =>
      obtain ⟨raw, value⟩ := member
      obtain ⟨⟨text, rfl⟩, names⟩ := List.forall_mem_cons.mp keys
      obtain ⟨first, others⟩ := List.forall_mem_cons.mp splits
      simp only [writeMembers, memberTokens, List.cons_append, List.append_assoc]
      rw [Token.scan_mark rfl, Token.scan_lineBreak, Token.scan_string, Token.scan_separator,
        first depth _ (ends_writeMembers ends), ih names others]
      simp [Function.comp_def]

theorem Plain.splits {v : Json} (plain : v.Plain) : v.Splits style := by
  intro depth rest ends
  induction plain generalizing depth rest with
  | null => exact Token.scan_word (by decide) (by decide) ends
  | bool value => cases value <;> exact Token.scan_word (by decide) (by decide) ends
  | number n =>
      have known := Token.ofWord?_toDigits n
      have digits := @Numeral.isDigit_of_mem_toDigits n
      simp only [write, tokens]
      cases found : Nat.toDigits 10 n with
      | nil => exact absurd found Nat.toDigits_ne_nil
      | cons c cs =>
          rw [found] at known digits
          have chars : (c :: cs).all Token.isWordChar :=
            List.all_eq_true.mpr fun d member => Token.isWordChar_of_isDigit (digits member)
          exact Token.scan_word chars known ends
  | string text =>
      simp only [write, tokens, List.cons_append, List.append_assoc, List.nil_append]
      exact Token.scan_string text rest
  | @array items plain splits =>
      cases items with
      | nil =>
          simp only [write, tokens, List.cons_append, List.nil_append]
          rw [Token.scan_mark rfl, Token.scan_mark rfl]
          simp [Function.comp_def]
      | cons item items =>
          obtain ⟨first, others⟩ := List.forall_mem_cons.mp splits
          have closes : Token.Ends (style.lineBreak depth ++ ']' :: rest) := ends_lineBreak (by decide) rest
          simp only [write, tokens, List.cons_append, List.append_assoc, List.nil_append]
          rw [Token.scan_mark rfl, Token.scan_lineBreak, first (depth + 1) _ (ends_writeItems closes),
            scan_writeItems others (depth + 1) closes, Token.scan_lineBreak, Token.scan_mark rfl]
          simp [Function.comp_def]
  | @object members keys plain splits =>
      cases members with
      | nil =>
          simp only [write, tokens, List.cons_append, List.nil_append]
          rw [Token.scan_mark rfl, Token.scan_mark rfl]
          simp [Function.comp_def]
      | cons member members =>
          obtain ⟨raw, value⟩ := member
          obtain ⟨⟨text, rfl⟩, names⟩ := List.forall_mem_cons.mp keys
          obtain ⟨first, others⟩ := List.forall_mem_cons.mp splits
          have closes : Token.Ends (style.lineBreak depth ++ '\x7d' :: rest) := ends_lineBreak (by decide) rest
          simp only [write, tokens, List.cons_append, List.append_assoc, List.nil_append]
          rw [Token.scan_mark rfl, Token.scan_lineBreak, Token.scan_string, Token.scan_separator,
            first (depth + 1) _ (ends_writeMembers closes), scan_writeMembers names others (depth + 1) closes,
            Token.scan_lineBreak, Token.scan_mark rfl]
          simp [Function.comp_def]

end Splitting

theorem steps_itemTokens {items : List Json} (reads : ∀ item ∈ items, item.Reads) (v : Json) (done : List Json)
    (stack : List Frame) (rest : List Token) :
    (Reading.complete v (.array done :: stack)).steps (itemTokens items ++ .closeArray :: rest)
      = (Reading.complete (.array (done ++ v :: items)) stack).steps rest := by
  induction items generalizing v done with
  | nil => rfl
  | cons item items ih =>
      obtain ⟨first, others⟩ := List.forall_mem_cons.mp reads
      simp only [itemTokens, List.cons_append, List.append_assoc]
      show (Reading.value (.array (done ++ [v]) :: stack)).steps _ = _
      rw [(first _ _).1, ih others, List.append_assoc]
      rfl

theorem steps_memberTokens {members : List (List Char × Json)} (reads : ∀ member ∈ members, member.2.Reads) (v : Json)
    (done : List (List Char × Json)) (key : List Char) (stack : List Frame) (rest : List Token) :
    (Reading.complete v (.object done key :: stack)).steps (memberTokens members ++ .closeObject :: rest)
      = (Reading.complete (.object (done ++ (key, v) :: members)) stack).steps rest := by
  induction members generalizing v done key with
  | nil => rfl
  | cons member members ih =>
      obtain ⟨raw, value⟩ := member
      obtain ⟨first, others⟩ := List.forall_mem_cons.mp reads
      simp only [memberTokens, List.cons_append, List.append_assoc]
      show (Reading.value (.object (done ++ [(key, v)]) raw :: stack)).steps _ = _
      rw [(first _ _).1, ih others, List.append_assoc]
      rfl

theorem Plain.reads {v : Json} (plain : v.Plain) : v.Reads := by
  induction plain with
  | null => exact fun _ _ => ⟨rfl, rfl⟩
  | bool value => exact fun _ _ => ⟨rfl, rfl⟩
  | number n => exact fun _ _ => ⟨rfl, rfl⟩
  | string text => exact fun _ _ => ⟨rfl, rfl⟩
  | @array items plain reads =>
      cases items with
      | nil => exact fun _ _ => ⟨rfl, rfl⟩
      | cons item items =>
          obtain ⟨first, others⟩ := List.forall_mem_cons.mp reads
          have begun : ∀ stack rest, (Reading.firstItem stack).steps
              (item.tokens ++ (itemTokens items ++ [.closeArray]) ++ rest)
                = (Reading.complete (.array (item :: items)) stack).steps rest := by
            intro stack rest
            simp only [List.append_assoc, List.cons_append, List.nil_append]
            rw [(first _ _).2, steps_itemTokens others]
            rfl
          exact fun stack rest => ⟨begun stack rest, begun (.array [] :: stack) rest⟩
  | @object members keys plain reads =>
      cases members with
      | nil => exact fun _ _ => ⟨rfl, rfl⟩
      | cons member members =>
          obtain ⟨raw, value⟩ := member
          obtain ⟨first, others⟩ := List.forall_mem_cons.mp reads
          have begun : ∀ stack rest, (Reading.value (.object [] raw :: stack)).steps
              (value.tokens ++ (memberTokens members ++ [.closeObject]) ++ rest)
                = (Reading.complete (.object ((raw, value) :: members)) stack).steps rest := by
            intro stack rest
            simp only [List.append_assoc, List.cons_append, List.nil_append]
            rw [(first _ _).1, steps_memberTokens others]
            rfl
          exact fun stack rest => ⟨begun stack rest, begun (.array [] :: stack) rest⟩

/-- The text of a value is read as the value. -/
theorem parse?_text {v : Json} (plain : v.Plain) (style : Style) : parse? (v.text style) = some v := by
  have split : Token.scan (v.write style 0) = some v.tokens := by
    have whole := (plain.splits : v.Splits style) 0 [] (by simp [Token.Ends])
    rw [List.append_nil] at whole
    rw [whole, Token.scan]
    simp
  have read : (Reading.value []).steps v.tokens = some (.complete v []) := by
    have whole := (plain.reads [] []).1
    rw [List.append_nil] at whole
    exact whole
  simp [parse?, text, split, read]

end Json

end LatticeSurgery
