/-
# Reading JSON

A reader of JSON documents over lists of characters. It is strict: no leading zeros, no trailing
commas, no bare control characters in texts, and nothing but blanks behind the document. A text
that escapes a surrogate without its partner is let through as one without a value.

Every step hands back the characters it has not read, with a bound on their number. Since they get
fewer, the loops end.
-/
import RewriteSemantics.Json.Basic

namespace RewriteSemantics.Json

/-- What stands at the front of a text, and the rest behind it, which is shorter than a bound. -/
structure Front (α : Type) (bound : Nat) where
  value : α
  rest : List Char
  shorter : rest.length < bound

namespace Front

/-- A front with a larger bound. -/
def within {α : Type} {m n : Nat} (r : Front α m) (h : m ≤ n) : Front α n :=
  ⟨r.value, r.rest, Nat.lt_of_lt_of_le r.shorter h⟩

/-- A front with an image of its value. -/
def map {α β : Type} {n : Nat} (f : α → β) (r : Front α n) : Front β n :=
  ⟨f r.value, r.rest, r.shorter⟩

/-- Nothing at the front of a text. -/
def nothing {α : Type} (value : α) (cs : List Char) : Front α (cs.length + 1) :=
  ⟨value, cs, Nat.lt_succ_self _⟩

/-- The first character of a text. -/
def first {α : Type} (value : α) (c : Char) (rest : List Char) : Front α (c :: rest).length :=
  ⟨value, rest, Nat.lt_succ_self _⟩

/-- A front that begins one character earlier. -/
def behind {α : Type} {rest : List Char} (c : Char) (r : Front α rest.length) :
    Front α (c :: rest).length :=
  r.within (Nat.le_succ _)

end Front

/-! ## Blanks and literals -/

/-- The four characters that may stand between the parts of a document. -/
def isBlank (c : Char) : Bool :=
  c == ' ' || c == '\t' || c == '\n' || c == '\r'

/-- The text from its first character that is not blank. -/
def skipBlanks (cs : List Char) : List Char :=
  cs.dropWhile isBlank

theorem length_skipBlanks_le (cs : List Char) : (skipBlanks cs).length ≤ cs.length :=
  (List.dropWhile_sublist isBlank).length_le

theorem length_le_of_skipBlanks {cs text : List Char} (h : skipBlanks cs = text) :
    text.length ≤ cs.length :=
  h ▸ length_skipBlanks_le cs

theorem length_lt_of_skipBlanks {cs rest : List Char} {c : Char} (h : skipBlanks cs = c :: rest) :
    rest.length < cs.length :=
  length_le_of_skipBlanks h

/-- A literal that the text starts with. -/
def readLiteral (literal : List Char) (value : Json) :
    (cs : List Char) → Option (Front Json cs.length)
  | [] => none
  | c :: rest => match literal with
    | [] => none
    | [d] => if c = d then some (.first value c rest) else none
    | d :: others => if c = d then (readLiteral others value rest).map (.behind c) else none

/-! ## Numbers -/

/-- Digits, at least one of them. -/
def readDigits : (cs : List Char) → Option (Front (List Char) cs.length)
  | [] => none
  | c :: rest =>
    if c.isDigit then
      some ⟨c :: rest.takeWhile Char.isDigit, rest.dropWhile Char.isDigit,
        Nat.lt_succ_of_le (List.dropWhile_sublist _).length_le⟩
    else none

/-- The digits before the point: a single zero, or digits that do not start with a zero. -/
def readWhole (cs : List Char) : Option (Front (List Char) cs.length) := do
  let digits ← readDigits cs
  match digits.value with
  | '0' :: _ :: _ => none
  | _ => some digits

/-- The point and the digits behind it, if there is a point. -/
def readFraction : (cs : List Char) → Option (Front (List Char) (cs.length + 1))
  | '.' :: rest => (readDigits rest).map fun digits =>
    ((digits.map ('.' :: ·)).behind '.').within (Nat.le_succ _)
  | cs => some (.nothing [] cs)

/-- A minus, if there is one. -/
def readMinus : (cs : List Char) → Front (List Char) (cs.length + 1)
  | '-' :: rest => (Front.first ['-'] '-' rest).within (Nat.le_succ _)
  | cs => .nothing [] cs

/-- A sign, if there is one. -/
def readSign : (cs : List Char) → Front (List Char) (cs.length + 1)
  | '+' :: rest => (Front.first ['+'] '+' rest).within (Nat.le_succ _)
  | cs => readMinus cs

/-- The exponent, if there is one. -/
def readExponent : (cs : List Char) → Option (Front (List Char) (cs.length + 1))
  | c :: rest =>
    if c = 'e' ∨ c = 'E' then
      let sign := readSign rest
      (readDigits sign.rest).map fun digits =>
        (digits.map (c :: sign.value ++ ·)).within
          (Nat.le_succ_of_le (Nat.le_of_lt sign.shorter))
    else some (.nothing [] (c :: rest))
  | [] => some (.nothing [] [])

/-- The document of a number. It is whole if it has neither fraction nor exponent and is not
negative zero. -/
def numberOf (sign whole tail : List Char) : Json :=
  let value := Nat.ofDigitChars 10 whole 0
  if tail.isEmpty && sign.isEmpty then .int value
  else if tail.isEmpty && value != 0 then .int (-value)
  else .number (String.ofList (sign ++ whole ++ tail))

/-- A number. -/
def readNumber (cs : List Char) : Option (Front Json cs.length) := do
  let sign := readMinus cs
  let whole ← readWhole sign.rest
  let fraction ← readFraction whole.rest
  let exponent ← readExponent fraction.rest
  some ⟨numberOf sign.value whole.value (fraction.value ++ exponent.value), exponent.rest,
    Nat.lt_of_le_of_lt (Nat.le_of_lt_succ exponent.shorter)
      (Nat.lt_of_le_of_lt (Nat.le_of_lt_succ fraction.shorter)
        (Nat.lt_of_lt_of_le whole.shorter (Nat.le_of_lt_succ sign.shorter)))⟩

/-! ## Texts -/

/-- The value of a hexadecimal digit. -/
def hexValue? (c : Char) : Option Nat :=
  if c.isDigit then some (c.toNat - '0'.toNat)
  else if 'a' ≤ c && c ≤ 'f' then some (c.toNat - 'a'.toNat + 10)
  else if 'A' ≤ c && c ≤ 'F' then some (c.toNat - 'A'.toNat + 10)
  else none

/-- The number that four hexadecimal digits write. -/
def hexUnit? (a b c d : Char) : Option Nat := do
  some (((← hexValue? a) * 16 + (← hexValue? b)) * 256 + (← hexValue? c) * 16 + (← hexValue? d))

/-- The character a backslash and a letter stand for. -/
def simpleEscape? (c : Char) : Option Char :=
  match c with
  | '"' => some '"'
  | '\\' => some '\\'
  | '/' => some '/'
  | 'b' => some '\x08'
  | 'f' => some '\x0c'
  | 'n' => some '\n'
  | 'r' => some '\r'
  | 't' => some '\t'
  | _ => none

/-- A part of a text: a character, or a number of 16 bits written with hexadecimal digits. -/
inductive TextPart where
  | char (c : Char)
  | unit (value : Nat)

/-- The parts of a text up to the closing quotation mark. -/
def readText : (cs : List Char) → Option (Front (List TextPart) cs.length)
  | [] => none
  | '"' :: rest => some (.first [] '"' rest)
  | '\\' :: 'u' :: a :: b :: c :: d :: rest => do
    let unit ← hexUnit? a b c d
    let text ← readText rest
    some ((text.map (.unit unit :: ·)).behind d |>.behind c |>.behind b |>.behind a |>.behind 'u'
      |>.behind '\\')
  | '\\' :: c :: rest => do
    let escaped ← simpleEscape? c
    let text ← readText rest
    some ((text.map (.char escaped :: ·)).behind c |>.behind '\\')
  | c :: rest =>
    if c.toNat < 32 || c == '\\' then none
    else do
      let text ← readText rest
      some ((text.map (.char c :: ·)).behind c)

/-- The first half of an escaped pair. -/
def isHighSurrogate (unit : Nat) : Bool :=
  0xD800 ≤ unit && unit < 0xDC00

/-- The second half of an escaped pair. -/
def isLowSurrogate (unit : Nat) : Bool :=
  0xDC00 ≤ unit && unit < 0xE000

/-- The character that a pair of surrogates stands for. -/
def pairedChar (high low : Nat) : Char :=
  Char.ofNat (0x10000 + (high - 0xD800) * 0x400 + (low - 0xDC00))

/-- The characters that the parts of a text stand for. There are none if a surrogate stands without
its partner. -/
def charsOf : List TextPart → Option (List Char)
  | [] => some []
  | .char c :: parts => (charsOf parts).map (c :: ·)
  | .unit unit :: parts =>
    if isHighSurrogate unit then
      match parts with
      | .unit low :: parts =>
        if isLowSurrogate low then (charsOf parts).map (pairedChar unit low :: ·) else none
      | _ => none
    else if isLowSurrogate unit then none
    else (charsOf parts).map (Char.ofNat unit :: ·)

/-- The value of a text, if it has one. -/
def textOf (parts : List TextPart) : Option String :=
  (charsOf parts).map String.ofList

/-! ## Documents -/

/-- The front of a text up to a rest of it. -/
def literalBefore (rest cs : List Char) : String :=
  String.ofList (cs.take (cs.length - rest.length))

/-- The document of a text. -/
def documentOfText (literal : List Char) (text : Front (List TextPart) literal.length) : Json :=
  match textOf text.value with
  | some value => .str value
  | none => .valueless (literalBefore text.rest literal)

/-- The members of an object whose keys have values. There are none if a key has no value. -/
def membersOf (members : List (Option String × Json)) : Option (List (String × Json)) :=
  members.mapM fun (key, value) => key.map (·, value)

/-- The document of an object. -/
def documentOfMembers (literal : List Char)
    (members : Front (List (Option String × Json)) literal.length) : Json :=
  match membersOf members.value with
  | some members => .obj members
  | none => .valueless (literalBefore members.rest literal)

mutual

/-- A document at the front of a text. -/
def readValue (cs : List Char) : Option (Front Json cs.length) :=
  match h : skipBlanks cs with
  | [] => none
  | '"' :: rest => (readText rest).map fun text =>
    let text := text.behind '"'
    ⟨documentOfText _ text, text.rest, Nat.lt_of_lt_of_le text.shorter (length_le_of_skipBlanks h)⟩
  | '[' :: rest =>
    have := length_lt_of_skipBlanks h
    match hi : skipBlanks rest with
    | ']' :: rest => some ⟨.arr [], rest, Nat.lt_trans (length_lt_of_skipBlanks hi) this⟩
    | _ => (readItems rest).map fun items => (items.map .arr).within (Nat.le_of_lt this)
  | '\x7b' :: rest =>
    have := length_lt_of_skipBlanks h
    match hi : skipBlanks rest with
    | '\x7d' :: rest => some ⟨.obj [], rest, Nat.lt_trans (length_lt_of_skipBlanks hi) this⟩
    | _ => (readMembers rest).map fun members =>
      let members := members.behind '\x7b'
      ⟨documentOfMembers _ members, members.rest,
        Nat.lt_of_lt_of_le members.shorter (length_le_of_skipBlanks h)⟩
  | text =>
    (readNumber text <|> readLiteral "null".toList .null text <|>
      readLiteral "true".toList (.bool true) text <|>
      readLiteral "false".toList (.bool false) text).map (·.within (length_le_of_skipBlanks h))
termination_by (cs.length, 0)

/-- The items of an array up to its closing bracket. -/
def readItems (cs : List Char) : Option (Front (List Json) cs.length) :=
  match readValue cs with
  | none => none
  | some item =>
    match h : skipBlanks item.rest with
    | ']' :: rest =>
      some ⟨[item.value], rest, Nat.lt_trans (length_lt_of_skipBlanks h) item.shorter⟩
    | ',' :: more =>
      have := Nat.lt_trans (length_lt_of_skipBlanks h) item.shorter
      (readItems more).map fun items =>
        (items.map (item.value :: ·)).within (Nat.le_of_lt this)
    | _ => none
termination_by (cs.length, 1)

/-- A member of an object. Its key may be a text without a value. -/
def readMember (cs : List Char) : Option (Front (Option String × Json) cs.length) :=
  match h : skipBlanks cs with
  | '"' :: rest =>
    match readText rest with
    | none => none
    | some key =>
      match hc : skipBlanks key.rest with
      | ':' :: rest =>
        have := Nat.lt_trans (Nat.lt_trans (length_lt_of_skipBlanks hc) key.shorter)
          (length_lt_of_skipBlanks h)
        (readValue rest).map fun value =>
          (value.map (textOf key.value, ·)).within (Nat.le_of_lt this)
      | _ => none
  | _ => none
termination_by (cs.length, 1)

/-- The members of an object up to its closing brace. -/
def readMembers (cs : List Char) : Option (Front (List (Option String × Json)) cs.length) :=
  match readMember cs with
  | none => none
  | some member =>
    match h : skipBlanks member.rest with
    | '\x7d' :: rest =>
      some ⟨[member.value], rest, Nat.lt_trans (length_lt_of_skipBlanks h) member.shorter⟩
    | ',' :: more =>
      have := Nat.lt_trans (length_lt_of_skipBlanks h) member.shorter
      (readMembers more).map fun members =>
        (members.map (member.value :: ·)).within (Nat.le_of_lt this)
    | _ => none
termination_by (cs.length, 2)

end

/-- The document that a text holds, if it holds exactly one. -/
def parse? (text : String) : Option Json := do
  let document ← readValue text.toList
  if (skipBlanks document.rest).isEmpty then some document.value else none

end RewriteSemantics.Json
