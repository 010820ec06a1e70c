/-
# Scanning

Cuts a text into tokens. Between tokens stand blanks, comments from `//` to the end of the line, and
comments from `/*` to the next `*/`.

A cursor is a place in the text with the characters that follow it. Every scanner moves a cursor
over a stretch of text, `Cursor.Reaches`: the stretch and the rest together are the characters there
were, and the new place is the old one advanced over the stretch. The scanner of tokens moves over
at least one character, so a text has finitely many tokens.
-/
import RewriteSemantics.ParseError
import RewriteSemantics.Text.CharClass
import RewriteSemantics.Token.Basic

namespace RewriteSemantics

/-! ## Cursors -/

/-- A place in a text and the characters behind it. -/
structure Cursor where
  position : Position
  rest : List Char
  deriving DecidableEq, Repr, Inhabited

namespace Cursor

/-- The cursor before a text. -/
def start (text : List Char) : Cursor :=
  ⟨.start, text⟩

/-- One cursor is reached from another by moving over some characters. -/
def Reaches (c d : Cursor) : Prop :=
  ∃ text, c.rest = text ++ d.rest ∧ d.position = c.position.advance text

theorem Reaches.refl (c : Cursor) : c.Reaches c :=
  ⟨[], rfl, rfl⟩

theorem Reaches.trans {c d e : Cursor} (h : c.Reaches d) (h' : d.Reaches e) : c.Reaches e := by
  obtain ⟨s, hs, hp⟩ := h
  obtain ⟨t, ht, hq⟩ := h'
  exact ⟨s ++ t, by rw [hs, ht, List.append_assoc], by rw [hq, hp, Position.advance_append]⟩

theorem Reaches.step (p : Position) (c : Char) (cs : List Char) :
    Reaches ⟨p, c :: cs⟩ ⟨p.step c, cs⟩ :=
  ⟨[c], rfl, rfl⟩

theorem Reaches.length_le {c d : Cursor} (h : c.Reaches d) : d.rest.length ≤ c.rest.length := by
  obtain ⟨text, hrest, -⟩ := h
  simp [hrest]

/-- One cursor is reached from another by moving over at least one character. -/
def Passes (c d : Cursor) : Prop :=
  ∃ first more, c.rest = first :: more ∧ Reaches ⟨c.position.step first, more⟩ d

theorem Passes.step (p : Position) (c : Char) (cs : List Char) :
    Passes ⟨p, c :: cs⟩ ⟨p.step c, cs⟩ :=
  ⟨c, cs, rfl, .refl _⟩

theorem Passes.reaches {c d : Cursor} (h : c.Passes d) : c.Reaches d := by
  obtain ⟨p, rest⟩ := c
  obtain ⟨first, more, hrest, h⟩ := h
  simp only at hrest
  exact hrest ▸ (Reaches.step ..).trans h

theorem Passes.length_lt {c d : Cursor} (h : c.Passes d) : d.rest.length < c.rest.length := by
  obtain ⟨first, more, hrest, h⟩ := h
  have := h.length_le
  simp only [hrest, List.length_cons] at this ⊢
  omega

theorem Passes.trans_reaches {c d e : Cursor} (h : c.Passes d) (h' : d.Reaches e) :
    c.Passes e := by
  obtain ⟨first, more, hrest, h⟩ := h
  exact ⟨first, more, hrest, h.trans h'⟩

theorem Reaches.trans_passes {c d e : Cursor} (h : c.Reaches d) (h' : d.Passes e) :
    c.Passes e := by
  obtain ⟨p, rest⟩ := c
  obtain ⟨text, hrest, hpos⟩ := h
  cases text with
  | nil =>
    obtain ⟨q, rest'⟩ := d
    simp only [List.nil_append, Position.advance_nil] at hrest hpos
    exact hrest ▸ hpos ▸ h'
  | cons first more =>
    refine ⟨first, more ++ d.rest, hrest, Reaches.trans ⟨more, rfl, ?_⟩ h'.reaches⟩
    simpa using hpos

/-- The cursor behind the longest stretch of characters of a class. -/
def skipWhile (p : Char → Bool) (c : Cursor) : Cursor :=
  ⟨c.position.advance (c.rest.takeWhile p), c.rest.dropWhile p⟩

theorem Reaches.skipWhile (p : Char → Bool) (c : Cursor) : c.Reaches (c.skipWhile p) :=
  ⟨c.rest.takeWhile p, by simp [Cursor.skipWhile], rfl⟩

end Cursor

namespace Scan

/-- A problem that reaches from where a token starts to the place where it was noticed. -/
def fail {α : Type} (start stop : Position) (problem : ParseProblem) : Except ParseError α :=
  .error (.found problem (start.spanTo stop))

/-! ## Blanks and comments -/

/-- What the characters at a place belong to while blanks and comments are skipped. -/
inductive Skipping where
  | blanks
  | lineComment
  /-- A block comment that starts at the given place. -/
  | blockComment (start : Position)

/-- Moves over blanks and comments to the first character of a token or to the end. -/
def skip : Skipping → Position → List Char → Except ParseError Cursor
  | .blanks, p, [] => .ok ⟨p, []⟩
  | .blanks, p, '/' :: '/' :: cs => skip .lineComment ((p.step '/').step '/') cs
  | .blanks, p, '/' :: '*' :: cs => skip (.blockComment p) ((p.step '/').step '*') cs
  | .blanks, p, c :: cs =>
    if Text.isWhitespace c then skip .blanks (p.step c) cs else .ok ⟨p, c :: cs⟩
  | .lineComment, p, [] => .ok ⟨p, []⟩
  | .lineComment, p, c :: cs =>
    if c = '\n' then skip .blanks (p.step c) cs else skip .lineComment (p.step c) cs
  | .blockComment start, p, [] => fail start p .unterminatedComment
  | .blockComment _, p, '*' :: '/' :: cs => skip .blanks ((p.step '*').step '/') cs
  | .blockComment start, p, c :: cs => skip (.blockComment start) (p.step c) cs

theorem reaches_of_skip {mode : Skipping} {p : Position} {cs : List Char} {d : Cursor}
    (h : skip mode p cs = .ok d) : Cursor.Reaches ⟨p, cs⟩ d := by
  fun_induction skip mode p cs with
  | case1 p => exact (Except.ok.inj h) ▸ .refl _
  | case2 p cs ih => exact ((Cursor.Reaches.step ..).trans (.step ..)).trans (ih h)
  | case3 p cs ih => exact ((Cursor.Reaches.step ..).trans (.step ..)).trans (ih h)
  | case4 p c cs _ _ _ ih => exact (Cursor.Reaches.step ..).trans (ih h)
  | case5 p c cs => exact (Except.ok.inj h) ▸ .refl _
  | case6 p => exact (Except.ok.inj h) ▸ .refl _
  | case7 p cs ih => exact (Cursor.Reaches.step ..).trans (ih h)
  | case8 p c cs _ ih => exact (Cursor.Reaches.step ..).trans (ih h)
  | case9 start p => simp [fail] at h
  | case10 start p cs ih => exact ((Cursor.Reaches.step ..).trans (.step ..)).trans (ih h)
  | case11 start p c cs _ ih => exact (Cursor.Reaches.step ..).trans (ih h)

/-! ## Texts and labels -/

/-- The character that a backslash and a letter stand for. -/
def escape? (c : Char) : Option Char :=
  match c with
  | 'n' => some '\n'
  | 't' => some '\t'
  | '\\' => some '\\'
  | '"' => some '"'
  | _ => none

/-- The content of a text literal behind its opening quotation mark. -/
def textBody (start : Position) : Position → List Char → Except ParseError (List Char × Cursor)
  | p, [] => fail start p .unterminatedText
  | p, '"' :: cs => .ok ([], ⟨p.step '"', cs⟩)
  | p, '\\' :: [] => fail start (p.step '\\') .unterminatedEscape
  | p, '\\' :: c :: cs =>
    match escape? c with
    | some escaped => do
      let (text, d) ← textBody start ((p.step '\\').step c) cs
      .ok (escaped :: text, d)
    | none => fail start ((p.step '\\').step c) (.invalidEscape c)
  | p, c :: cs => do
    let (text, d) ← textBody start (p.step c) cs
    .ok (c :: text, d)

theorem reaches_of_textBody {start p : Position} {cs text : List Char} {d : Cursor}
    (h : textBody start p cs = .ok (text, d)) : Cursor.Reaches ⟨p, cs⟩ d := by
  fun_induction textBody start p cs generalizing text d with
  | case1 p => simp [fail] at h
  | case2 p cs =>
    simp only [Except.ok.injEq, Prod.mk.injEq] at h
    exact h.2 ▸ .step ..
  | case3 p => simp [fail] at h
  | case4 p c cs escaped hc ih =>
    simp only [bind, Except.bind] at h
    split at h
    · cases h
    · rename_i r hr
      simp only [Except.ok.injEq, Prod.mk.injEq] at h
      exact ((Cursor.Reaches.step ..).trans (.step ..)).trans (h.2 ▸ ih hr)
  | case5 p c cs hc => simp [fail] at h
  | case6 p c cs _ _ _ ih =>
    simp only [bind, Except.bind] at h
    split at h
    · cases h
    · rename_i r hr
      simp only [Except.ok.injEq, Prod.mk.injEq] at h
      exact (Cursor.Reaches.step ..).trans (h.2 ▸ ih hr)

/-- Whether a character ends a quoted label. -/
def isBackquote (c : Char) : Bool :=
  c == '\x60'

/-- A quoted label behind its opening backquote. -/
def quotedLabel (start p : Position) (cs : List Char) : Except ParseError (TokenKind × Cursor) :=
  let label := cs.takeWhile (!isBackquote ·)
  match cs.dropWhile (!isBackquote ·) with
  | [] => fail start (p.advance label) .unterminatedLabel
  | quote :: rest =>
    let stop := (p.advance label).step quote
    if label.isEmpty then fail start stop .emptyLabel
    else .ok (.quoted (String.ofList label), ⟨stop, rest⟩)

theorem reaches_of_quotedLabel {start p : Position} {cs : List Char} {kind : TokenKind}
    {d : Cursor} (h : quotedLabel start p cs = .ok (kind, d)) : Cursor.Reaches ⟨p, cs⟩ d := by
  have hskip := Cursor.Reaches.skipWhile (!isBackquote ·) ⟨p, cs⟩
  rw [Cursor.skipWhile] at hskip
  simp only [quotedLabel] at h
  split at h
  · simp [fail] at h
  · rename_i quote rest hrest
    split at h
    · simp [fail] at h
    · simp only [Except.ok.injEq, Prod.mk.injEq] at h
      rw [hrest] at hskip
      exact hskip.trans (h.2 ▸ .step ..)

/-! ## Cell tags -/

/-- The place behind one more character, if there is one. -/
def stepIfAny (p : Position) : List Char → Position
  | [] => p
  | c :: _ => p.step c

/-- The place at which `="` is found missing behind the key of an attribute. -/
def tagAttributeStop (p : Position) : List Char → Position
  | '=' :: rest => stepIfAny (p.step '=') rest
  | rest => stepIfAny p rest

/-- The next attribute of a tag, or nothing at the closing bracket. A closing tag has none. -/
def tagAttribute (start : Position) (cell : String) (closing : Bool) (c : Cursor) :
    Except ParseError (Option (String × String) × Cursor) :=
  match c.skipWhile Text.isWhitespace with
  | ⟨p, []⟩ => fail start p .malformedTag
  | ⟨p, first :: more⟩ =>
    if first = '>' then .ok (none, ⟨p.step first, more⟩)
    else if closing || !Text.isAlphabetic first then fail start (p.step first) .malformedTag
    else
      let key := String.ofList (first :: more.takeWhile Text.isNameChar)
      match (Cursor.mk (p.step first) more).skipWhile Text.isNameChar with
      | ⟨p, '=' :: '"' :: value⟩ => do
        let (text, d) ← textBody start ((p.step '=').step '"') value
        .ok (some (key, String.ofList text), d)
      | ⟨p, rest⟩ => fail start (tagAttributeStop p rest) (.malformedTagAttribute key cell)

theorem passes_of_tagAttribute {start : Position} {cell : String} {closing : Bool} {c d : Cursor}
    {found : Option (String × String)} (h : tagAttribute start cell closing c = .ok (found, d)) :
    c.Passes d := by
  rw [tagAttribute] at h
  have hblanks := Cursor.Reaches.skipWhile Text.isWhitespace c
  split at h
  · simp [fail] at h
  · rename_i p first more hc
    rw [hc] at hblanks
    refine hblanks.trans_passes ?_
    split at h
    · simp only [Except.ok.injEq, Prod.mk.injEq] at h
      exact h.2 ▸ .step ..
    · split at h
      · simp [fail] at h
      · have hkey := Cursor.Reaches.skipWhile Text.isNameChar ⟨p.step first, more⟩
        refine (Cursor.Passes.step p first more).trans_reaches (hkey.trans ?_)
        simp only at h
        split at h
        · rename_i q value hk
          rw [hk]
          simp only [bind, Except.bind] at h
          split at h
          · cases h
          · rename_i r hr
            simp only [Except.ok.injEq, Prod.mk.injEq] at h
            exact ((Cursor.Reaches.step ..).trans (.step ..)).trans (h.2 ▸ reaches_of_textBody hr)
        · simp [fail] at h

/-- The attributes of a tag up to its closing bracket. -/
def tagAttributes (start : Position) (cell : String) (closing : Bool) (c : Cursor) :
    Except ParseError (List (String × String) × Cursor) :=
  match h : tagAttribute start cell closing c with
  | .error e => .error e
  | .ok (none, d) => .ok ([], d)
  | .ok (some found, d) =>
    have := (passes_of_tagAttribute h).length_lt
    do
      let (others, d) ← tagAttributes start cell closing d
      .ok (found :: others, d)
termination_by c.rest.length

theorem reaches_of_tagAttributes {start : Position} {cell : String} {closing : Bool}
    {c d : Cursor} {attributes : List (String × String)}
    (h : tagAttributes start cell closing c = .ok (attributes, d)) : c.Reaches d := by
  fun_induction tagAttributes start cell closing c generalizing attributes d with
  | case1 c e he => cases h
  | case2 c d' hd =>
    simp only [Except.ok.injEq, Prod.mk.injEq] at h
    exact h.2 ▸ (passes_of_tagAttribute hd).reaches
  | case3 c found d' hd _ ih =>
    simp only [bind, Except.bind] at h
    split at h
    · cases h
    · rename_i r hr
      simp only [Except.ok.injEq, Prod.mk.injEq] at h
      exact (passes_of_tagAttribute hd).reaches.trans (h.2 ▸ ih hr)

/-- The tag of a cell behind its opening bracket, and behind its slash if it closes the cell. -/
def tag (start : Position) (closing : Bool) (p : Position) (cs : List Char) :
    Except ParseError (TokenKind × Cursor) :=
  let name := cs.takeWhile Text.isNameChar
  let c := (Cursor.mk p cs).skipWhile Text.isNameChar
  if name.isEmpty then fail start p .malformedTag
  else do
    let (attributes, d) ← tagAttributes start (String.ofList name) closing c
    .ok (if closing then .cellClose (String.ofList name)
      else .cellOpen (String.ofList name) attributes, d)

theorem reaches_of_tag {start p : Position} {closing : Bool} {cs : List Char} {kind : TokenKind}
    {d : Cursor} (h : tag start closing p cs = .ok (kind, d)) : Cursor.Reaches ⟨p, cs⟩ d := by
  simp only [tag] at h
  split at h
  · simp [fail] at h
  · simp only [bind, Except.bind] at h
    split at h
    · cases h
    · rename_i r hr
      simp only [Except.ok.injEq, Prod.mk.injEq] at h
      exact (Cursor.Reaches.skipWhile ..).trans (h.2 ▸ reaches_of_tagAttributes hr)

/-! ## Names and numbers -/

/-- A name that is spelled like a keyword is that keyword. -/
def ofName (name : String) : TokenKind :=
  match Keyword.ofSpelling? name with
  | some word => .keyword word
  | none => .ident name

/-- The characters that may stand before a letter to start a name. -/
def isSigil (c : Char) : Bool :=
  c == '#' || c == '.' || c == '!' || c == '?' || c == '$'

/-- Whether the first of some characters satisfies a condition. -/
def headIs (p : Char → Bool) (cs : List Char) : Bool :=
  cs.head?.any p

/-- The value of an integer that is written with a sign or digit and more digits. -/
def integerValue (first : Char) (digits : List Char) : Int :=
  if first = '-' then -(Nat.ofDigitChars 10 digits 0 : Int)
  else Nat.ofDigitChars 10 (first :: digits) 0

/-- An integer whose sign or first digit has been read. -/
def integer (start : Position) (first : Char) (cs : List Char) :
    Except ParseError (TokenKind × Cursor) :=
  let digits := cs.takeWhile Char.isDigit
  let d := (Cursor.mk (start.step first) cs).skipWhile Char.isDigit
  let value := integerValue first digits
  if -9223372036854775808 ≤ value ∧ value < 9223372036854775808 then .ok (.int value, d)
  else fail start d.position (.integerOutOfRange (String.ofList (first :: digits)))

theorem reaches_of_integer {start : Position} {first : Char} {cs : List Char}
    {kind : TokenKind} {d : Cursor} (h : integer start first cs = .ok (kind, d)) :
    Cursor.Reaches ⟨start.step first, cs⟩ d := by
  rw [integer] at h
  split at h
  · simp only [Except.ok.injEq, Prod.mk.injEq] at h
    exact h.2 ▸ .skipWhile ..
  · simp [fail] at h

/-! ## Tokens -/

/-- A punctuation mark of one character. -/
def mark? (c : Char) : Option Punctuation :=
  match c with
  | '(' => some .leftParen
  | ')' => some .rightParen
  | '[' => some .leftBracket
  | ']' => some .rightBracket
  | ',' => some .comma
  | _ => none

/-- A name that starts with a given character, and whatever kind it turns out to be. -/
def name (kind : String → TokenKind) (p : Position) (first : Char) (cs : List Char) :
    TokenKind × Cursor :=
  (kind (String.ofList (first :: cs.takeWhile Text.isNameChar)),
    (Cursor.mk (p.step first) cs).skipWhile Text.isNameChar)

/-- The token whose first character is given, at the place of that character. -/
def token (p : Position) (c : Char) (cs : List Char) : Except ParseError (TokenKind × Cursor) :=
  let unexpected := fail p (p.step c) (.unexpectedCharacter c)
  match mark? c with
  | some mark => .ok (.punctuation mark, ⟨p.step c, cs⟩)
  | none =>
    if c = ':' then
      match cs with
      | ':' :: '=' :: rest => .ok (.punctuation .definedAs, ⟨((p.step c).step ':').step '=', rest⟩)
      | _ => .ok (.punctuation .colon, ⟨p.step c, cs⟩)
    else if c = '=' then
      match cs with
      | '>' :: rest => .ok (.punctuation .arrow, ⟨(p.step c).step '>', rest⟩)
      | _ => unexpected
    else if c = '~' then
      match cs with
      | '>' :: rest => .ok (.punctuation .followedBy, ⟨(p.step c).step '>', rest⟩)
      | _ => unexpected
    else if c = '.' && headIs (· == '.') cs then
      match cs with
      | '.' :: '.' :: rest => .ok (.punctuation .ellipsis, ⟨((p.step c).step '.').step '.', rest⟩)
      | other => fail p (stepIfAny ((p.step c).step '.') other.tail) .incompleteEllipsis
    else if c = '<' then
      match cs with
      | '/' :: rest => tag p true ((p.step c).step '/') rest
      | _ => tag p false (p.step c) cs
    else if isBackquote c then quotedLabel p (p.step c) cs
    else if c = '"' then do
      let (text, d) ← textBody p (p.step c) cs
      .ok (.text (String.ofList text), d)
    else if c = '-' && headIs Char.isDigit cs then integer p c cs
    else if c.isDigit then integer p c cs
    else if isSigil c && headIs Text.isAlphabetic cs then .ok (name .ident p c cs)
    else if Text.isAlphabetic c || c == '_' then .ok (name ofName p c cs)
    else unexpected

/-- The branches of the scanner of tokens: the characters that it finds, and what it makes of
them. -/
inductive Branch (p : Position) :
    Char → List Char → Except ParseError (TokenKind × Cursor) → Prop
  | mark {c : Char} {cs : List Char} {m : Punctuation} : mark? c = some m →
      Branch p c cs (.ok (.punctuation m, ⟨p.step c, cs⟩))
  | definedAs (rest : List Char) : Branch p ':' (':' :: '=' :: rest)
      (.ok (.punctuation .definedAs, ⟨((p.step ':').step ':').step '=', rest⟩))
  | colon (cs : List Char) : Branch p ':' cs (.ok (.punctuation .colon, ⟨p.step ':', cs⟩))
  | arrow (rest : List Char) : Branch p '=' ('>' :: rest)
      (.ok (.punctuation .arrow, ⟨(p.step '=').step '>', rest⟩))
  | followedBy (rest : List Char) : Branch p '~' ('>' :: rest)
      (.ok (.punctuation .followedBy, ⟨(p.step '~').step '>', rest⟩))
  | ellipsis (rest : List Char) : Branch p '.' ('.' :: '.' :: rest)
      (.ok (.punctuation .ellipsis, ⟨((p.step '.').step '.').step '.', rest⟩))
  | twoDots (rest : List Char) : Branch p '.' ('.' :: rest)
      (fail p (stepIfAny ((p.step '.').step '.') rest) .incompleteEllipsis)
  | closing (rest : List Char) : Branch p '<' ('/' :: rest)
      (tag p true ((p.step '<').step '/') rest)
  | opening {cs : List Char} : (∀ rest, cs ≠ '/' :: rest) →
      Branch p '<' cs (tag p false (p.step '<') cs)
  | label (cs : List Char) : Branch p '\x60' cs (quotedLabel p (p.step '\x60') cs)
  | text (cs : List Char) : Branch p '"' cs (do
      let (text, d) ← textBody p (p.step '"') cs
      .ok (.text (String.ofList text), d))
  | negative {cs : List Char} : headIs Char.isDigit cs = true → Branch p '-' cs (integer p '-' cs)
  | digit {c : Char} {cs : List Char} : c.isDigit = true → Branch p c cs (integer p c cs)
  | marked {c : Char} {cs : List Char} : (isSigil c && headIs Text.isAlphabetic cs) = true →
      Branch p c cs (.ok (name .ident p c cs))
  | word {c : Char} {cs : List Char} : (Text.isAlphabetic c || c == '_') = true →
      Branch p c cs (.ok (name ofName p c cs))
  | unexpected (c : Char) (cs : List Char) :
      Branch p c cs (fail p (p.step c) (.unexpectedCharacter c))

/-- Each call of the scanner takes one of its branches. -/
theorem branch_token (p : Position) (c : Char) (cs : List Char) : Branch p c cs (token p c cs) := by
  unfold token
  cases hmark : mark? c with
  | some m => exact .mark hmark
  | none =>
    simp only
    by_cases hcolon : c = ':'
    · subst hcolon
      rw [if_pos rfl]
      split
      · exact .definedAs _
      · exact .colon cs
    rw [if_neg hcolon]
    by_cases hequals : c = '='
    · subst hequals
      rw [if_pos rfl]
      split
      · exact .arrow _
      · exact .unexpected ..
    rw [if_neg hequals]
    by_cases htilde : c = '~'
    · subst htilde
      rw [if_pos rfl]
      split
      · exact .followedBy _
      · exact .unexpected ..
    rw [if_neg htilde]
    by_cases hdots : (decide (c = '.') && headIs (· == '.') cs) = true
    · rw [if_pos hdots]
      obtain ⟨hdot, hhead⟩ := Bool.and_eq_true_iff.1 hdots
      rw [decide_eq_true_iff] at hdot
      subst hdot
      split
      · exact .ellipsis _
      · cases cs with
        | nil => cases hhead
        | cons d rest =>
          have hd : d = '.' := by simpa [headIs] using hhead
          subst hd
          exact .twoDots rest
    rw [if_neg hdots]
    by_cases hangle : c = '<'
    · subst hangle
      rw [if_pos rfl]
      split
      · exact .closing _
      · rename_i hslash
        exact .opening hslash
    rw [if_neg hangle]
    by_cases hbackquote : isBackquote c = true
    · rw [if_pos hbackquote]
      have hc : c = '\x60' := by simpa [isBackquote] using hbackquote
      subst hc
      exact .label cs
    rw [if_neg hbackquote]
    by_cases hquote : c = '"'
    · subst hquote
      rw [if_pos rfl]
      exact .text cs
    rw [if_neg hquote]
    by_cases hminus : (decide (c = '-') && headIs Char.isDigit cs) = true
    · rw [if_pos hminus]
      obtain ⟨hc, hdigit⟩ := Bool.and_eq_true_iff.1 hminus
      rw [decide_eq_true_iff] at hc
      subst hc
      exact .negative hdigit
    rw [if_neg hminus]
    by_cases hdigit : c.isDigit = true
    · rw [if_pos hdigit]
      exact .digit hdigit
    rw [if_neg hdigit]
    by_cases hmarked : (isSigil c && headIs Text.isAlphabetic cs) = true
    · rw [if_pos hmarked]
      exact .marked hmarked
    rw [if_neg hmarked]
    by_cases hword : (Text.isAlphabetic c || c == '_') = true
    · rw [if_pos hword]
      exact .word hword
    rw [if_neg hword]
    exact .unexpected c cs

theorem reaches_of_token {p : Position} {c : Char} {cs : List Char} {kind : TokenKind}
    {d : Cursor} (h : token p c cs = .ok (kind, d)) : Cursor.Reaches ⟨p.step c, cs⟩ d := by
  have hbranch := branch_token p c cs
  generalize token p c cs = result at h hbranch
  cases hbranch with
  | mark _ =>
    cases h
    exact .refl _
  | definedAs rest =>
    cases h
    exact (Cursor.Reaches.step ..).trans (.step ..)
  | colon =>
    cases h
    exact .refl _
  | arrow rest =>
    cases h
    exact .step ..
  | followedBy rest =>
    cases h
    exact .step ..
  | ellipsis rest =>
    cases h
    exact (Cursor.Reaches.step ..).trans (.step ..)
  | twoDots rest => cases h
  | closing rest => exact (Cursor.Reaches.step ..).trans (reaches_of_tag h)
  | opening _ => exact reaches_of_tag h
  | label => exact reaches_of_quotedLabel h
  | text =>
    simp only [bind, Except.bind] at h
    split at h
    · cases h
    · rename_i r hr
      cases h
      exact reaches_of_textBody hr
  | negative _ => exact reaches_of_integer h
  | digit _ => exact reaches_of_integer h
  | marked _ =>
    cases h
    exact .skipWhile ..
  | word _ =>
    cases h
    exact .skipWhile ..
  | unexpected => cases h

/-- The tokens from a place on. The end of the text is the last of them. -/
def tokens (c : Cursor) : Except ParseError (List Token) :=
  match hskip : skip .blanks c.position c.rest with
  | .error e => .error e
  | .ok ⟨p, []⟩ => .ok [⟨.finish, p.spanTo p⟩]
  | .ok ⟨p, first :: more⟩ =>
    match htoken : token p first more with
    | .error e => .error e
    | .ok (kind, d) =>
      have := ((reaches_of_skip hskip).trans_passes
        ((Cursor.Passes.step p first more).trans_reaches (reaches_of_token htoken))).length_lt
      do
        let others ← tokens d
        .ok (⟨kind, p.spanTo d.position⟩ :: others)
termination_by c.rest.length

end Scan

/-- The tokens of a text. -/
def tokenize (text : String) : Except ParseError (List Token) :=
  Scan.tokens (.start text.toList)

end RewriteSemantics
