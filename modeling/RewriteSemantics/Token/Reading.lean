/-
# Reading tokens

The grammar is read off a list of tokens by functions that each take some tokens from the front.
What is left is always shorter than what there was, and the type of a result says so; this is what
makes the readers of nested phrases end. What does not fit is reported at the first token that was
not taken.
-/
import RewriteSemantics.ParseError
import RewriteSemantics.Sorts
import RewriteSemantics.Text.CharClass
import RewriteSemantics.Token.Basic

namespace RewriteSemantics

/-- A value read from the front of some tokens, and the tokens behind it, of which there are
fewer. -/
structure Parsed (α : Type) (ts : List Token) where
  value : α
  rest : List Token
  shorter : rest.length < ts.length

namespace Parsed

/-- The value of a single token. -/
def one {α : Type} (value : α) (t : Token) (rest : List Token) : Parsed α (t :: rest) :=
  ⟨value, rest, Nat.lt_succ_self _⟩

/-- What was read behind one more token. -/
def behind {α : Type} {t : Token} {ts : List Token} (r : Parsed α ts) : Parsed α (t :: ts) :=
  ⟨r.value, r.rest, Nat.lt_succ_of_lt r.shorter⟩

/-- What was read behind some tokens that were read before. -/
def within {α : Type} {us ts : List Token} (r : Parsed α us) (h : us.length ≤ ts.length) :
    Parsed α ts :=
  ⟨r.value, r.rest, Nat.lt_of_lt_of_le r.shorter h⟩

/-- What was read behind some tokens that were read before, of which there is one at least. -/
def after {α : Type} {us ts : List Token} (r : Parsed α us) (h : us.length < ts.length) :
    Parsed α ts :=
  r.within (Nat.le_of_lt h)

/-- The result with its value replaced by an image. -/
def map {α β : Type} {ts : List Token} (f : α → β) (r : Parsed α ts) : Parsed β ts :=
  ⟨f r.value, r.rest, r.shorter⟩

end Parsed

/-- A value read from the front of some tokens, perhaps from none of them, and the tokens behind. -/
structure MaybeParsed (α : Type) (ts : List Token) where
  value : α
  rest : List Token
  notLonger : rest.length ≤ ts.length

namespace Parsed

/-- Taking some tokens is a way of taking any number of them. -/
def toMaybe {α : Type} {ts : List Token} (r : Parsed α ts) : MaybeParsed α ts :=
  ⟨r.value, r.rest, Nat.le_of_lt r.shorter⟩

end Parsed

namespace MaybeParsed

/-- The result with its value replaced by an image. -/
def map {α β : Type} {ts : List Token} (f : α → β) (r : MaybeParsed α ts) : MaybeParsed β ts :=
  ⟨f r.value, r.rest, r.notLonger⟩

/-- A value read from no token at all. -/
def absent {α : Type} (value : α) (ts : List Token) : MaybeParsed α ts :=
  ⟨value, ts, Nat.le_refl _⟩

/-- What was read behind one token, which makes it a reading of at least that one. -/
def behind {α : Type} {t : Token} {ts : List Token} (r : MaybeParsed α ts) : Parsed α (t :: ts) :=
  ⟨r.value, r.rest, Nat.lt_succ_of_le r.notLonger⟩

end MaybeParsed

namespace Parse

/-! ## The first tokens -/

/-- The first token. Behind the last one there is nothing but the end of the text. -/
def peek (ts : List Token) : Token :=
  ts.head?.getD ⟨.finish, .nowhere⟩

/-- Whether the first token is of a kind. -/
def at? (kind : TokenKind) (ts : List Token) : Bool :=
  (peek ts).kind = kind

/-- Whether a term can start here. -/
def startsTerm (ts : List Token) : Bool :=
  (peek ts).kind.startsTerm

/-- The first token is not what the grammar asks for. -/
def unexpected (expected : String) (ts : List Token) : ParseError :=
  .found (.unexpectedToken expected (peek ts).kind.name) (peek ts).span

/-- Takes a token of a kind. -/
def expect (kind : TokenKind) (ts : List Token) : Except ParseError (Parsed Unit ts) :=
  match ts with
  | t :: rest =>
    if t.kind = kind then .ok (.one () t rest) else .error (unexpected kind.name (t :: rest))
  | [] => .error (unexpected kind.name [])

/-- Takes a token of a kind if there is one, and tells whether there was. -/
def skip (kind : TokenKind) (ts : List Token) : MaybeParsed Bool ts :=
  match ts with
  | t :: rest =>
    if t.kind = kind then (Parsed.one true t rest).toMaybe else .absent false (t :: rest)
  | [] => .absent false []

/-- Nothing is left but the end of the text. -/
def expectFinish (ts : List Token) : Except ParseError Unit :=
  if at? .finish ts then .ok () else .error (unexpected "end of input" ts)

/-! ## Names -/

/-- Takes a name. -/
def ident (ts : List Token) : Except ParseError (Parsed String ts) :=
  match ts with
  | ⟨.ident name, _⟩ :: rest => .ok (.one name _ rest)
  | ts => .error (unexpected "identifier" ts)

/-- The names of sorts start with a capital letter, behind any number of `#`. -/
def isSortName (name : String) : Bool :=
  (name.toList.dropWhile (· == '#')).head?.any Text.isUppercase

/-- Takes the name of a sort. -/
def sort (ts : List Token) : Except ParseError (Parsed SortName ts) := do
  let name ← ident ts
  if isSortName name.value then .ok (name.map SortName.mk)
  else .error (.found (.notSortName name.value) (peek ts).span)

end Parse

end RewriteSemantics
