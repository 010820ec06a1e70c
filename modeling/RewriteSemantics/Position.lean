/-
# Places in a text

A position counts the bytes of the text in UTF-8 before a place, and names the place by its line
and, within the line, by its column in characters. Lines and columns start at 1. A span is a range
of bytes together with the line and column where it starts.
-/

namespace RewriteSemantics

/-- A line and a column of a text. -/
structure Location where
  line : Nat
  column : Nat
  deriving DecidableEq, Repr, Inhabited

namespace Location

/-- The location as a phrase: `line 3, column 5`. -/
def text (l : Location) : String :=
  "line " ++ toString l.line ++ ", column " ++ toString l.column

end Location

/-- A range of bytes and the place where it starts. -/
structure Span where
  start : Nat
  stop : Nat
  line : Nat
  column : Nat
  deriving DecidableEq, Repr, Inhabited

namespace Span

/-- The line and column where a span starts. -/
def location (s : Span) : Location :=
  ⟨s.line, s.column⟩

/-- The span of a message that belongs to no place. -/
def nowhere : Span :=
  ⟨0, 0, 0, 0⟩

end Span

/-- A place between two characters of a text. -/
structure Position where
  /-- The number of bytes before the place. -/
  offset : Nat
  line : Nat
  column : Nat
  deriving DecidableEq, Repr, Inhabited

namespace Position

/-- The place before the first character. -/
def start : Position :=
  ⟨0, 1, 1⟩

/-- The place behind one more character. -/
def step (p : Position) (c : Char) : Position :=
  if c = '\n' then ⟨p.offset + c.utf8Size, p.line + 1, 1⟩
  else ⟨p.offset + c.utf8Size, p.line, p.column + 1⟩

/-- The place behind a stretch of text. -/
def advance (p : Position) (text : List Char) : Position :=
  text.foldl step p

/-- The span from one place to another. -/
def spanTo (p q : Position) : Span :=
  ⟨p.offset, q.offset, p.line, p.column⟩

@[simp] theorem advance_nil (p : Position) : p.advance [] = p :=
  rfl

@[simp] theorem advance_cons (p : Position) (c : Char) (text : List Char) :
    p.advance (c :: text) = (p.step c).advance text :=
  rfl

theorem advance_append (p : Position) (s t : List Char) :
    p.advance (s ++ t) = (p.advance s).advance t :=
  List.foldl_append

end Position

end RewriteSemantics
