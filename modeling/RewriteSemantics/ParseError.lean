/-
# Errors in texts

What can be wrong with a text that is read as a definition, a module, a rule or a term, and where.
-/
import RewriteSemantics.Definition.Imports

namespace RewriteSemantics

/-- What is wrong with a text. -/
inductive ParseProblem where
  | unterminatedComment
  | unexpectedCharacter (c : Char)
  /-- Two dots without a third. -/
  | incompleteEllipsis
  | malformedTag
  | malformedTagAttribute (key cell : String)
  | unterminatedLabel
  | emptyLabel
  | unterminatedText
  | invalidEscape (c : Char)
  | unterminatedEscape
  /-- An integer that does not fit a signed word of 64 bits. -/
  | integerOutOfRange (literal : String)
  /-- Another token than the grammar asks for. -/
  | unexpectedToken (expected found : String)
  | notSortName (name : String)
  | mismatchedTags (opened closed : String)
  | malformedValue (key : String)
  /-- The modules were read but form no definition. -/
  | noDefinition (fault : DefinitionError)
  deriving DecidableEq, Repr, Inhabited

namespace ParseProblem

/-- The wording of a problem. -/
def message : ParseProblem → String
  | unterminatedComment => "unterminated block comment"
  | unexpectedCharacter c => "unexpected character '" ++ c.toString ++ "'"
  | incompleteEllipsis => "expected '...'"
  | malformedTag => "malformed cell tag"
  | malformedTagAttribute key cell =>
    "malformed attribute '" ++ key ++ "' in cell <" ++ cell ++ ">"
  | unterminatedLabel => "unterminated quoted label"
  | emptyLabel => "empty quoted label"
  | unterminatedText => "unterminated string literal"
  | invalidEscape c => "invalid escape sequence '\\" ++ c.toString ++ "'"
  | unterminatedEscape => "unterminated escape sequence"
  | integerOutOfRange literal => "invalid integer literal '" ++ literal ++ "'"
  | unexpectedToken expected found => "expected " ++ expected ++ ", found " ++ found
  | notSortName name => "'" ++ name ++ "' is not a sort name"
  | mismatchedTags opened closed => "cell <" ++ opened ++ "> closed by </" ++ closed ++ ">"
  | malformedValue key => "malformed value for attribute '" ++ key ++ "'"
  | noDefinition fault => fault.message

end ParseProblem

/-- A problem, where it is, and the name of the text it is in, if the text has one. -/
structure ParseError where
  problem : ParseProblem
  span : Span
  source : Option String
  deriving DecidableEq, Repr, Inhabited

namespace ParseError

/-- A problem at a place of a text without a name. -/
def found (problem : ParseProblem) (span : Span) : ParseError :=
  ⟨problem, span, none⟩

/-- The error in a text of a name. -/
def inSource (source : String) (e : ParseError) : ParseError :=
  { e with source := some source }

/-- Modules that form no definition. Such a fault has no place in the text. -/
def ofFault (fault : DefinitionError) : ParseError :=
  .found (.noDefinition fault) .nowhere

/-- The wording of an error. -/
def message (e : ParseError) : String :=
  (match e.source with
    | some source => source ++ ": "
    | none => "") ++
  "Parse error at line " ++ toString e.span.line ++ ", column " ++ toString e.span.column ++ ": " ++
  e.problem.message

end ParseError

end RewriteSemantics
