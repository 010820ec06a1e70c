/-
# Tokens

The smallest parts of a text that mean something: keywords, names and literals, the tags of cells
and punctuation. The last token of a text stands for its end.
-/
import RewriteSemantics.Position

namespace RewriteSemantics

/-- A word with a fixed meaning. -/
inductive Keyword where
  | module
  | endModule
  | imports
  | sort
  | rule
  | context
  | configuration
  | requires
  | ensures
  deriving DecidableEq, Repr

namespace Keyword

/-- The spelling of a keyword. -/
def spelling : Keyword → String
  | module => "module"
  | endModule => "endmodule"
  | imports => "imports"
  | sort => "syntax"
  | rule => "rule"
  | context => "context"
  | configuration => "configuration"
  | requires => "requires"
  | ensures => "ensures"

/-- The keywords. -/
def all : List Keyword :=
  [module, endModule, imports, sort, rule, context, configuration, requires, ensures]

/-- The keyword of a spelling. -/
def ofSpelling? (name : String) : Option Keyword :=
  all.find? (·.spelling = name)

end Keyword

/-- A punctuation mark. -/
inductive Punctuation where
  | leftParen
  | rightParen
  | leftBracket
  | rightBracket
  | comma
  | colon
  | definedAs
  | arrow
  | followedBy
  | ellipsis
  deriving DecidableEq, Repr

namespace Punctuation

/-- The spelling of a punctuation mark. -/
def spelling : Punctuation → String
  | leftParen => "("
  | rightParen => ")"
  | leftBracket => "["
  | rightBracket => "]"
  | comma => ","
  | colon => ":"
  | definedAs => "::="
  | arrow => "=>"
  | followedBy => "~>"
  | ellipsis => "..."

end Punctuation

/-- What a token is, with the payload of names, literals and tags. -/
inductive TokenKind where
  | keyword (word : Keyword)
  /-- A name: of a sort, a label, a module, a variable or an attribute. -/
  | ident (name : String)
  /-- A label between backquotes. -/
  | quoted (label : String)
  | int (value : Int)
  | text (value : String)
  /-- The tag that opens a cell, with its attributes as they are written. -/
  | cellOpen (name : String) (attributes : List (String × String))
  | cellClose (name : String)
  | punctuation (mark : Punctuation)
  /-- The end of the text. -/
  | finish
  deriving DecidableEq, Repr, Inhabited

namespace TokenKind

/-- The name of a kind of token in messages. -/
def name : TokenKind → String
  | keyword word => word.spelling
  | ident _ => "identifier"
  | quoted _ => "quoted label"
  | int _ => "integer"
  | text _ => "string"
  | cellOpen .. => "cell"
  | cellClose _ => "cell end"
  | punctuation mark => mark.spelling
  | finish => "end of input"

/-- Whether a term can start with a token. -/
def startsTerm : TokenKind → Bool
  | ident _ => true
  | quoted _ => true
  | int _ => true
  | text _ => true
  | cellOpen .. => true
  | punctuation mark => mark = .leftParen
  | _ => false

end TokenKind

/-- A token and the part of the text it stands in. -/
structure Token where
  kind : TokenKind
  span : Span
  deriving DecidableEq, Repr, Inhabited

end RewriteSemantics
