/-
# Built-in modules

The modules that every definition is compiled with, as a text: the sorts of terms with the functions
that generated rules apply, and the sorts for reading programs.
-/

namespace RewriteSemantics.Builtin

/-- The name of the module of terms. -/
def termModule : String := "K-TERM"

/-- The name of the module for reading programs. -/
def programModule : String := "ID-PROGRAM-PARSING"

/-- The name of the generated module that injects every sort into the general one. -/
def semanticsModule : String := "SEMANTICS"

/-- The name of the generated module for reading programs of the defined language. -/
def languageModule : String := "LANGUAGE-PARSING"

/-- The text of the built-in modules. -/
def text : String := "
module K-TERM
  syntax K
  syntax KItem
  syntax KResult
  syntax Bool
  syntax Int
  syntax String
  syntax K ::= KItem
  syntax KItem ::= KResult
  syntax Bool ::= isKResult(K) [function, predicate(KResult)]
  syntax Bool ::= notBool(Bool) [function, smtlib(\"not\")]
  syntax Bool ::= \x60_andBool_\x60(Bool, Bool) [function, smtlib(\"and\")]
  syntax Int ::= \x60_+Int_\x60(Int, Int) [function, smtlib(\"+\")]
  syntax Int ::= freshInt(Int) [function, freshGenerator]
endmodule

module ID-PROGRAM-PARSING
  imports K-TERM
  syntax Id
  syntax #Layout
endmodule
"

end RewriteSemantics.Builtin
