/-
# Reading modules and definitions

A module stands between the keywords `module` and `endmodule`: its name, then imports and sentences
in any order. A text is read as one module or as any number of them.
-/
import RewriteSemantics.Definition.Basic
import RewriteSemantics.Sentence.Parser

namespace RewriteSemantics

namespace Parse

/-! ## Modules -/

/-- What stands in a module: an import or a sentence. -/
inductive Item where
  | imports (name : String)
  | sentence (s : Sentence)

/-- Takes an import or a sentence. At the end of the text the last keyword of the module is
missed. -/
def item (ts : List Token) : Except ParseError (Parsed Item ts) :=
  match ts with
  | ⟨.keyword .imports, _⟩ :: more => do
    let name ← ident more
    .ok (name.map .imports).behind
  | ts =>
    if at? .finish ts then .error (unexpected Keyword.endModule.spelling ts)
    else do
      let s ← sentence ts
      .ok (s.map .sentence)

/-- Takes the items of a module up to its last keyword. -/
def items (ts : List Token) : Except ParseError (Parsed (List Item) ts) :=
  match ts with
  | ⟨.keyword .endModule, _⟩ :: rest => .ok (.one [] _ rest)
  | ts => do
    let ⟨first, rest, h⟩ ← item ts
    let others ← items rest
    .ok ((others.map (first :: ·)).after h)
termination_by ts.length

/-- The module of a name with some items. -/
def moduleOf (name : String) (items : List Item) (attributes : Attributes) : Module where
  name := name
  imports := items.filterMap fun
    | .imports name => some name
    | .sentence _ => none
  sentences := items.filterMap fun
    | .imports _ => none
    | .sentence s => some s
  attributes := attributes

/-- Takes a module. -/
def module (ts : List Token) : Except ParseError (Parsed Module ts) := do
  let ⟨_, rest, _⟩ ← expect (.keyword .module) ts
  let ⟨name, rest, _⟩ ← ident rest
  let ⟨items, rest, _⟩ ← items rest
  let ⟨attributes, rest, _⟩ ← attributes rest
  .ok ⟨moduleOf name items attributes, rest, by omega⟩

/-- Takes modules up to the end of the text. -/
def modules (ts : List Token) : Except ParseError (List Module) :=
  if at? .finish ts then .ok []
  else do
    let ⟨first, rest, _⟩ ← module ts
    let others ← modules rest
    .ok (first :: others)
termination_by ts.length

end Parse

/-- The module that a text writes. -/
def Module.parse (text : String) : Except ParseError Module := do
  let ts ← tokenize text
  let m ← Parse.module ts
  Parse.expectFinish m.rest
  .ok m.value

/-- The modules that a text writes. -/
def Module.parseAll (text : String) : Except ParseError (List Module) := do
  Parse.modules (← tokenize text)

/-- The definition that a text writes, with a main module and without attributes. -/
def Definition.parse (text main : String) : Except ParseError Definition := do
  let modules ← Module.parseAll text
  (Definition.ofModules main modules ∅).mapError .ofFault

end RewriteSemantics
