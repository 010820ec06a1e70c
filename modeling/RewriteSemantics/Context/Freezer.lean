/-
# Freezers

A context takes the term at its hole out for evaluation and puts the result back. Meanwhile the rest
of the context is kept in a freezer, a label over the other variables of the context. A context
stands for three sentences: the production of its freezer, a heating rule that takes the term out,
and a cooling rule that puts it back.

Contexts are numbered through all modules in the order of the names of the modules. The label of a
freezer is made of the label at the top of its context and the number of the context.
-/
import RewriteSemantics.Pass.Basic

namespace RewriteSemantics

namespace Freezer

/-- What the labels of freezers start with. -/
def stem : String := "#freezer"

/-- The number of holes in a term. -/
def holeCount (t : Term) : Nat :=
  t.occurrences.countP (·.name = Variable.hole)

/-- The label of the freezer of a context with a number. -/
def label (c : Context) (index : Nat) : String :=
  stem ++ c.body.topLabel?.getD "" ++ toString index

/-- The names of the variables that a freezer keeps, in order. -/
def frozenVariables (c : Context) : List String :=
  c.body.variableNames.toList.filter (· ≠ Variable.hole)

/-- The freezer of a context with its variables. -/
def frozen (c : Context) (index : Nat) : Term :=
  .app (label c index) ((frozenVariables c).map .ofName)

/-- The hole in front of the freezer. -/
def heated (c : Context) (index : Nat) : Term :=
  .seq [.ofName Variable.hole, frozen c index]

/-- The production of a freezer. -/
def production (c : Context) (index : Nat) : Production :=
  .labelled .kitem (label c index) ((frozenVariables c).map fun _ => .k)

/-- The rule that takes the term at the hole out. It keeps the side condition. -/
def heatRule (c : Context) (index : Nat) : Rule :=
  ⟨.rewrite c.body (heated c index), c.requires, none, c.attributes.withMarker Attributes.heat⟩

/-- The rule that puts the term back. -/
def coolRule (c : Context) (index : Nat) : Rule :=
  ⟨.rewrite (heated c index) c.body, none, none, c.attributes.withMarker Attributes.cool⟩

/-- The sentences a context with a number stands for. -/
def sentences (c : Context) (index : Nat) : Except PassError (List Sentence) :=
  if holeCount c.body = 1 then
    .ok [.production (production c index), .rule (heatRule c index), .rule (coolRule c index)]
  else .error (.contextHoles c.body (holeCount c.body))

/-! ## The pass -/

/-- Sentences with their contexts resolved, the first of which has the given number. -/
def resolveFrom (index : Nat) : List Sentence → Except PassError (List Sentence)
  | [] => .ok []
  | .context c :: rest => do
    let first ← sentences c index
    let others ← resolveFrom (index + 1) rest
    .ok (first ++ others)
  | s :: rest => do
    let others ← resolveFrom index rest
    .ok (s :: others)

/-- The number of contexts in the modules that come before a name. -/
def firstIndex (d : Definition) (name : String) : Nat :=
  ((d.modules.entries.filter fun e => (compare e.1 name).isLT).flatMap (·.2.contexts)).length

/-- The definition with its contexts resolved. -/
def resolve (d : Definition) : Except PassError Definition :=
  d.mapModules .wrongDefinition fun name m => do
    .ok { m with sentences := ← resolveFrom (firstIndex d name) m.sentences }

end Freezer

/-- Replaces contexts by heating and cooling rules. -/
def Pass.resolveContexts : Pass :=
  .silent "resolve-contexts" Freezer.resolve

end RewriteSemantics
