/-
# Fresh constants

A variable marked with `!` stands for a value that is made up each time its rule is applied. Such a
rule reads a counter and advances it by the number of values it makes up; each of its values is the
image of a number of its own under the generator function of its sort.
-/
import RewriteSemantics.Configuration.Counter
import RewriteSemantics.Rule.AnonymousVariables

namespace RewriteSemantics

namespace FreshConstants

/-- The label of integer addition. -/
def plusLabel : String := "_+Int_"

/-- The sum of two terms. -/
def plus (left right : Term) : Term :=
  .app plusLabel [left, right]

/-- The variables of a rule whose values are made up, with their sorts. They are looked for on the
right-hand side and in the promise; the first occurrence gives the sort, which is that of integers
if it has none. -/
def freshVariables (r : Rule) : OrderedMap String SortName :=
  (((r.body.rhs :: r.ensures.toList).flatMap (·.occurrences)).filter (·.isFresh)).foldl
    (fun found v => found.insertIfNew v.name (v.sort.getD .int)) ∅

/-- The function that makes up values of a sort: the first production of the sort that is marked as
a generator. -/
def generatorFor (d : Definition) (sort : SortName) : Except PassError String :=
  match (d.productions.find? fun p =>
      p.sort = sort && p.attributes.contains Attributes.freshGenerator).bind (·.label) with
  | some label => .ok label
  | none => .error (.missingFreshGenerator sort)

/-- The value that is made up for a number: the generator applied to the counter plus that
number. -/
def value (generator : String) (counter : Term) (offset : Nat) : Term :=
  .app generator [plus counter (.int offset)]

/-- The values for some variables, which are numbered from the given number on. -/
def valuesFrom (d : Definition) (counter : Term) (offset : Nat) :
    List (String × SortName) → Except PassError (List (String × Term))
  | [] => .ok []
  | (name, sort) :: rest => do
    let generator ← generatorFor d sort
    let others ← valuesFrom d counter (offset + 1) rest
    .ok ((name, value generator counter offset) :: others)

/-- Replaces a variable that has a value. -/
def replaceHere (values : List (String × Term)) : Term → Term
  | .var v => (values.lookup v.name).getD (.var v)
  | t => t

/-- A term with the values of its variables. -/
def replace (values : List (String × Term)) (t : Term) : Term :=
  t.transform (replaceHere values)

/-- The counter cell of a rule that makes up a number of values. -/
def counterCell (counter : Term) (count : Nat) : Term :=
  .closedCell Counter.cellName (.rewrite counter (plus counter (.int count)))

/-- The variable for the counter in a rule. -/
def counterOf (r : Rule) : Term :=
  .sortedVar ((FreshNames.avoiding r.variableNames).fresh generatedStem).1 .int

/-- The rule with its made-up values. -/
def resolveRule (d : Definition) (r : Rule) : Except PassError Rule :=
  let fresh := freshVariables r
  if fresh.isEmpty then .ok r
  else do
    let counter := counterOf r
    let values ← valuesFrom d counter 0 fresh.entries
    .ok ⟨(replace values r.body).beside (counterCell counter fresh.size),
      r.requires.map (replace values), r.ensures.map (replace values), r.attributes⟩

/-- The number of rules of a definition that make up values. -/
def ruleCount (d : Definition) : Nat :=
  d.rules.countP fun r => !(freshVariables r).isEmpty

/-- The definition with made-up values, and with a counter cell if any rule needs it. -/
def resolve (computationCell : String) (d : Definition) : Except PassError Definition := do
  let resolved ← d.mapRules (resolveRule d)
  if ruleCount d = 0 then .ok resolved else Counter.declare computationCell resolved

/-- What is reported of making up values. -/
def report (d : Definition) : List LogEntry :=
  match d.mapRules (resolveRule d) with
  | .error _ => []
  | .ok _ =>
    if ruleCount d = 0 then []
    else [⟨.debug, toString (ruleCount d) ++ " rules use fresh constants"⟩]

end FreshConstants

/-- Makes up values for the variables marked with `!`. -/
def Pass.resolveFreshConstants (computationCell : String) : Pass :=
  ⟨"resolve-fresh-constants", FreshConstants.resolve computationCell, FreshConstants.report⟩

end RewriteSemantics
