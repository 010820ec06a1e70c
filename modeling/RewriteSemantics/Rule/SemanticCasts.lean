/-
# Resolving casts

Casts are removed from rules and contexts. A variable that is cast somewhere takes the sort of its
first cast at all of its occurrences, and a variable that is cast on the left-hand side also has to
belong to the sort: its membership predicate becomes part of the side condition, except for the two
sorts that everything belongs to.
-/
import RewriteSemantics.Pass.Basic
import RewriteSemantics.Term.Cast

namespace RewriteSemantics

namespace SemanticCasts

/-- The sorts of cast variables by name. -/
abbrev Casts := OrderedMap String SortName

/-- The name of a variable and the sort it is directly cast to here. -/
def castHere? : Term → Option (String × SortName)
  | .app label [.var v] => (Label.castSort? label).map (v.name, ·)
  | _ => none

/-- The cast variables of some terms. The first cast of a name counts. -/
def castsOf (terms : List Term) : Casts :=
  ((terms.flatMap (·.subterms)).filterMap castHere?).foldl
    (fun casts found => casts.insertIfNew found.1 found.2) ∅

/-- Removes a cast, or gives a variable its sort. -/
def stripHere (casts : Casts) : Term → Term
  | .var v => match casts.get? v.name with
    | some sort => .var ⟨v.name, some sort⟩
    | none => .var v
  | .app label [t] => match Label.castSort? label with
    | some _ => t
    | none => .app label [t]
  | t => t

/-- A term without casts, with its cast variables sorted. -/
def strip (casts : Casts) (t : Term) : Term :=
  t.transform (stripHere casts)

/-- Whether membership in a sort says anything. -/
def needsPredicate (sort : SortName) : Bool :=
  sort ≠ .k && sort ≠ .kitem

/-- The condition that a variable belongs to a sort. -/
def membership (name : String) (sort : SortName) : Term :=
  .app sort.predicateLabel [.sortedVar name sort]

/-- A side condition with the membership of the variables cast on a left-hand side. -/
def sideCondition (skip : Bool) (requires : Option Term) (lhs : Term) : Option Term :=
  if skip then requires
  else ((castsOf [lhs]).entries.filter (needsPredicate ·.2)).foldl
    (fun condition e => some (.andBool condition (membership e.1 e.2))) requires

/-- The rule without casts. -/
def resolveRule (skip : Bool) (r : Rule) : Rule :=
  let casts := castsOf r.terms
  ⟨strip casts r.body, sideCondition skip (r.requires.map (strip casts)) r.body.lhs,
    r.ensures.map (strip casts), r.attributes⟩

/-- The context without casts. -/
def resolveContext (skip : Bool) (c : Context) : Context :=
  let casts := castsOf c.terms
  ⟨strip casts c.body, sideCondition skip (c.requires.map (strip casts)) c.body, c.attributes⟩

end SemanticCasts

/-- Removes the casts of rules and contexts. -/
def Pass.resolveCasts (skipSortPredicates : Bool) : Pass :=
  .silent "resolve-semantic-casts"
    (·.mapRulesAndContexts (SemanticCasts.resolveRule skipSortPredicates)
      (SemanticCasts.resolveContext skipSortPredicates))

end RewriteSemantics
