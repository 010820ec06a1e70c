/-
# Sentences

The declarations a module is made of: sorts, productions, rules, contexts and configurations, each
with attributes.
-/
import RewriteSemantics.Term.Printer
import RewriteSemantics.Term.Traversal

namespace RewriteSemantics

/-- The declaration of a sort. -/
structure SortDecl where
  sort : SortName
  attributes : Attributes
  deriving DecidableEq, Inhabited

/-! ## Productions -/

/-- A production of a sort: a label with parameters, or parameters without a label. With a single
parameter and no label it makes that sort a subsort. -/
structure Production where
  sort : SortName
  label : Option String
  params : List SortName
  attributes : Attributes
  deriving DecidableEq, Inhabited

namespace Production

/-- A production of a label, without attributes. -/
def labelled (sort : SortName) (label : String) (params : List SortName) : Production :=
  ⟨sort, some label, params, ∅⟩

/-- The production that makes one sort a subsort of another, without attributes. -/
def subsort (sort sub : SortName) : Production :=
  ⟨sort, none, [sub], ∅⟩

/-- The signature of a production. -/
def signature (p : Production) : Signature :=
  ⟨p.params, p.sort⟩

/-- Whether a production declares a subsort. -/
def isSubsort (p : Production) : Bool :=
  p.label.isNone && p.params.length == 1

/-- The number of parameters. -/
def arity (p : Production) : Nat :=
  p.params.length

/-- Whether a production declares a function, a sort predicate being one too. -/
def isFunction (p : Production) : Bool :=
  p.attributes.contains Attributes.function || p.attributes.contains Attributes.predicate

/-- Whether a production is marked as a sort predicate. -/
def isPredicate (p : Production) : Bool :=
  p.attributes.contains Attributes.predicate

/-- A production as it is shown. -/
def shown (p : Production) : String :=
  let params := p.params.map (·.name)
  let body := match p.label with
    | some label => label ++ "(" ++ ", ".intercalate params ++ ")"
    | none => " ".intercalate params
  "syntax " ++ p.sort.name ++ " ::= " ++ body ++ p.attributes.shownBehind

end Production

/-! ## Rules -/

/-- A side condition as it is shown behind a body. -/
def shownCondition (keyword : String) : Option Term → String
  | some t => " " ++ keyword ++ " " ++ t.shown
  | none => ""

/-- A rewrite rule with an optional side condition and an optional promise. -/
structure Rule where
  body : Term
  requires : Option Term
  ensures : Option Term
  attributes : Attributes
  deriving DecidableEq, Inhabited

namespace Rule

/-- A rule without conditions and attributes. -/
def ofBody (body : Term) : Rule :=
  ⟨body, none, none, ∅⟩

/-- Whether a rule is marked as a heating rule. -/
def isHeat (r : Rule) : Bool :=
  r.attributes.contains Attributes.heat

/-- Whether a rule is marked as a cooling rule. -/
def isCool (r : Rule) : Bool :=
  r.attributes.contains Attributes.cool

/-- The terms of a rule: its body, its side condition and its promise. -/
def terms (r : Rule) : List Term :=
  r.body :: (r.requires.toList ++ r.ensures.toList)

/-- The names of all variables of a rule. -/
def variableNames (r : Rule) : OrderedSet String :=
  .ofList (r.terms.flatMap (·.variableNames.toList))

/-- A rule as it is shown. -/
def shown (r : Rule) : String :=
  "rule " ++ r.body.shown ++ shownCondition "requires" r.requires ++
    shownCondition "ensures" r.ensures ++ r.attributes.shownBehind

end Rule

/-! ## Contexts and configurations -/

/-- An evaluation context: a term with a hole, and an optional side condition. -/
structure Context where
  body : Term
  requires : Option Term
  attributes : Attributes
  deriving DecidableEq, Inhabited

namespace Context

/-- The terms of a context: its body and its side condition. -/
def terms (c : Context) : List Term :=
  c.body :: c.requires.toList

/-- The names of all variables of a context. -/
def variableNames (c : Context) : OrderedSet String :=
  .ofList (c.terms.flatMap (·.variableNames.toList))

/-- A context as it is shown. Its attributes are not. -/
def shown (c : Context) : String :=
  "context " ++ c.body.shown ++ shownCondition "requires" c.requires

end Context

/-- The initial configuration: a tree of cells. -/
structure Configuration where
  body : Term
  attributes : Attributes
  deriving DecidableEq, Inhabited

/-! ## Sentences -/

/-- A declaration of a module. -/
inductive Sentence where
  | sort (decl : SortDecl)
  | production (p : Production)
  | rule (r : Rule)
  | context (c : Context)
  | configuration (c : Configuration)
  deriving DecidableEq, Inhabited

namespace Sentence

/-- The attributes of a sentence. -/
def attributes : Sentence → Attributes
  | sort decl => decl.attributes
  | production p => p.attributes
  | rule r => r.attributes
  | context c => c.attributes
  | configuration c => c.attributes

/-- The word for the kind of a sentence. -/
def kind : Sentence → String
  | sort _ => "syntax"
  | production _ => "production"
  | rule _ => "rule"
  | context _ => "context"
  | configuration _ => "configuration"

/-- The production a sentence is. -/
def asProduction? : Sentence → Option Production
  | production p => some p
  | _ => none

/-- The rule a sentence is. -/
def asRule? : Sentence → Option Rule
  | rule r => some r
  | _ => none

/-- The context a sentence is. -/
def asContext? : Sentence → Option Context
  | context c => some c
  | _ => none

/-- The configuration a sentence is. -/
def asConfiguration? : Sentence → Option Configuration
  | configuration c => some c
  | _ => none

/-- The sort a sentence declares or produces. -/
def sort? : Sentence → Option SortName
  | sort decl => some decl.sort
  | production p => some p.sort
  | _ => none

/-- A sentence as it is shown. Declarations of sorts and configurations have no shown form. -/
def shown? : Sentence → Option String
  | production p => some p.shown
  | rule r => some r.shown
  | context c => some c.shown
  | _ => none

end Sentence

end RewriteSemantics
