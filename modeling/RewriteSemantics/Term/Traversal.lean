/-
# Walking terms

The subterms of a term from the root down, its variables, its two sides, and its images under a
function applied from the leaves up. Each walk is a pair of functions, one on terms and one on the
lists of their children.
-/
import RewriteSemantics.Term.Basic

namespace RewriteSemantics.Term

/-! ## Subterms -/

mutual

/-- All subterms, each before its own children, and children left to right. -/
def subterms : Term → List Term
  | .app label args => .app label args :: subtermsAll args
  | .var v => [.var v]
  | .token text sort => [.token text sort]
  | .rewrite lhs rhs => .rewrite lhs rhs :: (subterms lhs ++ subterms rhs)
  | .seq items => .seq items :: subtermsAll items
  | .bag items => .bag items :: subtermsAll items
  | .cell tag body => .cell tag body :: subterms body

/-- The subterms of the members of a list. -/
def subtermsAll : List Term → List Term
  | [] => []
  | t :: ts => subterms t ++ subtermsAll ts

end

/-- Whether some subterm satisfies a condition. -/
def anySubterm (p : Term → Bool) (t : Term) : Bool :=
  t.subterms.any p

/-- Whether a cell occurs in a term. -/
def hasCells (t : Term) : Bool :=
  t.anySubterm isCell

/-- Whether a cell of a name occurs in a term. -/
def mentionsCell (name : String) (t : Term) : Bool :=
  t.anySubterm (isCellNamed name)

/-! ## Variables -/

mutual

/-- All occurrences of variables, left to right. -/
def occurrences : Term → List Variable
  | .app _ args => occurrencesAll args
  | .var v => [v]
  | .token .. => []
  | .rewrite lhs rhs => occurrences lhs ++ occurrences rhs
  | .seq items => occurrencesAll items
  | .bag items => occurrencesAll items
  | .cell _ body => occurrences body

/-- The occurrences of variables in the members of a list. -/
def occurrencesAll : List Term → List Variable
  | [] => []
  | t :: ts => occurrences t ++ occurrencesAll ts

end

/-- The names of the variables of a term. -/
def variableNames (t : Term) : OrderedSet String :=
  .ofList (t.occurrences.map (·.name))

theorem mem_variableNames {t : Term} {name : String} :
    name ∈ t.variableNames ↔ ∃ v ∈ t.occurrences, v.name = name := by
  simp [variableNames]

/-! ## Sides -/

mutual

/-- The left-hand side: every rewrite gives way to its left-hand side. -/
def lhs : Term → Term
  | .app label args => .app label (lhsAll args)
  | .var v => .var v
  | .token text sort => .token text sort
  | .rewrite l _ => lhs l
  | .seq items => .seq (lhsAll items)
  | .bag items => .bag (lhsAll items)
  | .cell tag body => .cell tag (lhs body)

/-- The left-hand sides of the members of a list. -/
def lhsAll : List Term → List Term
  | [] => []
  | t :: ts => lhs t :: lhsAll ts

end

mutual

/-- The right-hand side: every rewrite gives way to its right-hand side. -/
def rhs : Term → Term
  | .app label args => .app label (rhsAll args)
  | .var v => .var v
  | .token text sort => .token text sort
  | .rewrite _ r => rhs r
  | .seq items => .seq (rhsAll items)
  | .bag items => .bag (rhsAll items)
  | .cell tag body => .cell tag (rhs body)

/-- The right-hand sides of the members of a list. -/
def rhsAll : List Term → List Term
  | [] => []
  | t :: ts => rhs t :: rhsAll ts

end

/-! ## Images -/

mutual

/-- Rebuilds a term from the leaves up, with a function applied to each rebuilt node. -/
def transform (f : Term → Term) : Term → Term
  | .app label args => f (.app label (transformAll f args))
  | .var v => f (.var v)
  | .token text sort => f (.token text sort)
  | .rewrite l r => f (.rewrite (transform f l) (transform f r))
  | .seq items => f (.seq (transformAll f items))
  | .bag items => f (.bag (transformAll f items))
  | .cell tag body => f (.cell tag (transform f body))

/-- The images of the members of a list. -/
def transformAll (f : Term → Term) : List Term → List Term
  | [] => []
  | t :: ts => transform f t :: transformAll f ts

end

mutual

/-- Rebuilds a term from the leaves up with a function that may fail. The first failure in the
order of the walk, children first and left to right, is the failure of the whole. -/
def tryTransform {ε : Type} (f : Term → Except ε Term) : Term → Except ε Term
  | .app label args => do f (.app label (← tryTransformAll f args))
  | .var v => f (.var v)
  | .token text sort => f (.token text sort)
  | .rewrite l r => do
    let l ← tryTransform f l
    let r ← tryTransform f r
    f (.rewrite l r)
  | .seq items => do f (.seq (← tryTransformAll f items))
  | .bag items => do f (.bag (← tryTransformAll f items))
  | .cell tag body => do f (.cell tag (← tryTransform f body))

/-- The images of the members of a list under a function that may fail. -/
def tryTransformAll {ε : Type} (f : Term → Except ε Term) : List Term → Except ε (List Term)
  | [] => .ok []
  | t :: ts => do
    let t ← tryTransform f t
    let ts ← tryTransformAll f ts
    .ok (t :: ts)

end

/-! ## Renaming along the way -/

mutual

/-- Replaces the variables from left to right by images that may depend on a state, which each image
hands on to the next. -/
def threadVariables {σ : Type} (f : Variable → σ → Variable × σ) : Term → σ → Term × σ
  | .app label args, s =>
    let (args, s) := threadVariablesAll f args s
    (.app label args, s)
  | .var v, s =>
    let (v, s) := f v s
    (.var v, s)
  | .token text sort, s => (.token text sort, s)
  | .rewrite l r, s =>
    let (l, s) := threadVariables f l s
    let (r, s) := threadVariables f r s
    (.rewrite l r, s)
  | .seq items, s =>
    let (items, s) := threadVariablesAll f items s
    (.seq items, s)
  | .bag items, s =>
    let (items, s) := threadVariablesAll f items s
    (.bag items, s)
  | .cell tag body, s =>
    let (body, s) := threadVariables f body s
    (.cell tag body, s)

/-- Replaces the variables of the members of a list. -/
def threadVariablesAll {σ : Type} (f : Variable → σ → Variable × σ) :
    List Term → σ → List Term × σ
  | [], s => ([], s)
  | t :: ts, s =>
    let (t, s) := threadVariables f t s
    let (ts, s) := threadVariablesAll f ts s
    (t :: ts, s)

end

/-- Replaces the variables of an optional term. -/
def threadVariables? {σ : Type} (f : Variable → σ → Variable × σ) :
    Option Term → σ → Option Term × σ
  | none, s => (none, s)
  | some t, s =>
    let (t, s) := threadVariables f t s
    (some t, s)

end RewriteSemantics.Term
