/-
# Strictness

A strict production asks that arguments be evaluated before the label is. For every strict position
there is a context with the hole at that position. Under sequential strictness the arguments at the
positions listed earlier have to be results already, so the context names them and says so in its
side condition.
-/
import RewriteSemantics.Pass.Basic

namespace RewriteSemantics

/-- The label of the predicate of results. -/
def resultPredicate : String := "isKResult"

namespace Strict

/-! ## Positions -/

/-- How a production is strict. Positions count from 1. -/
structure Strictness where
  positions : List Nat
  sequential : Bool
  deriving DecidableEq, Repr, Inhabited

/-- The key of the attribute that makes a production strict, and whether it is the sequential one.
The sequential one wins. -/
def key? (attributes : Attributes) : Option (String × Bool) :=
  if attributes.contains Attributes.seqstrict then some (Attributes.seqstrict, true)
  else if attributes.contains Attributes.strict then some (Attributes.strict, false)
  else none

/-- The positions an attribute lists, or all of them if it lists none. -/
def positions (listed : Option (List Nat)) (arity : Nat) : List Nat :=
  match listed with
  | some (first :: others) => first :: others
  | _ => List.range' 1 arity

/-- Whether a number is the position of a parameter. -/
def isPosition (arity n : Nat) : Bool :=
  n != 0 && n ≤ arity

/-- The label of a strict production and how it is strict. -/
def ofProduction (p : Production) : Except PassError (Option (String × Strictness)) :=
  match key? p.attributes with
  | none => .ok none
  | some (key, sequential) =>
    match p.label with
    | none => .error (.unlabelledStrict key p)
    | some label => do
      let listed ← (p.attributes.positions? key).mapError .wrongAttribute
      let positions := positions listed p.arity
      match positions.find? (!isPosition p.arity ·) with
      | some bad => .error (.strictPosition label bad p.arity)
      | none => .ok (some (label, ⟨positions, sequential⟩))

/-! ## Contexts -/

/-- The variable that stands for the argument at an earlier position. -/
def resultVariable (position : Nat) : Term :=
  .ofName ("K" ++ toString position)

/-- The arguments around a hole: a named variable at the earlier positions, and anonymous ones
elsewhere. -/
def arguments (arity position : Nat) (earlier : List Nat) : List Term :=
  (List.range' 1 arity).map fun j =>
    if j = position then .ofName Variable.hole
    else if j ∈ earlier then resultVariable j
    else .ofName Variable.anonymous

/-- The condition that the arguments at some positions are results. -/
def resultCondition (earlier : List Nat) : Option Term :=
  earlier.foldl
    (fun condition j => some (.andBool condition (.app resultPredicate [resultVariable j]))) none

/-- The context of a position. -/
def contextAt (label : String) (arity position : Nat) (earlier : List Nat) : Context :=
  ⟨.app label (arguments arity position earlier), resultCondition earlier, ∅⟩

/-- The contexts of some positions, given the positions before them. -/
def contextsFrom (label : String) (arity : Nat) (sequential : Bool) (earlier : List Nat) :
    List Nat → List Context
  | [] => []
  | position :: others =>
    contextAt label arity position (if sequential then earlier else []) ::
      contextsFrom label arity sequential (earlier ++ [position]) others

/-- The contexts of a strict production. -/
def contexts (label : String) (arity : Nat) (strictness : Strictness) : List Context :=
  contextsFrom label arity strictness.sequential [] strictness.positions

/-! ## The pass -/

/-- A sentence with the contexts of a strict production behind it. -/
def resolveSentence : Sentence → Except PassError (List Sentence)
  | .production p => do
    match ← ofProduction p with
    | some (label, strictness) =>
      .ok (.production p :: (contexts label p.arity strictness).map .context)
    | none => .ok [.production p]
  | s => .ok [s]

end Strict

/-- Adds the contexts of strict productions. -/
def Pass.resolveStrict : Pass :=
  .silent "resolve-strict" (·.mapSentences Strict.resolveSentence)

end RewriteSemantics
