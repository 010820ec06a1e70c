/-
# Symbols

A symbol is a label that has been given a number, its ordinal, together with the context it was
declared in: its signatures and its attributes. What kind of label it is follows from these and
from the sorts there are: a label `is<S>` of a sort `S` is the membership predicate of that sort,
whatever its attributes say; any other label is what its attributes make it.
-/
import RewriteSemantics.Attribute.Basic
import RewriteSemantics.Sorts
import RewriteSemantics.Term.Cast

namespace RewriteSemantics

/-- A label in the context it was declared in. -/
structure SymbolKey where
  label : String
  signatures : OrderedSet Signature
  attributes : Attributes
  deriving DecidableEq, Inhabited

/-- A numbered label. -/
structure Symbol where
  label : String
  ordinal : Nat
  signatures : OrderedSet Signature
  attributes : Attributes
  isFunction : Bool
  isPattern : Bool
  /-- The sort that the label is the membership predicate of. -/
  predicateSort : Option SortName
  /-- The name of the label in SMT-LIB. -/
  smtlib : Option String
  deriving DecidableEq, Inhabited

namespace Symbol

/-! ## Creation -/

/-- The sort that a label is the membership predicate of, among some sorts. -/
def predicateSort? (label : String) (sorts : OrderedSet SortName) : Option SortName :=
  ((Label.behind? "is" label).map SortName.mk).filter (· ∈ sorts)

/-- The symbol of a key with an ordinal, given the sorts there are. -/
def ofKey (key : SymbolKey) (ordinal : Nat) (sorts : OrderedSet SortName) : Symbol :=
  match predicateSort? key.label sorts with
  | some sort =>
    ⟨key.label, ordinal, key.signatures, key.attributes, true, false, some sort, none⟩
  | none =>
    { label := key.label
      ordinal := ordinal
      signatures := key.signatures
      attributes := key.attributes
      isFunction := key.attributes.contains Attributes.function ||
        key.attributes.contains Attributes.predicate
      isPattern := key.attributes.contains Attributes.pattern
      predicateSort := none
      smtlib := match key.attributes.text? Attributes.smtlib with
        | .ok name => name
        | .error _ => none }

@[simp] theorem ordinal_ofKey (key : SymbolKey) (ordinal : Nat) (sorts : OrderedSet SortName) :
    (ofKey key ordinal sorts).ordinal = ordinal := by
  unfold ofKey
  split <;> rfl

/-! ## Inspection -/

/-- The label and context of a symbol. -/
def key (s : Symbol) : SymbolKey :=
  ⟨s.label, s.signatures, s.attributes⟩

@[simp] theorem key_ofKey (key : SymbolKey) (ordinal : Nat) (sorts : OrderedSet SortName) :
    (ofKey key ordinal sorts).key = key := by
  unfold ofKey
  split <;> rfl

/-- Whether a symbol builds terms instead of being evaluated. -/
def isConstructor (s : Symbol) : Bool :=
  !s.isFunction

/-- Whether a symbol is the membership predicate of a sort. -/
def isSortPredicate (s : Symbol) : Bool :=
  s.predicateSort.isSome

/-- Whether a symbol binds variables. -/
def isBinder (s : Symbol) : Bool :=
  s.attributes.contains Attributes.binder

/-- Whether a symbol binds variables of the meta level. -/
def isMetaBinder (s : Symbol) : Bool :=
  s.attributes.contains Attributes.metabinder

/-- The positions bound by a binder with the positions of their scopes, if they are given. -/
def binderMap (s : Symbol) : Option (List (Nat × Nat)) :=
  (s.attributes.get? Attributes.binder).bind AttributeValue.asRelation?

/-- The positions bound by a binder of the meta level with the positions of their scopes. -/
def metaBinderMap (s : Symbol) : Option (List (Nat × Nat)) :=
  (s.attributes.get? Attributes.metabinder).bind AttributeValue.asRelation?

/-- The label and the ordinal: `foo#3`. -/
def shown (s : Symbol) : String :=
  s.label ++ "#" ++ toString s.ordinal

end Symbol

end RewriteSemantics
