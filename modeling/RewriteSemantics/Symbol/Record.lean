/-
# Stored symbols

The form in which a symbol is stored. What follows from the label and its context is left out,
except the sort of a membership predicate, which also depends on the sorts there were.
-/
import RewriteSemantics.Attribute.Json
import RewriteSemantics.Sorts.Json
import RewriteSemantics.Symbol.Basic

namespace RewriteSemantics

/-- A stored symbol. -/
structure SymbolRecord where
  label : String
  ordinal : Nat
  signatures : OrderedSet Signature
  attributes : Attributes
  predicateSort : Option SortName
  deriving DecidableEq, Inhabited

namespace SymbolRecord

/-- The label and context of a stored symbol. -/
def key (r : SymbolRecord) : SymbolKey :=
  ⟨r.label, r.signatures, r.attributes⟩

/-- The document of a stored symbol. A missing sort is left out. -/
def toJson (r : SymbolRecord) : Json :=
  .obj ([("label", .str r.label), ("ordinal", .nat r.ordinal),
    ("signatures", Signature.setToJson r.signatures), ("attributes", r.attributes.toJson)] ++
    match r.predicateSort with
    | some sort => [("predicate_sort", sort.toJson)]
    | none => [])

/-- The stored symbol a document holds. -/
def ofJson? (json : Json) : Option SymbolRecord := do
  match ← Json.fields ["label", "ordinal", "signatures", "attributes", "predicate_sort"] json with
  | [label, ordinal, signatures, attributes, predicateSort] =>
    some ⟨← Json.required Json.asText label,
      ← Json.required (Json.asNatBelow Json.limit64) ordinal,
      ← Json.required Signature.setOfJson? signatures,
      ← Json.required Attributes.ofJson? attributes,
      ← Json.withDefault none (Json.asOptional SortName.ofJson?) predicateSort⟩
  | _ => none

end SymbolRecord

/-- The stored form of a symbol. -/
def Symbol.toRecord (s : Symbol) : SymbolRecord :=
  ⟨s.label, s.ordinal, s.signatures, s.attributes, s.predicateSort⟩

end RewriteSemantics
