/-
# Sorts and signatures as documents

A sort is stored as its name and a signature as an object. A set of signatures is stored as the list
of its members; a member that is listed twice counts once.
-/
import RewriteSemantics.Json.Decode
import RewriteSemantics.Sorts

namespace RewriteSemantics

namespace SortName

/-- The document of a sort. -/
def toJson (s : SortName) : Json :=
  .str s.name

/-- The sort a document holds. -/
def ofJson? (json : Json) : Option SortName :=
  (Json.asText json).map SortName.mk

end SortName

namespace Signature

/-- The document of a signature. -/
def toJson (s : Signature) : Json :=
  .obj [("args", .list SortName.toJson s.args), ("result", s.result.toJson)]

/-- The signature a document holds. -/
def ofJson? (json : Json) : Option Signature := do
  match ← Json.fields ["args", "result"] json with
  | [args, result] =>
    some ⟨← Json.required (Json.asList SortName.ofJson?) args,
      ← Json.required SortName.ofJson? result⟩
  | _ => none

/-- The document of a set of signatures. -/
def setToJson (signatures : OrderedSet Signature) : Json :=
  .list toJson signatures.toList

/-- The set of signatures a document holds. -/
def setOfJson? (json : Json) : Option (OrderedSet Signature) :=
  (Json.asList ofJson? json).map OrderedSet.ofList

end Signature

end RewriteSemantics
