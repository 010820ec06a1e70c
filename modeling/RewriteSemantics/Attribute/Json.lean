/-
# Attributes as documents

A marker is stored as the text `Marker`, any other value as an object with one member, which is
named for the kind of the value. Attributes are stored as an object by key.
-/
import RewriteSemantics.Attribute.Basic
import RewriteSemantics.Json.Decode

namespace RewriteSemantics

/-! ## Writing -/

namespace Location

/-- A location as an object. -/
def toJson (l : Location) : Json :=
  .obj [("line", .nat l.line), ("column", .nat l.column)]

/-- A location from an object or an array. -/
def ofJson? (json : Json) : Option Location := do
  match ← Json.fields ["line", "column"] json with
  | [line, column] =>
    some ⟨← Json.required (Json.asNatBelow Json.limit64) line,
      ← Json.required (Json.asNatBelow Json.limit64) column⟩
  | _ => none

end Location

namespace AttributeValue

/-- The document of a value. -/
def toJson : AttributeValue → Json
  | marker => .str "Marker"
  | text value => .obj [("Str", .str value)]
  | int value => .obj [("Int", .int value)]
  | bool value => .obj [("Bool", .bool value)]
  | positions values => .obj [("Ints", .list .nat values)]
  | relation pairs => .obj [("Relation", .list (fun (a, b) => .arr [.nat a, .nat b]) pairs)]
  | location place => .obj [("Location", place.toJson)]

/-- A position, which has to fit 32 bits. -/
def positionOfJson? : Json → Option Nat :=
  Json.asNatBelow Json.limit32

/-- A pair of positions. -/
def pairOfJson? : Json → Option (Nat × Nat)
  | .arr [a, b] => do some (← positionOfJson? a, ← positionOfJson? b)
  | _ => none

/-- The value a document holds. -/
def ofJson? : Json → Option AttributeValue
  | .str "Marker" => some marker
  | .obj [("Marker", .null)] => some marker
  | .obj [("Str", json)] => (Json.asText json).map text
  | .obj [("Int", json)] => (Json.asInt64 json).map int
  | .obj [("Bool", json)] => (Json.asBool json).map bool
  | .obj [("Ints", json)] => (Json.asList positionOfJson? json).map positions
  | .obj [("Relation", json)] => (Json.asList pairOfJson? json).map relation
  | .obj [("Location", json)] => (Location.ofJson? json).map location
  | _ => none

end AttributeValue

namespace Attributes

/-- The document of a set of attributes. -/
def toJson (attributes : Attributes) : Json :=
  .obj (attributes.entries.map fun (key, value) => (key, value.toJson))

/-- The attributes a document holds. Of a repeated key the last value counts. -/
def ofJson? (json : Json) : Option Attributes := do
  let members ← Json.asMembers json
  let entries ← members.mapM fun (key, value) => (AttributeValue.ofJson? value).map (key, ·)
  some (OrderedMap.ofList entries)

end Attributes

end RewriteSemantics
