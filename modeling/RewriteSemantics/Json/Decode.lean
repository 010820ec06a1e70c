/-
# Reading values out of documents

Each reader takes a document and answers the value it holds, or nothing if the document has the
wrong form. A record may be written as an object, whose members may come in any order, or as the
array of its fields in their fixed order. An object may hold members the record does not know but
must not repeat one that it does.
-/
import RewriteSemantics.Json.Basic

namespace RewriteSemantics.Json

/-- The first number that does not fit a word of 32 bits. -/
def limit32 : Nat := 4294967296

/-- The first number that does not fit a word of 64 bits. -/
def limit64 : Nat := 18446744073709551616

/-- A text. -/
def asText : Json → Option String
  | .str value => some value
  | _ => none

/-- A truth value. -/
def asBool : Json → Option Bool
  | .bool value => some value
  | _ => none

/-- A whole number that fits a signed word of 64 bits. -/
def asInt64 : Json → Option Int
  | .int value =>
    if -9223372036854775808 ≤ value ∧ value < 9223372036854775808 then some value else none
  | _ => none

/-- A natural number below a limit. -/
def asNatBelow (limit : Nat) : Json → Option Nat
  | .int value => if 0 ≤ value ∧ value < limit then some value.toNat else none
  | _ => none

/-- A list of values. -/
def asList {α : Type} (decode : Json → Option α) : Json → Option (List α)
  | .arr items => items.mapM decode
  | _ => none

/-- A value that may be `null`. -/
def asOptional {α : Type} (decode : Json → Option α) : Json → Option (Option α)
  | .null => some none
  | json => (decode json).map some

/-- The members of an object. -/
def asMembers : Json → Option (List (String × Json))
  | .obj members => some members
  | _ => none

/-- The values of a member, for each time the object has it. -/
def valuesOf (members : List (String × Json)) (name : String) : List Json :=
  (members.filter (·.1 = name)).map (·.2)

/-- The fields of a record, in the order of their names; a field that is not there is `none`. -/
def fields (names : List String) : Json → Option (List (Option Json))
  | .obj members => names.mapM fun name =>
    match valuesOf members name with
    | [] => some none
    | [value] => some (some value)
    | _ => none
  | .arr items =>
    if items.length ≤ names.length then
      some (items.map some ++ List.replicate (names.length - items.length) none)
    else none
  | _ => none

/-- A field that has to be there. -/
def required {α : Type} (decode : Json → Option α) : Option Json → Option α
  | some json => decode json
  | none => none

/-- A field with a value to use when it is not there. -/
def withDefault {α : Type} (default : α) (decode : Json → Option α) : Option Json → Option α
  | some json => decode json
  | none => some default

end RewriteSemantics.Json
