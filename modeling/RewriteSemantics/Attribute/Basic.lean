/-
# Attributes

Modules, productions, rules, contexts, configurations and cells carry attributes: a map from keys
to values of seven kinds. A value is read as the kind that its reader expects; a value of another
kind is an error that names both kinds.
-/
import RewriteSemantics.Ordered.Map
import RewriteSemantics.Position

namespace RewriteSemantics

/-! ## Values -/

/-- The value of an attribute. -/
inductive AttributeValue where
  /-- A bare key, as in `[function]`. -/
  | marker
  /-- A text, as in `[smtlib("+")]`. -/
  | text (value : String)
  /-- An integer. -/
  | int (value : Int)
  /-- A truth value. -/
  | bool (value : Bool)
  /-- A list of argument positions, as in `[strict(1, 2)]`. -/
  | positions (values : List Nat)
  /-- A list of pairs of argument positions, as in `[binder(0 1)]`. -/
  | relation (pairs : List (Nat × Nat))
  /-- A place in a source text. -/
  | location (place : Location)
  deriving DecidableEq, Repr, Inhabited

namespace AttributeValue

/-- The name of the kind of a value. -/
def kind : AttributeValue → String
  | marker => "Marker"
  | text _ => "Str"
  | int _ => "Int"
  | bool _ => "Bool"
  | positions _ => "Ints"
  | relation _ => "Relation"
  | location _ => "Location"

/-- The value as it is shown between the parentheses of an attribute. Texts are shown between
quotation marks and not escaped. -/
def shown : AttributeValue → String
  | marker => ""
  | text value => "\"" ++ value ++ "\""
  | int value => toString value
  | bool value => toString value
  | positions values => ", ".intercalate (values.map toString)
  | relation pairs => ", ".intercalate (pairs.map fun (a, b) => toString a ++ " " ++ toString b)
  | location place => toString place.line ++ ":" ++ toString place.column

/-- Whether a value is a bare marker. -/
def isMarker : AttributeValue → Bool
  | marker => true
  | _ => false

/-- The content of a text. -/
def asText? : AttributeValue → Option String
  | text value => some value
  | _ => none

/-- The content of an integer. -/
def asInt? : AttributeValue → Option Int
  | int value => some value
  | _ => none

/-- The content of a truth value. -/
def asBool? : AttributeValue → Option Bool
  | bool value => some value
  | _ => none

/-- The content of a list of positions. -/
def asPositions? : AttributeValue → Option (List Nat)
  | positions values => some values
  | _ => none

/-- The content of a relation. -/
def asRelation? : AttributeValue → Option (List (Nat × Nat))
  | relation pairs => some pairs
  | _ => none

/-- The content of a location. -/
def asLocation? : AttributeValue → Option Location
  | location place => some place
  | _ => none

/-- The rank of the kind of a value in the order of values. -/
def rank : AttributeValue → Nat
  | marker => 0
  | text _ => 1
  | int _ => 2
  | bool _ => 3
  | positions _ => 4
  | relation _ => 5
  | location _ => 6

/-- Pairs are ordered by their first component and then by their second. -/
def comparePairs : Nat × Nat → Nat × Nat → Ordering :=
  compareLex (compareOn (·.1)) (compareOn (·.2))

/-- Values are ordered by kind and then by content. -/
def order : AttributeValue → AttributeValue → Ordering
  | text a, text b => compare a b
  | int a, int b => compare a b
  | bool a, bool b => compare a b
  | positions a, positions b => compare a b
  | relation a, relation b => List.compareLex comparePairs a b
  | location a, location b => comparePairs (a.line, a.column) (b.line, b.column)
  | a, b => compare a.rank b.rank

instance : Ord AttributeValue :=
  ⟨order⟩

end AttributeValue

/-! ## Attribute maps -/

/-- The attributes of an entity, by key. -/
abbrev Attributes := OrderedMap String AttributeValue

/-- An attribute was read as a value of another kind than it has. -/
inductive AttributeError where
  | typeMismatch (key expected actual : String)
  deriving DecidableEq, Repr, Inhabited

namespace AttributeError

/-- The wording of an error. -/
def message : AttributeError → String
  | typeMismatch key expected actual =>
    "Attribute '" ++ key ++ "' has type " ++ actual ++ ", expected " ++ expected

end AttributeError

namespace Attributes

/-! ### Keys with a meaning -/

def function : String := "function"
def predicate : String := "predicate"
def pattern : String := "pattern"
def smtlib : String := "smtlib"
def strict : String := "strict"
def seqstrict : String := "seqstrict"
def heat : String := "heat"
def cool : String := "cool"
def binder : String := "binder"
def metabinder : String := "metabinder"
def stream : String := "stream"
def freshGenerator : String := "freshGenerator"
def klabel : String := "klabel"
def source : String := "source"
def location : String := "location"
def cell : String := "cell"
def label : String := "label"

/-- The attributes with a bare key added. -/
def withMarker (attributes : Attributes) (key : String) : Attributes :=
  attributes.insert key .marker

/-- Both sets of attributes; the right one wins where both have a key. -/
def merge (left right : Attributes) : Attributes :=
  left.insertAll right.entries

/-! ### Reading a value of a kind -/

/-- Reads an attribute with a reader for one kind. -/
def read? {α : Type} (expected : String) (content? : AttributeValue → Option α)
    (attributes : Attributes) (key : String) : Except AttributeError (Option α) :=
  match attributes.get? key with
  | none => .ok none
  | some value => match content? value with
    | some content => .ok (some content)
    | none => .error (.typeMismatch key expected value.kind)

/-- Reads a text. A marker reads as if the attribute were not there. -/
def text? (attributes : Attributes) (key : String) : Except AttributeError (Option String) :=
  if attributes.get? key = some .marker then .ok none
  else attributes.read? "Str" AttributeValue.asText? key

/-- Reads an integer. -/
def int? (attributes : Attributes) (key : String) : Except AttributeError (Option Int) :=
  attributes.read? "Int" AttributeValue.asInt? key

/-- Reads a truth value. -/
def bool? (attributes : Attributes) (key : String) : Except AttributeError (Option Bool) :=
  attributes.read? "Bool" AttributeValue.asBool? key

/-- Reads a list of positions. A marker reads as the empty list. -/
def positions? (attributes : Attributes) (key : String) :
    Except AttributeError (Option (List Nat)) :=
  if attributes.get? key = some .marker then .ok (some [])
  else attributes.read? "Ints" AttributeValue.asPositions? key

/-- Reads a relation. -/
def relation? (attributes : Attributes) (key : String) :
    Except AttributeError (Option (List (Nat × Nat))) :=
  attributes.read? "Relation" AttributeValue.asRelation? key

/-- Reads a location. -/
def location? (attributes : Attributes) (key : String) :
    Except AttributeError (Option Location) :=
  attributes.read? "Location" AttributeValue.asLocation? key

/-- The name of the text an entity was read from, if its attributes tell. -/
def sourceName (attributes : Attributes) : Option String :=
  (attributes.get? source).bind AttributeValue.asText?

/-- The place an entity was read from, if its attributes tell. -/
def place (attributes : Attributes) : Option Location :=
  (attributes.get? location).bind AttributeValue.asLocation?

/-! ### Showing -/

/-- An attribute as it is shown: the key alone for a marker, else `key(value)`. -/
def shownEntry (key : String) (value : AttributeValue) : String :=
  if value.isMarker then key else key ++ "(" ++ value.shown ++ ")"

/-- Attributes as they are shown: `[a, b("c")]`, and nothing if there are none. -/
def shown (attributes : Attributes) : String :=
  if attributes.isEmpty then ""
  else "[" ++ ", ".intercalate (attributes.entries.map fun (k, v) => shownEntry k v) ++ "]"

/-- A blank and the attributes as they are shown, or nothing if there are none. -/
def shownBehind (attributes : Attributes) : String :=
  if attributes.isEmpty then "" else " " ++ attributes.shown

/-- Sets of attributes are ordered as lists of entries. -/
def order (a b : Attributes) : Ordering :=
  List.compareLex (compareLex (compareOn (·.1)) (compareOn (·.2))) a.entries b.entries

end Attributes

end RewriteSemantics
