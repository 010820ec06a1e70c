/-
# JSON values

The documents in which symbols, attributes and options are stored. Objects keep their members in
the order written and may repeat a key: what a repeated key means is left to whoever reads the
object. The stored values use whole numbers only; any other number is kept as it is written. So is
a text that escapes half of a surrogate pair without the other half: it has the right form but
stands for no characters, and it does no harm as long as nobody asks for its value.
-/

namespace RewriteSemantics

/-- A JSON document. -/
inductive Json where
  | null
  | bool (value : Bool)
  /-- A number written without a fraction and without an exponent. -/
  | int (value : Int)
  /-- Any other number, negative zero included, as it is written. -/
  | number (literal : String)
  | str (value : String)
  /-- A text without a value, or an object with such a text as a key, as it is written. -/
  | valueless (literal : String)
  | arr (items : List Json)
  | obj (members : List (String × Json))
  deriving Inhabited

namespace Json

/-- A whole number. -/
def nat (n : Nat) : Json :=
  .int n

/-- A value, or `null` in its absence. -/
def optional {α : Type} (encode : α → Json) : Option α → Json
  | some a => encode a
  | none => .null

/-- A list of values. -/
def list {α : Type} (encode : α → Json) (items : List α) : Json :=
  .arr (items.map encode)

end Json

end RewriteSemantics
