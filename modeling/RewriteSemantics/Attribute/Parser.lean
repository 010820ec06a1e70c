/-
# Reading attributes

An attribute list stands in brackets: `[function, smtlib("+"), strict(1, 2), binder(0 1)]`. The
value of an attribute is a text, a truth value, a name, or groups of integers: groups of one are
positions and groups of two are a relation.
-/
import RewriteSemantics.Attribute.Basic
import RewriteSemantics.Token.Reading

namespace RewriteSemantics.Parse

/-! ## Groups of integers -/

/-- Takes integers for as long as there are any. -/
def integers : (ts : List Token) → MaybeParsed (List Int) ts
  | ⟨.int value, _⟩ :: ts =>
    ((integers ts).behind.map (value :: ·)).toMaybe
  | ts => .absent [] ts

/-- Takes groups of integers with commas between them. -/
def integerGroups (ts : List Token) : MaybeParsed (List (List Int)) ts :=
  let ⟨group, rest, h⟩ := integers ts
  match rest, h with
  | ⟨.punctuation .comma, _⟩ :: more, h =>
    let others := integerGroups more
    ⟨group :: others.value, others.rest, Nat.le_of_lt (Nat.lt_of_le_of_lt others.notLonger h)⟩
  | rest, h => ⟨[group], rest, h⟩
termination_by ts.length
decreasing_by exact h

/-- A number that may be the position of an argument. -/
def position? (n : Int) : Option Nat :=
  if 0 ≤ n ∧ n < 4294967296 then some n.toNat else none

/-- A group of two integers, as a pair of positions. -/
def pair? : List Int → Option (Nat × Nat)
  | [a, b] => do some (← position? a, ← position? b)
  | _ => none

/-- A group of one integer, as a position. -/
def single? : List Int → Option Nat
  | [a] => position? a
  | _ => none

/-- The value that groups of integers stand for, if they all have the same proper size. -/
def groupsValue? (groups : List (List Int)) : Option AttributeValue :=
  if groups.all (·.length == 1) then (groups.mapM single?).map .positions
  else (groups.mapM pair?).map .relation

/-! ## Values -/

/-- The value that a name stands for: a truth value, or else its text. -/
def namedValue (name : String) : AttributeValue :=
  if name = "true" then .bool true
  else if name = "false" then .bool false
  else .text name

/-- Takes the value of an attribute behind the opening parenthesis. Nothing at all stands for a
marker. -/
def attributeValue (key : String) (ts : List Token) :
    Except ParseError (MaybeParsed AttributeValue ts) :=
  match ts with
  | ⟨.punctuation .rightParen, span⟩ :: rest =>
    .ok (.absent .marker (⟨.punctuation .rightParen, span⟩ :: rest))
  | ⟨.text value, _⟩ :: rest => .ok (Parsed.one (.text value) _ rest).toMaybe
  | ⟨.ident name, _⟩ :: rest =>
    .ok (Parsed.one (namedValue name) _ rest).toMaybe
  | ⟨.int value, span⟩ :: rest =>
    let groups := integerGroups (⟨.int value, span⟩ :: rest)
    match groupsValue? groups.value with
    | some value => .ok ⟨value, groups.rest, groups.notLonger⟩
    | none => .error (.found (.malformedValue key) span)
  | ts => .error (unexpected "attribute value" ts)

/-! ## Lists of attributes -/

/-- Takes one attribute: a key, and its value in parentheses unless it is a marker. -/
def keyed (ts : List Token) : Except ParseError (Parsed (String × AttributeValue) ts) := do
  let ⟨key, rest, h⟩ ← ident ts
  match rest, h with
  | ⟨.punctuation .leftParen, _⟩ :: more, h => do
    let ⟨value, inner, hinner⟩ ← attributeValue key more
    let close ← expect (.punctuation .rightParen) inner
    .ok ((close.map fun _ => (key, value)).within
      (Nat.le_trans hinner (Nat.le_of_lt (Nat.lt_of_succ_lt h))))
  | rest, h => .ok ⟨(key, .marker), rest, h⟩

/-- Takes attributes with commas between them, and the closing bracket. -/
def someAttributes (ts : List Token) :
    Except ParseError (Parsed (List (String × AttributeValue)) ts) := do
  let ⟨first, rest, h⟩ ← keyed ts
  match rest, h with
  | ⟨.punctuation .comma, _⟩ :: more, h => do
    have hmore := Nat.lt_of_succ_lt h
    let others ← someAttributes more
    .ok ((others.map (first :: ·)).after hmore)
  | rest, h => do
    let close ← expect (.punctuation .rightBracket) rest
    .ok ((close.map fun _ => [first]).after h)
termination_by ts.length

/-- Takes a list of attributes if there is one. Of a repeated key the last value counts. -/
def attributes (ts : List Token) : Except ParseError (MaybeParsed Attributes ts) :=
  match ts with
  | ⟨.punctuation .leftBracket, _⟩ :: more => do
    let list ← someAttributes more
    .ok (list.map OrderedMap.ofList).behind.toMaybe
  | ts => .ok (.absent ∅ ts)

end RewriteSemantics.Parse
