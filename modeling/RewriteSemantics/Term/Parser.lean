/-
# Reading terms

The grammar of terms, from the loosest binding to the tightest: a rewrite `a => b`, a sequence
`a ~> b`, terms side by side, casts `a:S`, and single terms. The readers call one another along
this order, so at the same place only a tighter one is called, and any looser one further right.
-/
import RewriteSemantics.Term.Cast
import RewriteSemantics.Token.Reading
import RewriteSemantics.Token.Scan

namespace RewriteSemantics

namespace Parse

/-! ## Casts -/

/-- Takes any number of annotations `:S`. -/
def annotations (ts : List Token) : Except ParseError (MaybeParsed (List SortName) ts) :=
  match ts with
  | ⟨.punctuation .colon, _⟩ :: more => do
    let ⟨first, rest, h⟩ ← sort more
    let others ← annotations rest
    .ok ⟨first :: others.value, others.rest,
      Nat.le_of_lt (Nat.lt_of_le_of_lt others.notLonger (Nat.lt_succ_of_lt h))⟩
  | ts => .ok (.absent [] ts)
termination_by ts.length
decreasing_by exact Nat.lt_succ_of_lt h

/-- A term cast to one sort after the other. -/
def castTo (t : Term) (sorts : List SortName) : Term :=
  sorts.foldl (fun t s => .app (Label.cast s) [t]) t

/-! ## Single terms -/

/-- The names of variables start with a capital letter or `_`, or with one of the three marks. -/
def isVariableName (name : String) : Bool :=
  match name.toList.head? with
  | some c => Text.isUppercase c || c == '_' || c == '!' || c == '?' || c == '$'
  | none => false

/-- The attributes of a cell from the members of its tag. The last member of a name counts. -/
def cellAttributes (members : List (String × String)) : Attributes :=
  .ofList (members.map fun (key, value) => (key, .text value))

/-- Takes the tag that closes a cell, with an ellipsis before it if the cell is open to the
right. -/
def closeCell (name : String) (members : List (String × String)) (leftOpen : Bool) (body : Term)
    (ts : List Token) : Except ParseError (Parsed Term ts) :=
  let ⟨rightOpen, inner, h⟩ := skip (.punctuation .ellipsis) ts
  match inner, h with
  | ⟨.cellClose closing, span⟩ :: rest, h =>
    if closing = name then
      .ok ⟨.cell ⟨name, cellAttributes members, leftOpen, rightOpen⟩ body, rest, h⟩
    else .error (.found (.mismatchedTags name closing) span)
  | inner, _ => .error (unexpected ("</" ++ name ++ ">") inner)

/-- What a single term starts with. -/
inductive Head where
  /-- An opening parenthesis. -/
  | group
  /-- The tag that opens a cell. -/
  | cell (name : String) (members : List (String × String))
  /-- A term of one token. -/
  | leaf (t : Term)
  /-- A label, which may be applied to arguments. -/
  | label (label : String)
  /-- No term starts here. -/
  | nothing

/-- What a name starts. The three names of literals are literals; the name of a variable is one
unless arguments follow; any other name is a label. -/
def headOfName (name : String) (behind : List Token) : Head :=
  if name = "true" then .leaf (.bool true)
  else if name = "false" then .leaf (.bool false)
  else if name = ".K" then .leaf (.seq [])
  else if isVariableName name && !at? (.punctuation .leftParen) behind then .leaf (.ofName name)
  else .label name

/-- What a token starts, given the tokens behind it. -/
def headOf (kind : TokenKind) (behind : List Token) : Head :=
  match kind with
  | .punctuation .leftParen => .group
  | .cellOpen name members => .cell name members
  | .int value => .leaf (.int value)
  | .text value => .leaf (.token value .string)
  | .ident name => headOfName name behind
  | .quoted label => .label label
  | _ => .nothing

/-- Some terms side by side. A single one stands for itself. -/
def bagOf : List Term → Term
  | [item] => item
  | items => .bag items

/-- Some terms in sequence. A single one stands for itself. -/
def sequenceOf : List Term → Term
  | [item] => item
  | items => .sequence items

/-! ## The grammar -/

mutual

/-- Takes a term: a sequence, or a rewrite from one sequence to another. -/
def term (ts : List Token) : Except ParseError (Parsed Term ts) := do
  let ⟨lhs, rest, h⟩ ← sequence ts
  match rest, h with
  | ⟨.punctuation .arrow, _⟩ :: more, h => do
    have hmore := Nat.lt_of_succ_lt h
    let rhs ← sequence more
    .ok ((rhs.map (.rewrite lhs)).after hmore)
  | rest, h => .ok ⟨lhs, rest, h⟩
termination_by (ts.length, 7)

/-- Takes a sequence. -/
def sequence (ts : List Token) : Except ParseError (Parsed Term ts) := do
  let items ← sequenceItems ts
  .ok (items.map sequenceOf)
termination_by (ts.length, 6)

/-- Takes the items of a sequence: terms side by side, with `~>` between them. -/
def sequenceItems (ts : List Token) : Except ParseError (Parsed (List Term) ts) := do
  let ⟨first, rest, h⟩ ← juxtaposition ts
  match rest, h with
  | ⟨.punctuation .followedBy, _⟩ :: more, h => do
    have hmore := Nat.lt_of_succ_lt h
    let others ← sequenceItems more
    .ok ((others.map (first :: ·)).after hmore)
  | rest, h => .ok ⟨[first], rest, h⟩
termination_by (ts.length, 5)

/-- Takes terms side by side. -/
def juxtaposition (ts : List Token) : Except ParseError (Parsed Term ts) := do
  let items ← juxtaposed ts
  .ok (items.map bagOf)
termination_by (ts.length, 4)

/-- Takes casts for as long as a term can start. -/
def juxtaposed (ts : List Token) : Except ParseError (Parsed (List Term) ts) := do
  let ⟨first, rest, h⟩ ← cast ts
  if startsTerm rest then
    let others ← juxtaposed rest
    .ok ((others.map (first :: ·)).after h)
  else .ok ⟨[first], rest, h⟩
termination_by (ts.length, 3)

/-- Takes a single term and the sorts it is cast to. -/
def cast (ts : List Token) : Except ParseError (Parsed Term ts) := do
  let ⟨t, rest, h⟩ ← primary ts
  let sorts ← annotations rest
  .ok ⟨castTo t sorts.value, sorts.rest, Nat.lt_of_le_of_lt sorts.notLonger h⟩
termination_by (ts.length, 2)

/-- Takes a single term. -/
def primary (ts : List Token) : Except ParseError (Parsed Term ts) :=
  match ts with
  | [] => .error (unexpected "term" [])
  | t :: behind =>
    match headOf t.kind behind with
    | .group => do
      let ⟨inner, rest, h⟩ ← term behind
      let close ← expect (.punctuation .rightParen) rest
      .ok ((close.map fun _ => inner).after h).behind
    | .cell name members =>
      let ⟨leftOpen, inner, hinner⟩ := skip (.punctuation .ellipsis) behind
      if startsTerm inner then do
        let ⟨body, rest, h⟩ ← term inner
        let cell ← closeCell name members leftOpen body rest
        .ok (cell.after (Nat.lt_of_lt_of_le h hinner)).behind
      else do
        let cell ← closeCell name members leftOpen (.bag []) inner
        .ok (cell.within hinner).behind
    | .leaf leaf => .ok (.one leaf t behind)
    | .label label =>
      match behind with
      | ⟨.punctuation .leftParen, _⟩ :: more => do
        let args ← arguments more
        .ok (args.map (.app label)).behind.behind
      | rest => .ok (.one (.app label []) t rest)
    | .nothing => .error (unexpected "term" (t :: behind))
termination_by (ts.length, 1)

/-- Takes arguments behind an opening parenthesis, and the closing one. -/
def arguments (ts : List Token) : Except ParseError (Parsed (List Term) ts) :=
  match ts with
  | ⟨.punctuation .rightParen, _⟩ :: rest => .ok (.one [] _ rest)
  | ts => someArguments ts
termination_by (ts.length, 9)

/-- Takes one or more arguments, with commas between them, and the closing parenthesis. -/
def someArguments (ts : List Token) : Except ParseError (Parsed (List Term) ts) := do
  let ⟨first, rest, h⟩ ← term ts
  match rest, h with
  | ⟨.punctuation .comma, _⟩ :: more, h => do
    have hmore := Nat.lt_of_succ_lt h
    let others ← someArguments more
    .ok ((others.map (first :: ·)).after hmore)
  | rest, h => do
    let close ← expect (.punctuation .rightParen) rest
    .ok ((close.map fun _ => [first]).after h)
termination_by (ts.length, 8)

end

end Parse

/-- The term that a text writes. -/
def Term.parse (text : String) : Except ParseError Term := do
  let ts ← tokenize text
  let t ← Parse.term ts
  Parse.expectFinish t.rest
  .ok t.value

end RewriteSemantics
