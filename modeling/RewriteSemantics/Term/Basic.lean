/-
# Terms

The bodies and conditions of rules, contexts and configurations. A term is a tree of label
applications, variables, literal tokens, local rewrites, computation sequences, cells, and bags of
terms that stand side by side.

Children stand in lists, so Lean generates for terms a recursor over terms and lists of terms
together. `Term.induct` is the induction principle to use instead: for a node with a list of
children it supplies the hypothesis for every child. Equality of terms is decided by a comparison
that walks both trees.
-/
import RewriteSemantics.Attribute.Basic
import RewriteSemantics.Sorts

namespace RewriteSemantics

/-! ## Variables -/

/-- A variable, which may be annotated with a sort. -/
structure Variable where
  name : String
  sort : Option SortName
  deriving DecidableEq, Inhabited

namespace Variable

/-- The placeholder of contexts, heating rules and cooling rules. -/
def hole : String := "HOLE"

/-- The anonymous variable. -/
def anonymous : String := "_"

/-- The configuration variable that holds the program. -/
def pgm : String := "$PGM"

/-- Whether a name starts with a character. -/
def nameStartsWith (mark : Char) (name : String) : Bool :=
  name.toList.head? == some mark

/-- Whether a name is that of a variable whose value is made up at each use. -/
def isFreshName (name : String) : Bool :=
  nameStartsWith '!' name

/-- Whether a name is that of a variable that may be unbound on the right-hand side. -/
def isExistentialName (name : String) : Bool :=
  nameStartsWith '?' name

/-- Whether a name is that of a variable filled in when the configuration is set up. -/
def isConfigName (name : String) : Bool :=
  nameStartsWith '$' name

/-- Whether a variable is the anonymous one. -/
def isAnonymous (v : Variable) : Bool :=
  v.name == anonymous

/-- Whether the value of a variable is made up at each use. -/
def isFresh (v : Variable) : Bool :=
  isFreshName v.name

/-- Whether a variable may be unbound on the right-hand side. -/
def isExistential (v : Variable) : Bool :=
  isExistentialName v.name

/-- Whether a variable is filled in when the configuration is set up. -/
def isConfigVar (v : Variable) : Bool :=
  isConfigName v.name

end Variable

/-! ## Terms -/

/-- The tags around the content of a cell. An open side, written `...`, lets the content go on. -/
structure CellTag where
  name : String
  attributes : Attributes
  leftOpen : Bool
  rightOpen : Bool
  deriving DecidableEq, Inhabited

namespace CellTag

/-- The tags of a closed cell without attributes. -/
def closed (name : String) : CellTag :=
  ⟨name, ∅, false, false⟩

/-- The tags of a cell that is open to the right and has no attributes. -/
def openRight (name : String) : CellTag :=
  ⟨name, ∅, false, true⟩

end CellTag

/-- A term. -/
inductive Term where
  /-- A label applied to arguments. -/
  | app (label : String) (args : List Term)
  | var (v : Variable)
  /-- A literal text of a sort. -/
  | token (text : String) (sort : SortName)
  /-- A local rewrite `lhs => rhs`. -/
  | rewrite (lhs rhs : Term)
  /-- A computation sequence `a ~> b`; the empty one is `.K`. -/
  | seq (items : List Term)
  /-- Terms side by side. -/
  | bag (items : List Term)
  /-- A cell around its content. -/
  | cell (tag : CellTag) (body : Term)
  deriving Inhabited

namespace Term

/-- Induction over terms, with a hypothesis for each child. -/
theorem induct {motive : Term → Prop}
    (app : ∀ label args, (∀ t ∈ args, motive t) → motive (.app label args))
    (var : ∀ v, motive (.var v))
    (token : ∀ text sort, motive (.token text sort))
    (rewrite : ∀ lhs rhs, motive lhs → motive rhs → motive (.rewrite lhs rhs))
    (seq : ∀ items, (∀ t ∈ items, motive t) → motive (.seq items))
    (bag : ∀ items, (∀ t ∈ items, motive t) → motive (.bag items))
    (cell : ∀ tag body, motive body → motive (.cell tag body)) (t : Term) : motive t :=
  Term.rec (motive_1 := motive) (motive_2 := fun l => ∀ t ∈ l, motive t) app var token rewrite seq
    bag cell (fun _ h => nomatch h)
    (fun _ _ head tail _ h => (List.mem_cons.1 h).elim (fun e => e ▸ head) (tail _)) t

/-! ### Equality -/

mutual

/-- Whether two terms are the same tree. -/
def same : Term → Term → Bool
  | .app f xs, .app g ys => f == g && sameAll xs ys
  | .var v, .var w => v = w
  | .token a s, .token b t => a == b && s = t
  | .rewrite a b, .rewrite c d => same a c && same b d
  | .seq xs, .seq ys => sameAll xs ys
  | .bag xs, .bag ys => sameAll xs ys
  | .cell t a, .cell u b => t = u && same a b
  | _, _ => false

/-- Whether two lists of terms are the same. -/
def sameAll : List Term → List Term → Bool
  | [], [] => true
  | x :: xs, y :: ys => same x y && sameAll xs ys
  | _, _ => false

end

theorem sameAll_iff {xs : List Term} (h : ∀ x ∈ xs, ∀ y, same x y = true ↔ x = y)
    (ys : List Term) : sameAll xs ys = true ↔ xs = ys := by
  induction xs generalizing ys with
  | nil => cases ys <;> simp [sameAll]
  | cons x xs ih =>
    cases ys with
    | nil => simp [sameAll]
    | cons y ys =>
      simp [sameAll, h x (by simp), ih (fun x hx => h x (List.mem_cons_of_mem _ hx))]

theorem same_iff (t u : Term) : same t u = true ↔ t = u := by
  induction t using induct generalizing u with
  | app f xs ih => cases u <;> simp [same, sameAll_iff ih]
  | var v => cases u <;> simp [same]
  | token a s => cases u <;> simp [same]
  | rewrite a b iha ihb => cases u <;> simp [same, iha, ihb]
  | seq xs ih => cases u <;> simp [same, sameAll_iff ih]
  | bag xs ih => cases u <;> simp [same, sameAll_iff ih]
  | cell t a ih => cases u <;> simp [same, ih]

instance : DecidableEq Term := fun t u =>
  decidable_of_iff _ (same_iff t u)

/-! ### Building -/

/-- A label without arguments. -/
def constant (label : String) : Term :=
  .app label []

/-- A variable without a sort. -/
def ofName (name : String) : Term :=
  .var ⟨name, none⟩

/-- A variable of a sort. -/
def sortedVar (name : String) (sort : SortName) : Term :=
  .var ⟨name, some sort⟩

/-- An integer literal, written in decimal. -/
def int (value : Int) : Term :=
  .token (toString value) .int

/-- A literal truth value. -/
def bool (value : Bool) : Term :=
  .token (toString value) .bool

/-- A closed cell. -/
def closedCell (name : String) (body : Term) : Term :=
  .cell (.closed name) body

/-- A cell whose content goes on to the right. -/
def openCell (name : String) (body : Term) : Term :=
  .cell (.openRight name) body

/-- Whether a term is the literal `true`. -/
def isTrue (t : Term) : Bool :=
  t = .bool true

/-- The conjunction of a condition, which may be missing or trivially true, with another. -/
def andBool (left : Option Term) (right : Term) : Term :=
  match left with
  | none => right
  | some left => if left.isTrue then right else .app "_andBool_" [left, right]

/-- The items of a term taken as part of a sequence: those of a sequence, else the term itself. -/
def sequenceItems : Term → List Term
  | .seq items => items
  | t => [t]

/-- The sequence of some terms, with sequences among them dissolved. A single item stands for
itself. -/
def sequence (items : List Term) : Term :=
  match items.flatMap sequenceItems with
  | [item] => item
  | flat => .seq flat

/-- A term with another one beside it, behind the items that stand side by side already. -/
def beside (t extra : Term) : Term :=
  match t with
  | .bag items => .bag (items ++ [extra])
  | t => .bag [t, extra]

/-! ### Inspecting -/

/-- Whether a term is a cell. -/
def isCell : Term → Bool
  | .cell .. => true
  | _ => false

/-- Whether a term is a cell of a name. -/
def isCellNamed (name : String) : Term → Bool
  | .cell tag _ => tag.name == name
  | _ => false

/-- The variable a term is. -/
def asVariable? : Term → Option Variable
  | .var v => some v
  | _ => none

/-- The children of a term, left to right. -/
def children : Term → List Term
  | .app _ args => args
  | .var _ => []
  | .token .. => []
  | .rewrite lhs rhs => [lhs, rhs]
  | .seq items => items
  | .bag items => items
  | .cell _ body => [body]

/-- The label at the head of the left-hand side. -/
def topLabel? : Term → Option String
  | .app label _ => some label
  | .rewrite lhs _ => lhs.topLabel?
  | _ => none

end Term

/-! ## Labels -/

/-- The label of the cell of a name. -/
def cellLabel (name : String) : String :=
  "<" ++ name ++ ">"

end RewriteSemantics
