/-
# Sorts and signatures

A sort names a syntactic category. A signature is the shape of one production of a label: the sorts
of its arguments and the sort of its result. Both are ordered by the code points of their names,
a signature by its arguments first.
-/
import RewriteSemantics.Ordered.Set

namespace RewriteSemantics

/-! ## Sorts -/

/-- The name of a syntactic category. -/
structure SortName where
  name : String
  deriving DecidableEq, Repr, Inhabited

namespace SortName

instance : Ord SortName :=
  ⟨fun a b => compare a.name b.name⟩

instance : Std.TransOrd SortName :=
  inferInstanceAs (Std.TransCmp (compareOn name))

instance : Std.LawfulEqOrd SortName where
  eq_of_compare {a b} h := by
    have h : compare a.name b.name = .eq := h
    have h : a.name = b.name := Std.LawfulEqCmp.eq_of_compare h
    cases a; cases b; simp_all

/-- The sort of computation sequences. -/
def k : SortName := ⟨"K"⟩

/-- The general term sort every other sort is injected into. -/
def kitem : SortName := ⟨"KItem"⟩

/-- The sort of fully evaluated results. -/
def kresult : SortName := ⟨"KResult"⟩

/-- The sort of truth values. -/
def bool : SortName := ⟨"Bool"⟩

/-- The sort of integers. -/
def int : SortName := ⟨"Int"⟩

/-- The sort of texts. -/
def string : SortName := ⟨"String"⟩

/-- The sort of lists. -/
def list : SortName := ⟨"List"⟩

/-- The sort of input and output streams. -/
def stream : SortName := ⟨"Stream"⟩

/-- Sorts that begin with `#` only serve to read programs; no term of theirs is rewritten. -/
def isParserSort (s : SortName) : Bool :=
  s.name.toList.head? == some '#'

/-- The label of the membership predicate of a sort. -/
def predicateLabel (s : SortName) : String :=
  "is" ++ s.name

end SortName

/-! ## Signatures -/

/-- The argument sorts and the result sort of a production. -/
structure Signature where
  args : List SortName
  result : SortName
  deriving DecidableEq, Repr, Inhabited

namespace Signature

instance : Ord Signature :=
  ⟨compareLex (compareOn args) (compareOn result)⟩

instance : Std.TransOrd Signature :=
  inferInstanceAs (Std.TransCmp (compareLex (compareOn args) (compareOn result)))

instance : Std.LawfulEqOrd Signature where
  eq_of_compare {a b} h := by
    have h : compareLex (compareOn args) (compareOn result) a b = .eq := h
    obtain ⟨hargs, hresult⟩ := compareLex_eq_eq.1 h
    have hargs : compare a.args b.args = .eq := hargs
    have hresult : compare a.result b.result = .eq := hresult
    have hargs := Std.LawfulEqCmp.eq_of_compare hargs
    have hresult := Std.LawfulEqCmp.eq_of_compare hresult
    cases a; cases b; simp_all

/-- The signature without arguments. -/
def constant (result : SortName) : Signature :=
  ⟨[], result⟩

/-- The number of arguments. -/
def arity (s : Signature) : Nat :=
  s.args.length

/-- The signature as it is shown: `(A, B) -> C`. -/
def text (s : Signature) : String :=
  "(" ++ ", ".intercalate (s.args.map (·.name)) ++ ") -> " ++ s.result.name

end Signature

end RewriteSemantics
