/-
# Terms as they are shown

The text of a term. A label is shown as it is if it is plain and between backquotes otherwise; a
literal of one of the three built-in kinds is shown as it is written in a definition, and any other
literal as `#token("text", "Sort")`. Content of a cell stands between blanks, or beside `...` on an
open side.
-/
import RewriteSemantics.Term.Basic

namespace RewriteSemantics

namespace Label

/-- Whether a character may start a plain label. -/
def isPlainStart (c : Char) : Bool :=
  c.isLower || c == '#' || c == '.'

/-- Whether a character may continue a plain label. -/
def isPlainRest (c : Char) : Bool :=
  c.isAlphanum || c == '-'

/-- Plain labels are shown without backquotes: an ASCII lower-case letter, `#` or `.`, and then
ASCII letters, digits and hyphens. -/
def isPlain (label : String) : Bool :=
  match label.toList with
  | [] => false
  | c :: rest => isPlainStart c && rest.all isPlainRest

/-- A label as it is shown. -/
def shown (label : String) : String :=
  if isPlain label then label else "\x60" ++ label ++ "\x60"

end Label

namespace Variable

/-- A variable as it is shown: its name, and its sort behind a colon. -/
def shown (v : Variable) : String :=
  match v.sort with
  | some sort => v.name ++ ":" ++ sort.name
  | none => v.name

end Variable

namespace CellTag

/-- The tag before the content of a cell. -/
def opening (tag : CellTag) : String :=
  cellLabel tag.name ++ if tag.leftOpen then "... " else " "

/-- The tag behind the content of a cell. -/
def closing (tag : CellTag) : String :=
  (if tag.rightOpen then " ..." else " ") ++ "</" ++ tag.name ++ ">"

end CellTag

namespace Term

/-- A literal as it is shown. -/
def shownToken (text : String) (sort : SortName) : String :=
  if sort = .int ∨ sort = .bool then text
  else if sort = .string then "\"" ++ text ++ "\""
  else "#token(\"" ++ text ++ "\", \"" ++ sort.name ++ "\")"

mutual

/-- The text of a term. -/
def shown : Term → String
  | .app label args =>
    if args.isEmpty then Label.shown label
    else Label.shown label ++ "(" ++ ", ".intercalate (shownAll args) ++ ")"
  | .var v => v.shown
  | .token text sort => shownToken text sort
  | .rewrite lhs rhs => "(" ++ shown lhs ++ " => " ++ shown rhs ++ ")"
  | .seq items => if items.isEmpty then ".K" else " ~> ".intercalate (shownAll items)
  | .bag items => if items.isEmpty then ".Bag" else " ".intercalate (shownAll items)
  | .cell tag body => tag.opening ++ shown body ++ tag.closing

/-- The texts of the members of a list. -/
def shownAll : List Term → List String
  | [] => []
  | t :: ts => shown t :: shownAll ts

end

end Term

end RewriteSemantics
