/-
# Character classes

Which characters may start a name, continue one, separate tokens or mark a name as a sort or a
variable. The classes are those of the Unicode standard: Alphabetic, White_Space and Uppercase, and
for `isAlphanumeric` also the numeric categories. ASCII characters are decided directly and the
rest by the tables.
-/
import RewriteSemantics.Text.CharTable

namespace RewriteSemantics.Text

/-- Whether a code point lies in one of the inclusive runs. -/
def inRuns (runs : List (Nat × Nat)) (code : Nat) : Bool :=
  runs.any fun run => run.1 ≤ code && code ≤ run.2

/-- Whether a code point is one of the members of a strided run. -/
def StridedRun.contains (run : StridedRun) (code : Nat) : Bool :=
  run.first ≤ code && code ≤ run.last && (code - run.first) % run.stride == 0

/-- Letters and letter-like marks: the Alphabetic property. -/
def isAlphabetic (c : Char) : Bool :=
  if c.toNat < 128 then c.isAlpha else inRuns alphabeticRuns c.toNat

/-- Decimal digits, letter numbers and other numbers of any script. -/
def isNumeric (c : Char) : Bool :=
  if c.toNat < 128 then c.isDigit else inRuns numericRuns c.toNat

/-- Letters and numbers of any script. -/
def isAlphanumeric (c : Char) : Bool :=
  isAlphabetic c || isNumeric c

/-- Blanks, tabulators and line ends of any script: the White_Space property. In ASCII these are
the space and the five control characters from the tabulator to the carriage return. -/
def isWhitespace (c : Char) : Bool :=
  if c.toNat < 128 then c == ' ' || (9 ≤ c.toNat && c.toNat ≤ 13)
  else inRuns whitespaceRuns c.toNat

/-- Capital letters and letter-like capitals: the Uppercase property. -/
def isUppercase (c : Char) : Bool :=
  if c.toNat < 128 then c.isUpper else uppercaseRuns.any (·.contains c.toNat)

/-- The characters a name is continued with: letters, numbers, `_` and `-`. -/
def isNameChar (c : Char) : Bool :=
  isAlphanumeric c || c == '_' || c == '-'

end RewriteSemantics.Text
