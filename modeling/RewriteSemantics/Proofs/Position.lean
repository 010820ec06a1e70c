/-
# Places counted from the start of a text

A position is carried along character by character. Counted from the start of a text, it says how
many bytes stand before the place, how many ends of lines there are among them, and how many
characters stand behind the last of these.
-/
import Mathlib
import RewriteSemantics.Position

namespace RewriteSemantics.Position

/-- The place behind the first part of a text, counted from this part alone. -/
def behind (before : String) : Position where
  offset := before.utf8ByteSize
  line := 1 + before.toList.count '\n'
  column := 1 + (before.toList.reverse.takeWhile (· != '\n')).length

theorem behind_append_singleton (before : List Char) (c : Char) :
    behind (String.ofList (before ++ [c])) = (behind (String.ofList before)).step c := by
  have hbytes : (String.ofList (before ++ [c])).utf8ByteSize =
      (String.ofList before).utf8ByteSize + c.utf8Size := by
    simp
  -- An end of line starts a new line; any other character moves on within the line.
  by_cases hc : c = '\n'
  · subst hc
    rw [step, if_pos rfl, behind, behind, hbytes]
    simp [Nat.add_assoc]
  · rw [step, if_neg hc, behind, behind, hbytes]
    simp [hc, Nat.add_comm]

/-- A position that is carried along from the start of a text counts what it has passed. -/
theorem advance_start (before : List Char) :
    start.advance before = behind (String.ofList before) := by
  induction before using List.reverseRecOn with
  | nil => rfl
  | append_singleton before c ih =>
    rw [advance_append, ih, behind_append_singleton]
    rfl

end RewriteSemantics.Position
