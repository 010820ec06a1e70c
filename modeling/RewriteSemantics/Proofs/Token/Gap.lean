/-
# What stands between tokens

Blanks and complete comments are skipped, and nothing else. Skipping stops in front of a character
that is no blank, so skipping again moves nowhere.
-/
import Mathlib
import RewriteSemantics.Proofs.Token.Spelling

namespace RewriteSemantics.Scan

/-- Blanks and complete comments. A comment up to the end of its line may end with the text instead,
where this is the last gap of the text. -/
inductive IsGap (last : Prop) : List Char → Prop
  | nil : IsGap last []
  | blank {c : Char} {cs : List Char} :
      Text.isWhitespace c = true → IsGap last cs → IsGap last (c :: cs)
  | lineComment {body cs : List Char} :
      '\n' ∉ body → IsGap last cs → IsGap last ('/' :: '/' :: (body ++ '\n' :: cs))
  | openLineComment {body : List Char} : last → '\n' ∉ body → IsGap last ('/' :: '/' :: body)
  | blockComment {body cs : List Char} :
      ¬['*', '/'] <:+: body → IsGap last cs → IsGap last ('/' :: '*' :: (body ++ '*' :: '/' :: cs))

/-- What is skipped while a gap or one of its comments is read. -/
def IsSkipped (last : Prop) : Skipping → List Char → Prop
  | .blanks, cs => IsGap last cs
  | .lineComment, cs =>
    (∃ body rest, cs = body ++ '\n' :: rest ∧ '\n' ∉ body ∧ IsGap last rest) ∨ last ∧ '\n' ∉ cs
  | .blockComment _, cs =>
    ∃ body rest, cs = body ++ '*' :: '/' :: rest ∧ ¬['*', '/'] <:+: body ∧ IsGap last rest

variable {mode : Skipping} {p : Position} {cs : List Char} {d : Cursor}

/-- A character in front of the body of a comment does not end the comment, unless it is a star and
a slash follows it. -/
theorem not_infix_cons {c : Char} {body : List Char} (rest : List Char)
    (hbody : ¬['*', '/'] <:+: body) (h : ∀ more, c = '*' → body ++ '*' :: rest ≠ '/' :: more) :
    ¬['*', '/'] <:+: c :: body := by
  rw [List.infix_cons_iff, not_or]
  refine ⟨?_, hbody⟩
  rintro ⟨more, hmore⟩
  simp only [List.cons_append, List.nil_append, List.cons.injEq] at hmore
  obtain ⟨rfl, rfl⟩ := hmore
  exact h _ rfl rfl

/-- Skipping moves over a gap. -/
theorem exists_isSkipped (h : skip mode p cs = .ok d) :
    ∃ gap, cs = gap ++ d.rest ∧ IsSkipped (d.rest = []) mode gap := by
  fun_induction skip mode p cs with
  | case1 p =>
    cases h
    exact ⟨[], rfl, .nil⟩
  | case2 p cs ih =>
    obtain ⟨gap, hcs, hgap⟩ := ih h
    refine ⟨'/' :: '/' :: gap, by rw [hcs]; rfl, ?_⟩
    rcases hgap with ⟨body, rest, rfl, hbody, hrest⟩ | ⟨hlast, hgap⟩
    · exact .lineComment hbody hrest
    · exact .openLineComment hlast hgap
  | case3 p cs ih =>
    obtain ⟨gap, hcs, body, rest, rfl, hbody, hrest⟩ := ih h
    exact ⟨_, by rw [hcs]; rfl, .blockComment hbody hrest⟩
  | case4 p c cs _ _ hblank ih =>
    obtain ⟨gap, hcs, hgap⟩ := ih h
    exact ⟨c :: gap, by rw [hcs]; rfl, .blank hblank hgap⟩
  | case5 p c cs =>
    cases h
    exact ⟨[], rfl, .nil⟩
  | case6 p =>
    cases h
    exact ⟨[], rfl, .inr ⟨rfl, List.not_mem_nil⟩⟩
  | case7 p cs ih =>
    obtain ⟨gap, hcs, hgap⟩ := ih h
    exact ⟨'\n' :: gap, by rw [hcs]; rfl, .inl ⟨[], gap, rfl, List.not_mem_nil, hgap⟩⟩
  | case8 p c cs hc ih =>
    obtain ⟨gap, hcs, hgap⟩ := ih h
    refine ⟨c :: gap, by rw [hcs]; rfl, ?_⟩
    have hnot {cs : List Char} (hcs : '\n' ∉ cs) : '\n' ∉ c :: cs := by
      rw [List.mem_cons, not_or]
      exact ⟨fun heq => hc heq.symm, hcs⟩
    rcases hgap with ⟨body, rest, rfl, hbody, hrest⟩ | ⟨hlast, hgap⟩
    · exact .inl ⟨c :: body, rest, rfl, hnot hbody, hrest⟩
    · exact .inr ⟨hlast, hnot hgap⟩
  | case9 start p => cases h
  | case10 start p cs ih =>
    obtain ⟨gap, hcs, hgap⟩ := ih h
    exact ⟨'*' :: '/' :: gap, by rw [hcs]; rfl, [], gap, rfl, by simp, hgap⟩
  | case11 start p c cs hopen ih =>
    obtain ⟨gap, hcs, body, rest, rfl, hbody, hrest⟩ := ih h
    refine ⟨c :: (body ++ '*' :: '/' :: rest), by rw [hcs]; rfl, c :: body, rest, rfl, ?_, hrest⟩
    refine not_infix_cons ('/' :: rest ++ d.rest) hbody fun more hstar hmore => ?_
    refine hopen more hstar ?_
    rw [hcs, ← hmore]
    simp

/-- Nothing more is skipped where skipping stopped. -/
theorem skip_of_skip (h : skip mode p cs = .ok d) : skip .blanks d.position d.rest = .ok d := by
  fun_induction skip mode p cs with
  | case1 p =>
    cases h
    rfl
  | case2 p cs ih => exact ih h
  | case3 p cs ih => exact ih h
  | case4 p c cs _ _ _ ih => exact ih h
  | case5 p c cs hline hblock hblank =>
    cases h
    rw [skip, if_neg hblank]
    · exact hline
    · exact hblock
  | case6 p =>
    cases h
    rfl
  | case7 p cs ih => exact ih h
  | case8 p c cs _ ih => exact ih h
  | case9 start p => cases h
  | case10 start p cs ih => exact ih h
  | case11 start p c cs _ ih => exact ih h

end RewriteSemantics.Scan
