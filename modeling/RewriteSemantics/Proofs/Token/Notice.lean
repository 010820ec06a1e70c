/-
# Where problems are noticed

A problem reaches from the place where something starts to a place behind it, and both are places of
the text: a scanner moves from the first to the second before it gives up.
-/
import Mathlib
import RewriteSemantics.Proofs.Position
import RewriteSemantics.Proofs.Token.Scan

namespace RewriteSemantics

namespace Scan

/-- An error reaches from a given place to one that is reached from a cursor. -/
def IsNoticed (start : Position) (c : Cursor) (e : ParseError) : Prop :=
  ∃ d, c.Reaches d ∧ e.span = start.spanTo d.position

/-- An error reaches from one place behind a cursor to another. -/
def IsLocated (c : Cursor) (e : ParseError) : Prop :=
  ∃ d, c.Reaches d ∧ IsNoticed d.position d e

variable {start p : Position} {c d : Cursor} {e : ParseError} {cs : List Char}

theorem IsNoticed.behind (h : IsNoticed start d e) (hcd : c.Reaches d) : IsNoticed start c e := by
  obtain ⟨stop, hstop, hspan⟩ := h
  exact ⟨stop, hcd.trans hstop, hspan⟩

theorem IsLocated.behind (h : IsLocated d e) (hcd : c.Reaches d) : IsLocated c e := by
  obtain ⟨place, hplace, hnoticed⟩ := h
  exact ⟨place, hcd.trans hplace, hnoticed⟩

theorem isNoticed_of_fail {α : Type} {stop : Position} {problem : ParseProblem} (hd : c.Reaches d)
    (hstop : d.position = stop) (h : fail (α := α) start stop problem = .error e) :
    IsNoticed start c e := by
  cases h
  exact ⟨d, hd, by rw [hstop]; rfl⟩

/-! ## Comments, texts and labels -/

/-- Skipping fails on a comment that is open where the text ends. A line comment never is, and a
block comment that is read already starts where the mode says. -/
def IsUnskippable (mode : Skipping) (c : Cursor) (e : ParseError) : Prop :=
  IsLocated c e ∨ ∃ start, mode = .blockComment start ∧ IsNoticed start c e

theorem IsUnskippable.isLocated {mode : Skipping} (h : IsUnskippable mode d e)
    (hmode : ∀ start, mode ≠ .blockComment start) : IsLocated d e :=
  h.resolve_right fun ⟨start, heq, _⟩ => hmode start heq

theorem isUnskippable_of_skip {mode : Skipping} (h : skip mode p cs = .error e) :
    IsUnskippable mode ⟨p, cs⟩ e := by
  fun_induction skip mode p cs with
  | case1 p => cases h
  | case2 p cs ih =>
    exact .inl (((ih h).isLocated (by simp)).behind ((Cursor.Reaches.step ..).trans (.step ..)))
  | case3 p cs ih =>
    have hreach : Cursor.Reaches ⟨p, '/' :: '*' :: cs⟩ ⟨(p.step '/').step '*', cs⟩ :=
      (Cursor.Reaches.step ..).trans (.step ..)
    rcases ih h with hlocated | ⟨_, hmode, hnoticed⟩
    · exact .inl (hlocated.behind hreach)
    · cases hmode
      exact .inl ⟨_, .refl _, hnoticed.behind hreach⟩
  | case4 p c cs _ _ _ ih => exact .inl (((ih h).isLocated (by simp)).behind (.step ..))
  | case5 p c cs => cases h
  | case6 p => cases h
  | case7 p cs ih => exact .inl (((ih h).isLocated (by simp)).behind (.step ..))
  | case8 p c cs _ ih => exact .inl (((ih h).isLocated (by simp)).behind (.step ..))
  | case9 start p => exact .inr ⟨start, rfl, isNoticed_of_fail (.refl _) rfl h⟩
  | case10 start p cs ih =>
    exact .inl (((ih h).isLocated (by simp)).behind ((Cursor.Reaches.step ..).trans (.step ..)))
  | case11 start p c cs _ ih =>
    rcases ih h with hlocated | ⟨_, hmode, hnoticed⟩
    · exact .inl (hlocated.behind (.step ..))
    · cases hmode
      exact .inr ⟨start, rfl, hnoticed.behind (.step ..)⟩

/-- An open comment reaches from its start. -/
theorem isLocated_of_skip (h : skip .blanks p cs = .error e) : IsLocated ⟨p, cs⟩ e :=
  (isUnskippable_of_skip h).isLocated (by simp)

theorem isNoticed_of_textBody (h : textBody start p cs = .error e) : IsNoticed start ⟨p, cs⟩ e := by
  fun_induction textBody start p cs with
  | case1 p => exact isNoticed_of_fail (.refl _) rfl h
  | case2 p cs => cases h
  | case3 p => exact isNoticed_of_fail (.step ..) rfl h
  | case4 p c cs escaped hc ih =>
    rcases Except.bind_eq_error.1 h with h | ⟨_, -, h⟩
    · exact (ih h).behind ((Cursor.Reaches.step ..).trans (.step ..))
    · cases h
  | case5 p c cs hc =>
    exact isNoticed_of_fail ((Cursor.Reaches.step ..).trans (.step ..)) rfl h
  | case6 p c cs _ _ _ ih =>
    rcases Except.bind_eq_error.1 h with h | ⟨_, -, h⟩
    · exact (ih h).behind (.step ..)
    · cases h

theorem isNoticed_of_quotedLabel (h : quotedLabel start p cs = .error e) :
    IsNoticed start ⟨p, cs⟩ e := by
  have hskip := Cursor.Reaches.skipWhile (!isBackquote ·) ⟨p, cs⟩
  rw [Cursor.skipWhile] at hskip
  simp only [quotedLabel] at h
  split at h
  · exact isNoticed_of_fail hskip rfl h
  · rename_i quote rest hrest
    rw [hrest] at hskip
    split at h
    · exact isNoticed_of_fail (hskip.trans (.step ..)) rfl h
    · cases h

/-! ## Tags -/

theorem exists_reaches_stepIfAny (p : Position) (cs : List Char) :
    ∃ d, Cursor.Reaches ⟨p, cs⟩ d ∧ d.position = stepIfAny p cs := by
  cases cs with
  | nil => exact ⟨_, .refl _, rfl⟩
  | cons c cs => exact ⟨_, .step .., rfl⟩

theorem exists_reaches_tagAttributeStop (p : Position) (cs : List Char) :
    ∃ d, Cursor.Reaches ⟨p, cs⟩ d ∧ d.position = tagAttributeStop p cs := by
  unfold tagAttributeStop
  split
  · rename_i rest
    obtain ⟨d, hd, hstop⟩ := exists_reaches_stepIfAny (p.step '=') rest
    exact ⟨d, (Cursor.Reaches.step ..).trans hd, hstop⟩
  · exact exists_reaches_stepIfAny p _

theorem isNoticed_of_tagAttribute {cell : String} {closing : Bool}
    (h : tagAttribute start cell closing c = .error e) : IsNoticed start c e := by
  have hblanks := Cursor.Reaches.skipWhile Text.isWhitespace c
  rw [tagAttribute] at h
  split at h
  · rename_i p hc
    rw [hc] at hblanks
    exact isNoticed_of_fail hblanks rfl h
  · rename_i p first more hc
    rw [hc] at hblanks
    split at h
    · cases h
    · split at h
      · exact isNoticed_of_fail (hblanks.trans (.step ..)) rfl h
      · have hkey := hblanks.trans ((Cursor.Reaches.step p first more).trans
          (.skipWhile Text.isNameChar ⟨p.step first, more⟩))
        simp only at h
        split at h
        · rename_i q value hk
          rw [hk] at hkey
          rcases Except.bind_eq_error.1 h with h | ⟨_, -, h⟩
          · exact (isNoticed_of_textBody h).behind
              (hkey.trans ((Cursor.Reaches.step ..).trans (.step ..)))
          · cases h
        · rename_i q rest _ hk
          rw [hk] at hkey
          obtain ⟨stop, hreach, hstop⟩ := exists_reaches_tagAttributeStop q rest
          exact isNoticed_of_fail (hkey.trans hreach) hstop h

theorem isNoticed_of_tagAttributes {cell : String} {closing : Bool}
    (h : tagAttributes start cell closing c = .error e) : IsNoticed start c e := by
  fun_induction tagAttributes start cell closing c with
  | case1 c e' he =>
    cases h
    exact isNoticed_of_tagAttribute he
  | case2 c d hd => cases h
  | case3 c found d hd _ ih =>
    rcases Except.bind_eq_error.1 h with h | ⟨_, -, h⟩
    · exact (ih h).behind (passes_of_tagAttribute hd).reaches
    · cases h

theorem isNoticed_of_tag {closing : Bool} (h : tag start closing p cs = .error e) :
    IsNoticed start ⟨p, cs⟩ e := by
  simp only [tag] at h
  split at h
  · exact isNoticed_of_fail (.refl _) rfl h
  · rcases Except.bind_eq_error.1 h with h | ⟨_, -, h⟩
    · exact (isNoticed_of_tagAttributes h).behind (.skipWhile ..)
    · cases h

/-! ## Tokens -/

theorem isNoticed_of_integer {first : Char} (h : integer start first cs = .error e) :
    IsNoticed start ⟨start.step first, cs⟩ e := by
  rw [integer] at h
  split at h
  · cases h
  · exact isNoticed_of_fail (.skipWhile ..) rfl h

/-- What is wrong with a token reaches from its start. -/
theorem isNoticed_of_token {first : Char} (h : token p first cs = .error e) :
    IsNoticed p ⟨p.step first, cs⟩ e := by
  have hbranch := branch_token p first cs
  generalize token p first cs = result at h hbranch
  cases hbranch with
  | twoDots rest =>
    obtain ⟨stop, hreach, hstop⟩ := exists_reaches_stepIfAny ((p.step '.').step '.') rest
    exact isNoticed_of_fail ((Cursor.Reaches.step ..).trans hreach) hstop h
  | closing rest => exact (isNoticed_of_tag h).behind (.step ..)
  | opening _ => exact isNoticed_of_tag h
  | label => exact isNoticed_of_quotedLabel h
  | text =>
    rcases Except.bind_eq_error.1 h with h | ⟨_, -, h⟩
    · exact isNoticed_of_textBody h
    · cases h
  | negative _ => exact isNoticed_of_integer h
  | digit _ => exact isNoticed_of_integer h
  | unexpected => exact isNoticed_of_fail (.refl _) rfl h
  -- The other branches do not fail.
  | _ => cases h

/-- What is wrong with a text reaches from one of its places to another. -/
theorem isLocated_of_tokens (h : tokens c = .error e) : IsLocated c e := by
  fun_induction tokens c with
  | case1 c e' he =>
    cases h
    exact isLocated_of_skip he
  | case2 c p hskip => cases h
  | case3 c p first more hskip e' he =>
    cases h
    exact ⟨_, reaches_of_skip hskip, (isNoticed_of_token he).behind (.step ..)⟩
  | case4 c p first more hskip kind d htoken _ ih =>
    rcases Except.bind_eq_error.1 h with h | ⟨_, -, h⟩
    · exact (ih h).behind ((reaches_of_skip hskip).trans
        ((Cursor.Reaches.step ..).trans (reaches_of_token htoken)))
    · cases h

end Scan

/-- An error in a text spans a stretch of it. -/
theorem exists_stretch_of_tokenize_error {text : String} {e : ParseError}
    (h : tokenize text = .error e) :
    ∃ before stretch after : String, text = before ++ stretch ++ after ∧
      e.span = (Position.behind before).spanTo (Position.behind (before ++ stretch)) := by
  obtain ⟨c, ⟨before, htext, hc⟩, d, ⟨stretch, hrest, hd⟩, hspan⟩ := Scan.isLocated_of_tokens h
  have hplace : c.position = Position.behind (String.ofList before) :=
    hc.trans (Position.advance_start before)
  have hstop : d.position = Position.behind (String.ofList before ++ String.ofList stretch) := by
    rw [hd, hc, ← Position.advance_append, ← String.ofList_append]
    exact Position.advance_start _
  refine ⟨String.ofList before, String.ofList stretch, String.ofList d.rest, ?_, ?_⟩
  · have htext : text.toList = before ++ (stretch ++ d.rest) := hrest ▸ htext
    rw [← String.toList_inj, htext]
    simp
  · rw [hspan, hplace, hstop]

end RewriteSemantics
