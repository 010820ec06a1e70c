/-
# How much tokens spell out

A name is spelled with at least its own characters, a text with at least its own and the quotation
marks around it, and every other token with at least one. The reader of texts never makes a text
longer than its spelling: an escape takes two characters for one, so a text that is as long as its
spelling was written as it is.
-/
import Mathlib
import RewriteSemantics.Proofs.Token.Spelling

namespace RewriteSemantics

open Token (kinds)

/-- A token is spelled with at least so many characters. -/
def TokenKind.size : TokenKind → Nat
  | .ident name => name.toList.length
  | .text value => value.toList.length + 2
  | .finish => 0
  | _ => 1

/-- Some tokens are spelled with at least so many characters. -/
def Grammar.size (ks : List TokenKind) : Nat :=
  (ks.map TokenKind.size).sum

namespace Grammar

@[simp] theorem size_cons (k : TokenKind) (ks : List TokenKind) :
    size (k :: ks) = k.size + size ks :=
  List.sum_cons

theorem Spends.size_le {ks rest : List TokenKind} (h : Spends ks rest) : size rest ≤ size ks := by
  obtain ⟨spent, rfl, -⟩ := h
  rw [size, size, List.map_append, List.sum_append]
  exact Nat.le_add_left _ _

end Grammar

namespace Scan

variable {p : Position} {c : Char} {cs rest : List Char} {kind : TokenKind} {d : Cursor}
  {ts : List Token}

/-! ## Texts -/

/-- Characters that can stand between quotation marks as they are. -/
def AreVerbatim (cs : List Char) : Prop :=
  '"' ∉ cs ∧ '\\' ∉ cs

instance (cs : List Char) : Decidable (AreVerbatim cs) :=
  inferInstanceAs (Decidable (_ ∧ _))

theorem areVerbatim_cons (hquote : c ≠ '"') (hslash : c ≠ '\\') (h : AreVerbatim cs) :
    AreVerbatim (c :: cs) :=
  ⟨List.not_mem_cons_of_ne_of_not_mem hquote.symm h.1,
    List.not_mem_cons_of_ne_of_not_mem hslash.symm h.2⟩

/-- A text and the quotation mark behind it are as long as their spelling only if every character
stands for itself, and never longer. -/
theorem length_of_textBody {start : Position} {text : List Char}
    (h : textBody start p cs = .ok (text, d)) : text.length + d.rest.length < cs.length ∧
      (cs.length ≤ text.length + d.rest.length + 1 → AreVerbatim text) := by
  fun_induction textBody start p cs generalizing text d with
  | case1 p => cases h
  | case2 p cs =>
    cases h
    exact ⟨by simp, fun _ => ⟨List.not_mem_nil, List.not_mem_nil⟩⟩
  | case3 p => cases h
  | case4 p c cs escaped hc ih =>
    obtain ⟨⟨more, e⟩, hmore, heq⟩ := Except.bind_eq_ok.1 h
    cases heq
    -- The escape has taken two characters for one, so the text is too short already.
    have hlt := (ih hmore).1
    simp only [List.length_cons]
    exact ⟨by omega, fun hle => by omega⟩
  | case5 p c cs hc => cases h
  | case6 p c cs hquote hlast hescape ih =>
    obtain ⟨⟨more, e⟩, hmore, heq⟩ := Except.bind_eq_ok.1 h
    cases heq
    obtain ⟨hlt, hverbatim⟩ := ih hmore
    simp only [List.length_cons]
    refine ⟨by omega, fun hle => areVerbatim_cons hquote ?_ (hverbatim (by omega))⟩
    rintro rfl
    cases cs with
    | nil => exact hlast rfl rfl
    | cons c cs => exact hescape c cs rfl rfl

/-! ## Tokens -/

theorem size_of_tag {start : Position} {closing : Bool}
    (h : tag start closing p cs = .ok (kind, d)) : kind.size = 1 := by
  simp only [tag] at h
  split at h
  · cases h
  · obtain ⟨_, -, heq⟩ := Except.bind_eq_ok.1 h
    cases heq
    cases closing with
    | true => rfl
    | false => rfl

theorem size_of_quotedLabel {start : Position} (h : quotedLabel start p cs = .ok (kind, d)) :
    kind.size = 1 := by
  simp only [quotedLabel] at h
  split at h
  · cases h
  · split at h
    · cases h
    · cases h
      rfl

theorem size_of_integer {start : Position} (h : integer start c cs = .ok (kind, d)) :
    kind.size = 1 := by
  simp only [integer] at h
  split at h
  · cases h
    rfl
  · cases h

theorem size_ofName_le (name : String) (hne : name ≠ "") :
    (ofName name).size ≤ name.toList.length := by
  rw [ofName]
  split
  · exact List.length_pos_iff.2 (mt String.toList_eq_nil_iff.1 hne)
  · exact Nat.le_refl _

/-- The characters of a token are at least as many as its size. -/
theorem size_le_of_token (h : token p c cs = .ok (kind, d)) :
    kind.size + d.rest.length ≤ cs.length + 1 := by
  have hsmall (hkind : kind.size ≤ 1) : kind.size + d.rest.length ≤ cs.length + 1 := by
    have hrest : d.rest.length ≤ cs.length := (reaches_of_token h).length_le
    omega
  have hname (first : Char) :
      (String.ofList (first :: cs.takeWhile Text.isNameChar)).toList.length +
      (cs.dropWhile Text.isNameChar).length = cs.length + 1 := by
    have hlength := congrArg List.length
      (List.takeWhile_append_dropWhile (p := Text.isNameChar) (l := cs))
    rw [List.length_append] at hlength
    rw [String.toList_ofList, List.length_cons]
    omega
  have hbranch := branch_token p c cs
  generalize token p c cs = result at h hbranch
  cases hbranch with
  | closing _ => exact hsmall (size_of_tag h).le
  | opening _ => exact hsmall (size_of_tag h).le
  | label => exact hsmall (size_of_quotedLabel h).le
  | text =>
    obtain ⟨⟨text, e⟩, htext, heq⟩ := Except.bind_eq_ok.1 h
    cases heq
    have hlt := (length_of_textBody htext).1
    rw [TokenKind.size, String.toList_ofList]
    omega
  | negative _ => exact hsmall (size_of_integer h).le
  | digit _ => exact hsmall (size_of_integer h).le
  | marked _ =>
    cases h
    exact (hname c).le
  | word _ =>
    cases h
    have hle := size_ofName_le (String.ofList (c :: cs.takeWhile Text.isNameChar)) (by simp)
    exact (Nat.add_le_add_right hle _).trans (hname c).le
  -- The other branches give marks, or fail.
  | _ =>
    cases h <;> exact hsmall (Nat.le_refl 1)

/-- The characters of a text are at least as many as its tokens ask for. -/
theorem size_le_of_tokens {c : Cursor} (h : tokens c = .ok ts) :
    Grammar.size (kinds ts) ≤ c.rest.length := by
  fun_induction tokens c generalizing ts with
  | case1 c e he => cases h
  | case2 c p hp =>
    cases h
    exact Nat.zero_le _
  | case3 c p first more hskip e he => cases h
  | case4 c p first more hskip kind d htoken _ ih =>
    obtain ⟨others, hothers, heq⟩ := Except.bind_eq_ok.1 h
    cases heq
    have hfirst := size_le_of_token htoken
    have hskipped : more.length + 1 ≤ c.rest.length := (reaches_of_skip hskip).length_le
    have := ih hothers
    simp only [Token.kinds_cons, Grammar.size_cons]
    omega

/-! ## The first token -/

theorem exists_token_of_tokens (hc : IsStart c) (h : tokens ⟨p, c :: cs⟩ = .ok ts) :
    ∃ kind d others, token p c cs = .ok (kind, d) ∧ tokens d = .ok others ∧
      kinds ts = kind :: kinds others := by
  rcases tokens_eq_ok.1 h with
    ⟨q, hskip, -⟩ | ⟨q, first, more, kind, d, others, hskip, htoken, hothers, rfl⟩
  · cases (skip_of_isStart hc p cs).symm.trans hskip
  · cases (skip_of_isStart hc p cs).symm.trans hskip
    exact ⟨kind, d, others, htoken, hothers, rfl⟩

/-- If the first token is known, the other ones are those of the characters behind it. -/
theorem exists_tokens_behind (hc : IsStart c)
    (htoken : ∀ p, ∃ q, token p c cs = .ok (kind, ⟨q, rest⟩)) (h : tokens ⟨p, c :: cs⟩ = .ok ts) :
    ∃ q others, tokens ⟨q, rest⟩ = .ok others ∧ kinds ts = kind :: kinds others := by
  obtain ⟨_, _, others, hfirst, hothers, hkinds⟩ := exists_token_of_tokens hc h
  obtain ⟨q, hq⟩ := htoken p
  cases hq.symm.trans hfirst
  exact ⟨q, others, hothers, hkinds⟩

/-- Behind a quotation mark stands a text, and it is verbatim if it and the tokens behind it ask for
all of the characters. -/
theorem exists_text_of_tokens (h : tokens ⟨p, '"' :: cs⟩ = .ok ts) :
    ∃ value others, kinds ts = .text value :: others ∧
      value.toList.length + Grammar.size others < cs.length ∧
      (cs.length ≤ value.toList.length + Grammar.size others + 1 → AreVerbatim value.toList) := by
  obtain ⟨kind, d, others, htoken, hothers, hkinds⟩ := exists_token_of_tokens ⟨rfl, by decide⟩ h
  obtain ⟨⟨text, e⟩, htext, heq⟩ := (Except.bind_eq_ok (x := textBody p (p.step '"') cs)).1 htoken
  cases heq
  obtain ⟨hlt, hverbatim⟩ := length_of_textBody htext
  have hsize := size_le_of_tokens hothers
  refine ⟨String.ofList text, kinds others, hkinds, ?_, fun hle => ?_⟩
  · rw [String.toList_ofList]
    omega
  · rw [String.toList_ofList] at hle ⊢
    exact hverbatim (by omega)

end Scan

end RewriteSemantics
