/-
# The tokens of a text

The scanner makes one token after the other and puts the end of the text behind the last of them.
No other token stands for the end, and a name comes from two of its cases only: a name that starts
with one of the marks, which is never a keyword, and a name that starts like a word.
-/
import RewriteSemantics.Proofs.Grammar.Tokens
import RewriteSemantics.Proofs.Result
import RewriteSemantics.Token.Scan

namespace RewriteSemantics

open Token (kinds)

namespace Scan

variable {p : Position} {c : Char} {cs : List Char} {kind : TokenKind} {d : Cursor}

/-! ## Kinds of tokens -/

/-- A kind of token other than a name and the end of the text. -/
def IsFixed (kind : TokenKind) : Prop :=
  kind ≠ .finish ∧ ∀ name, kind ≠ .ident name

/-- A name starts like a word, with a letter of some script or `_`. -/
def StartsWord (c : Char) : Prop :=
  (Text.isAlphabetic c || c == '_') = true

/-- A name starts with one of the marks that need a letter behind them. -/
def StartsMarked (c : Char) (cs : List Char) : Prop :=
  (isSigil c && headIs Text.isAlphabetic cs) = true

theorem isFixed_of_tag {start : Position} {closing : Bool}
    (h : tag start closing p cs = .ok (kind, d)) : IsFixed kind := by
  simp only [tag] at h
  split at h
  · cases h
  · obtain ⟨_, -, heq⟩ := Except.bind_eq_ok.1 h
    cases heq
    cases closing with
    | true => simp [IsFixed]
    | false => simp [IsFixed]

theorem isFixed_of_quotedLabel {start : Position}
    (h : quotedLabel start p cs = .ok (kind, d)) : IsFixed kind := by
  simp only [quotedLabel] at h
  split at h
  · cases h
  · split at h
    · cases h
    · cases h
      simp [IsFixed]

theorem isFixed_of_integer {start : Position} (h : integer start c cs = .ok (kind, d)) :
    IsFixed kind := by
  simp only [integer] at h
  split at h
  · cases h
    simp [IsFixed]
  · cases h

/-- A token is of a fixed kind unless it is a name, and then it is of one of the two kinds of
names. -/
theorem token_cases (h : token p c cs = .ok (kind, d)) :
    IsFixed kind ∨ StartsMarked c cs ∧ (kind, d) = name .ident p c cs ∨
      StartsWord c ∧ (kind, d) = name ofName p c cs := by
  have hbranch := branch_token p c cs
  generalize token p c cs = result at h hbranch
  cases hbranch with
  | closing rest => exact .inl (isFixed_of_tag h)
  | opening _ => exact .inl (isFixed_of_tag h)
  | label => exact .inl (isFixed_of_quotedLabel h)
  | text =>
    obtain ⟨_, -, heq⟩ := Except.bind_eq_ok.1 h
    cases heq
    exact .inl (by simp [IsFixed])
  | negative _ => exact .inl (isFixed_of_integer h)
  | digit _ => exact .inl (isFixed_of_integer h)
  | marked hc => exact .inr (.inl ⟨hc, (Except.ok.inj h).symm⟩)
  | word hc => exact .inr (.inr ⟨hc, (Except.ok.inj h).symm⟩)
  -- The other branches give marks of some characters, or fail.
  | _ =>
    cases h <;> exact .inl (by simp [IsFixed])

theorem ofName_ne_finish (name : String) : ofName name ≠ .finish := by
  rw [ofName]
  split
  · nofun
  · nofun

theorem ne_finish_of_token (h : token p c cs = .ok (kind, d)) : kind ≠ .finish := by
  rcases token_cases h with h | ⟨-, h⟩ | ⟨-, h⟩
  · exact h.1
  · cases h
    nofun
  · cases h
    exact ofName_ne_finish _

/-! ## The tokens of a text -/

theorem isText_of_tokens {c : Cursor} {ts : List Token} (h : tokens c = .ok ts) :
    Grammar.IsText (kinds ts) := by
  fun_induction tokens c generalizing ts with
  | case1 c e he => cases h
  | case2 c p hp =>
    cases h
    exact ⟨[], rfl, List.not_mem_nil⟩
  | case3 c p first more hskip e he => cases h
  | case4 c p first more hskip kind d htoken _ ih =>
    obtain ⟨others, hothers, heq⟩ := Except.bind_eq_ok.1 h
    cases heq
    obtain ⟨front, hfront, hfinish⟩ := ih hothers
    refine ⟨kind :: front, by rw [Token.kinds_cons, hfront]; rfl, fun hmem => ?_⟩
    exact (List.mem_cons.1 hmem).elim (ne_finish_of_token htoken ·.symm) hfinish

/-- The kinds of the tokens of a text can be computed from its characters. -/
theorem exists_tokenize {text : String} {ks : List TokenKind}
    (h : (tokens (.start text.toList)).toOption.map kinds = some ks) :
    ∃ ts, tokenize text = .ok ts ∧ kinds ts = ks := by
  obtain ⟨ts, hts, hks⟩ := Option.map_eq_some_iff.1 h
  exact ⟨ts, Except.toOption_eq_some.1 hts, hks⟩

end Scan

theorem isText_of_tokenize {text : String} {ts : List Token} (h : tokenize text = .ok ts) :
    Grammar.IsText (kinds ts) :=
  Scan.isText_of_tokens h

end RewriteSemantics
