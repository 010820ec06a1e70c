/-
# The tokens of two texts behind each other

A line break between two texts keeps them apart. No token goes on with a line break, but inside of a
text or a label, and these end before their text does. A comment that the end of the first text cuts
short ends with its line instead. So the tokens of the whole are those of the first text, without
its end, and those of the second.
-/
import RewriteSemantics.Proofs.Token.Gap
import RewriteSemantics.Proofs.Token.Lossless

namespace RewriteSemantics

open Token (kinds)

namespace Scan

variable {p : Position} {c : Char} {cs gap rest tail : List Char} {kind : TokenKind} {d : Cursor}
  {ks : List TokenKind}

/-! ## Skipping over a gap -/

theorem skip_lineComment {body : List Char} (hbody : '\n' ∉ body) (p : Position)
    (rest : List Char) :
    ∃ q, skip .lineComment p (body ++ '\n' :: rest) = skip .blanks q rest := by
  induction body generalizing p with
  | nil => exact ⟨_, rfl⟩
  | cons c body ih =>
    rw [List.mem_cons, not_or] at hbody
    rw [List.cons_append, skip, if_neg (Ne.symm hbody.1)]
    exact ih hbody.2 _

theorem skip_openLineComment {body : List Char} (hbody : '\n' ∉ body) (p : Position) :
    ∃ q, skip .lineComment p body = .ok ⟨q, []⟩ := by
  induction body generalizing p with
  | nil => exact ⟨p, rfl⟩
  | cons c body ih =>
    rw [List.mem_cons, not_or] at hbody
    rw [skip, if_neg (Ne.symm hbody.1)]
    exact ih hbody.2 _

theorem skip_blockComment {body : List Char} (hbody : ¬['*', '/'] <:+: body) (start p : Position)
    (rest : List Char) :
    ∃ q, skip (.blockComment start) p (body ++ '*' :: '/' :: rest) = skip .blanks q rest := by
  induction body generalizing p with
  | nil => exact ⟨_, rfl⟩
  | cons c body ih =>
    rw [List.infix_cons_iff, not_or] at hbody
    rw [List.cons_append, skip]
    · exact ih hbody.2 _
    · -- A star of the body has no slash behind it.
      rintro more rfl hmore
      cases body with
      | nil => cases hmore
      | cons c body =>
        cases hmore
        exact hbody.1 ⟨body, rfl⟩

theorem skip_blank (hc : Text.isWhitespace c = true) (p : Position) (cs : List Char) :
    skip .blanks p (c :: cs) = skip .blanks (p.step c) cs := by
  have hslash : c ≠ '/' := by
    rintro rfl
    cases hc
  rw [skip, if_pos hc]
  · exact fun _ heq _ => hslash heq
  · exact fun _ heq _ => hslash heq

/-- A gap is skipped whatever follows it, and the last gap of a text at its end. -/
theorem skip_gap {last : Prop} (h : IsGap last gap) (hlast : last → rest = []) (p : Position) :
    ∃ q, skip .blanks p (gap ++ rest) = skip .blanks q rest := by
  induction h generalizing p with
  | nil => exact ⟨p, rfl⟩
  | blank hc _ ih =>
    rw [List.cons_append, skip_blank hc]
    exact ih _
  | @lineComment body cs hbody _ ih =>
    obtain ⟨q, hq⟩ := skip_lineComment hbody ((p.step '/').step '/') (cs ++ rest)
    obtain ⟨q', hq'⟩ := ih q
    refine ⟨q', Eq.trans ?_ (hq.trans hq')⟩
    rw [List.cons_append, List.cons_append, List.append_assoc, List.cons_append, skip]
  | openLineComment hopen hbody =>
    rw [hlast hopen, List.append_nil, skip]
    exact skip_openLineComment hbody _
  | @blockComment body cs hbody _ ih =>
    obtain ⟨q, hq⟩ := skip_blockComment hbody p ((p.step '/').step '*') (cs ++ rest)
    obtain ⟨q', hq'⟩ := ih q
    refine ⟨q', Eq.trans ?_ (hq.trans hq')⟩
    rw [List.cons_append, List.cons_append, List.append_assoc, List.cons_append, List.cons_append,
      skip]

theorem Lexes.behindGap {last : Prop} (h : Lexes rest ks) (hgap : IsGap last gap)
    (hlast : last → rest = []) : Lexes (gap ++ rest) ks := by
  intro p
  obtain ⟨q, hskip⟩ := skip_gap hgap hlast p
  obtain ⟨ts, hts, hks⟩ := h q
  rw [tokens_eq_ok, ← hskip, ← tokens_eq_ok] at hts
  exact ⟨ts, hts, hks⟩

/-- A line break ends the comment that the last gap of a text may leave open. -/
theorem IsGap.lineBreak (h : IsGap True gap) : IsGap False (gap ++ ['\n']) := by
  induction h with
  | nil => exact .blank rfl .nil
  | blank hc _ ih => exact .blank hc ih
  | lineComment hbody _ ih =>
    rw [List.cons_append, List.cons_append, List.append_assoc]
    exact .lineComment hbody ih
  | openLineComment _ hbody => exact .lineComment hbody .nil
  | blockComment hbody _ ih =>
    rw [List.cons_append, List.cons_append, List.append_assoc]
    exact .blockComment hbody ih

/-! ## Tokens in front of a line break -/

/-- Nothing, or a line break and more. -/
def IsBreak (tail : List Char) : Prop :=
  ∀ c ∈ tail.head?, c = '\n'

theorem IsBreak.ne_cons {more : List Char} (h : IsBreak tail) (hc : c ≠ '\n') :
    tail ≠ c :: more := by
  rintro rfl
  exact hc (h c rfl)

theorem IsBreak.headIs {q : Char → Bool} (h : IsBreak tail) (hq : q '\n' = false) :
    headIs q tail = false := by
  cases tail with
  | nil => rfl
  | cons c tail =>
    rw [h c rfl]
    exact hq

/-- The first characters are the same in front of a line break, as long as there are any. -/
theorem IsBreak.headIs_append {q : Char → Bool} (h : IsBreak tail) (hq : q '\n' = false) :
    Scan.headIs q (cs ++ tail) = Scan.headIs q cs := by
  cases cs with
  | nil => exact h.headIs hq
  | cons c cs => rfl

/-- A colon is a token by itself unless it starts `::=`. -/
theorem token_colon (hcs : ∀ rest, cs ≠ ':' :: '=' :: rest) (p : Position) :
    token p ':' cs = .ok (.punctuation .colon, ⟨p.step ':', cs⟩) := by
  have hmark : mark? ':' = none := rfl
  unfold token
  rw [hmark]
  dsimp only
  rw [if_pos rfl]
  split
  · exact absurd rfl (hcs _)
  · rfl

variable (hbreak : IsBreak tail)

include hbreak

theorem integer_append_break (h : integer p c cs = .ok (kind, d)) (p' : Position) :
    ∃ q, integer p' c (cs ++ tail) = .ok (kind, ⟨q, d.rest ++ tail⟩) := by
  generalize hskip : (Cursor.mk (p.step c) cs).skipWhile Char.isDigit = e at h
  obtain ⟨digits, hcs, hdigits, hall, hstop⟩ := exists_of_skipWhile hskip
  simp only at hcs hdigits
  simp only [integer, ← hdigits, hskip] at h
  split at h
  · rename_i hrange
    cases h
    have hstop' := (hbreak.headIs_append rfl).trans hstop
    refine ⟨(p'.step c).advance digits, ?_⟩
    rw [hcs, List.append_assoc, integer, takeWhile_append_of_headIs hall hstop',
      skipWhile_append hall hstop']
    exact if_pos hrange
  · cases h

theorem name_append_break {make : String → TokenKind} (h : name make p c cs = (kind, d))
    (p' : Position) : ∃ q, name make p' c (cs ++ tail) = (kind, ⟨q, d.rest ++ tail⟩) := by
  obtain ⟨hkind, hskip⟩ := Prod.mk.inj h
  obtain ⟨body, hcs, hbody, hall, hstop⟩ := exists_of_skipWhile hskip
  simp only at hcs hbody
  have hstop' := (hbreak.headIs_append rfl).trans hstop
  refine ⟨(p'.step c).advance body, ?_⟩
  rw [← hkind, ← hbody, hcs, List.append_assoc, name, takeWhile_append_of_headIs hall hstop',
    skipWhile_append hall hstop']

theorem token_colon_append_break (h : token p ':' cs = .ok (.punctuation .colon, d))
    (p' : Position) :
    token p' ':' (cs ++ tail) = .ok (.punctuation .colon, ⟨p'.step ':', cs ++ tail⟩) := by
  refine token_colon (fun rest heq => ?_) p'
  cases cs with
  | nil => exact absurd heq (hbreak.ne_cons (by decide))
  | cons x cs =>
    cases cs with
    | nil => exact absurd (List.cons.inj heq).2 (hbreak.ne_cons (by decide))
    | cons y cs =>
      cases heq
      cases h

/-- A token is read as it was in front of a line break, and at any place. -/
theorem token_append_break (h : token p c cs = .ok (kind, d)) (p' : Position) :
    ∃ q, token p' c (cs ++ tail) = .ok (kind, ⟨q, d.rest ++ tail⟩) := by
  have hbranch := branch_token p c cs
  generalize hresult : token p c cs = result at h hbranch
  cases hbranch with
  | mark hm =>
    cases h
    refine ⟨p'.step c, ?_⟩
    unfold token
    rw [hm]
  | definedAs rest =>
    cases h
    exact ⟨_, rfl⟩
  | colon =>
    cases h
    exact ⟨_, token_colon_append_break hbreak hresult p'⟩
  | arrow rest =>
    cases h
    exact ⟨_, rfl⟩
  | followedBy rest =>
    cases h
    exact ⟨_, rfl⟩
  | ellipsis rest =>
    cases h
    exact ⟨_, rfl⟩
  | twoDots rest => cases h
  | closing rest =>
    obtain ⟨body, rfl, hbody⟩ := exists_spells_of_tag h
    obtain ⟨q, hq⟩ := hbody p' ((p'.step '<').step '/') (d.rest ++ tail)
    refine ⟨q, ?_⟩
    rw [List.cons_append, List.append_assoc]
    exact hq
  | opening hslash =>
    obtain ⟨body, hcs, hbody⟩ := exists_spells_of_tag h
    obtain ⟨q, hq⟩ := hbody p' (p'.step '<') (d.rest ++ tail)
    refine ⟨q, ?_⟩
    rw [token_tag]
    split
    · -- A slash behind the bracket would have been there before.
      rename_i rest heq
      cases cs with
      | nil => exact absurd heq (hbreak.ne_cons (by decide))
      | cons x more =>
        cases heq
        exact absurd rfl (hslash more)
    · rw [hcs, List.append_assoc]
      exact hq
  | label =>
    obtain ⟨body, rfl, hbody⟩ := exists_spells_of_quotedLabel h
    rw [List.append_assoc]
    exact hbody p' (p'.step '\x60') (d.rest ++ tail)
  | text =>
    obtain ⟨⟨text, e⟩, htext, heq⟩ := Except.bind_eq_ok.1 h
    cases heq
    obtain ⟨body, rfl, hbody⟩ := exists_spells_of_textBody htext
    obtain ⟨q, hq⟩ := hbody p' (p'.step '"') (d.rest ++ tail)
    rw [List.append_assoc]
    exact ⟨q, Except.bind_eq_ok.2 ⟨_, hq, rfl⟩⟩
  | negative hdigit =>
    have hdigit' := (hbreak.headIs_append rfl).trans hdigit
    have htoken : token p' '-' (cs ++ tail) = integer p' '-' (cs ++ tail) := if_pos hdigit'
    rw [htoken]
    exact integer_append_break hbreak h p'
  | digit hc =>
    rw [token_digit hc]
    exact integer_append_break hbreak h p'
  | marked hmarked =>
    obtain ⟨hsigil, hletter⟩ := Bool.and_eq_true_iff.1 hmarked
    have hmarked' : StartsMarked c (cs ++ tail) :=
      Bool.and_eq_true_iff.2 ⟨hsigil, (hbreak.headIs_append rfl).trans hletter⟩
    obtain ⟨q, hq⟩ := name_append_break hbreak (Except.ok.inj h) p'
    exact ⟨q, (token_marked hmarked' p').trans (congrArg _ hq)⟩
  | word hword =>
    obtain ⟨q, hq⟩ := name_append_break hbreak (Except.ok.inj h) p'
    exact ⟨q, (token_word hword p' _).trans (congrArg _ hq)⟩
  | unexpected => cases h

/-! ## Texts in front of a line break -/

/-- The tokens of a text stay what they are in front of a line break. It is known what the rest is
read as behind the last gap of the text. -/
theorem lexes_append_break (hend : ∀ gap, IsGap True gap → Lexes (gap ++ tail) ks) {c : Cursor}
    {ts : List Token} (h : tokens c = .ok ts) :
    Lexes (c.rest ++ tail) ((kinds ts).dropLast ++ ks) := by
  fun_induction tokens c generalizing ts with
  | case1 c e he => cases h
  | case2 c p hskip =>
    cases h
    -- This gap is the last one of the text, and may leave a comment open.
    obtain ⟨gap, hrest, hgap⟩ := exists_isSkipped hskip
    rw [hrest, List.append_nil]
    exact hend gap (eq_self ([] : List Char) ▸ hgap)
  | case3 c p first more hskip e he => cases h
  | case4 c p first more hskip kind d htoken _ ih =>
    obtain ⟨others, hothers, heq⟩ := Except.bind_eq_ok.1 h
    cases heq
    have hstart : IsStart first := isStart_of_skip (ne_slash_of_token htoken) (skip_of_skip hskip)
    obtain ⟨gap, hrest, hgap⟩ := exists_isSkipped hskip
    have hlexes := (ih hothers).token hstart (token_append_break hbreak htoken)
    have hdrop : (kinds (⟨kind, p.spanTo d.position⟩ :: others)).dropLast =
        kind :: (kinds others).dropLast := by
      obtain ⟨front, hfront, -⟩ := isText_of_tokens hothers
      have hne : kinds others ≠ [] := by
        rw [hfront]
        exact List.append_ne_nil_of_right_ne_nil _ (List.cons_ne_nil _ _)
      exact List.dropLast_cons_of_ne_nil hne
    rw [hrest, hdrop, List.append_assoc, List.cons_append, List.cons_append]
    exact hlexes.behindGap hgap fun hnil => absurd hnil (List.cons_ne_nil _ _)

omit hbreak

/-- The tokens of a text do not depend on the place where it starts. -/
theorem lexes_of_tokens {c : Cursor} {ts : List Token} (h : tokens c = .ok ts) :
    Lexes c.rest (kinds ts) := by
  have hend : ∀ gap, IsGap True gap → Lexes (gap ++ []) [.finish] :=
    fun gap hgap => lexes_nil.behindGap hgap fun _ => rfl
  have hnothing : IsBreak [] := fun _ hc => nomatch hc
  have hlexes := lexes_append_break hnothing hend h
  obtain ⟨front, hfront, -⟩ := isText_of_tokens h
  rwa [List.append_nil, hfront, List.dropLast_concat, ← hfront] at hlexes

/-- Behind a line break a text is read as it is by itself. -/
theorem lexes_append_lineBreak {c : Cursor} {ts : List Token} (h : tokens c = .ok ts)
    (hrest : Lexes rest ks) : Lexes (c.rest ++ '\n' :: rest) ((kinds ts).dropLast ++ ks) := by
  have hline : IsBreak ('\n' :: rest) := fun _ hc => (Option.some.inj hc).symm
  refine lexes_append_break hline (fun gap hgap => ?_) h
  have hlexes := hrest.behindGap hgap.lineBreak fun hfalse => hfalse.elim
  rwa [List.append_assoc] at hlexes

end Scan

/-- The tokens of two texts with a line break between them are those of the first, without its end,
and those of the second. -/
theorem tokenize_append_lineBreak {a b : String} {ts us : List Token} (ha : tokenize a = .ok ts)
    (hb : tokenize b = .ok us) : ∃ vs, tokenize (a ++ "\n" ++ b) = .ok vs ∧
      kinds vs = (kinds ts).dropLast ++ kinds us := by
  have hlexes := Scan.lexes_append_lineBreak ha (Scan.lexes_of_tokens hb)
  rw [tokenize, String.toList_append, String.toList_append, List.append_assoc]
  exact hlexes .start

end RewriteSemantics
