/-
# Cutting a text into tokens

The scanner goes over a text from its start to its end and leaves nothing out: every token is a
stretch of the text, a gap stands in front of it, and the gap in front of the end is the last one.
Where a token stands is counted from the text before it, and its own characters say what it is.
-/
import Mathlib
import RewriteSemantics.Proofs.Token.Gap
import RewriteSemantics.Proofs.Token.Locality
import RewriteSemantics.Proofs.Token.Notice

namespace RewriteSemantics

open Token (kinds)

namespace Cursor

/-- A cursor stands behind the first part of a text and has the rest of it before it. -/
def StandsIn (c : Cursor) (text before : String) : Prop :=
  text = before ++ String.ofList c.rest ∧ c.position = .behind before

theorem standsIn_start (text : String) : (start text.toList).StandsIn text "" :=
  ⟨by simp [start], rfl⟩

/-- The part of a text behind which a cursor stands grows by what the cursor moves over. -/
theorem StandsIn.move {text before : String} {c d : Cursor} {stretch : List Char}
    (h : c.StandsIn text before) (hcd : c.Reaches d) (hstretch : c.rest = stretch ++ d.rest) :
    d.StandsIn text (before ++ String.ofList stretch) := by
  obtain ⟨htext, hc⟩ := h
  obtain ⟨moved, hmoved, hd⟩ := hcd
  have hsame : moved = stretch := List.append_cancel_right (hmoved.symm.trans hstretch)
  have hstart : Position.behind before = Position.start.advance before.toList := by
    rw [Position.advance_start, String.ofList_toList]
  refine ⟨?_, ?_⟩
  · rw [htext, hstretch, String.ofList_append, String.append_assoc]
  · rw [hd, hc, hsame, hstart, ← Position.advance_append, Position.advance_start,
      String.ofList_append, String.ofList_toList]

end Cursor

namespace Scan

/-! ## One round -/

/-- One token is read from a cursor, and another cursor stands behind it. -/
def Round (d c : Cursor) : Prop :=
  ∃ p first more kind, skip .blanks c.position c.rest = .ok ⟨p, first :: more⟩ ∧
    token p first more = .ok (kind, d)

theorem Round.length_lt {c d : Cursor} (h : Round d c) : d.rest.length < c.rest.length := by
  obtain ⟨p, first, more, kind, hskip, htoken⟩ := h
  have hpasses : Cursor.Passes ⟨p, first :: more⟩ d :=
    (Cursor.Passes.step p first more).trans_reaches (reaches_of_token htoken)
  exact ((reaches_of_skip hskip).trans_passes hpasses).length_lt

/-- There are only so many rounds, for each of them leaves fewer characters. -/
theorem wellFounded_round : WellFounded Round :=
  Subrelation.wf Round.length_lt (measure fun c : Cursor => c.rest.length).wf

/-- A slash that starts no comment starts nothing. -/
theorem ne_slash_of_token {p : Position} {c : Char} {cs : List Char} {kind : TokenKind} {d : Cursor}
    (h : token p c cs = .ok (kind, d)) : c ≠ '/' := by
  rintro rfl
  cases h

/-- A token that is read behind a gap is read from its own characters as well. -/
theorem exists_lexes_alone {mode : Skipping} {p q : Position} {first : Char} {cs more : List Char}
    {kind : TokenKind} {d : Cursor} (hskip : skip mode q cs = .ok ⟨p, first :: more⟩)
    (htoken : token p first more = .ok (kind, d)) :
    ∃ body, more = body ++ d.rest ∧ Lexes (first :: body) [kind, .finish] := by
  have hstart : IsStart first := isStart_of_skip (ne_slash_of_token htoken) (skip_of_skip hskip)
  obtain ⟨body, hmore, hbody⟩ := exists_token_alone htoken
  exact ⟨body, hmore, lexes_nil.token hstart hbody⟩

end Scan

/-! ## Runs -/

/-- The tokens of a text from behind a first part of it on. -/
inductive IsCut (text : String) : String → List Token → Prop
  | finish {before gap : String} :
      text = before ++ gap → Scan.IsGap True gap.toList →
      IsCut text before [⟨.finish, (Position.behind text).spanTo (Position.behind text)⟩]
  | token {before gap body after : String} {kind : TokenKind} {us others : List Token} :
      text = before ++ gap ++ body ++ after → Scan.IsGap False gap.toList → body ≠ "" →
      kind ≠ .finish → tokenize body = .ok us → kinds us = [kind, .finish] →
      IsCut text (before ++ gap ++ body) others →
      IsCut text before (⟨kind, (Position.behind (before ++ gap)).spanTo
        (Position.behind (before ++ gap ++ body))⟩ :: others)

theorem isCut_of_tokens {text before : String} {c : Cursor} {ts : List Token}
    (hc : c.StandsIn text before) (h : Scan.tokens c = .ok ts) : IsCut text before ts := by
  fun_induction Scan.tokens c generalizing before ts with
  | case1 c e he => cases h
  | case2 c p hskip =>
    cases h
    obtain ⟨gap, hrest, hgap⟩ := Scan.exists_isSkipped hskip
    obtain ⟨htext, hp⟩ := hc.move (Scan.reaches_of_skip hskip) hrest
    have htext : text = before ++ String.ofList gap := by simpa using htext
    have hgap : Scan.IsGap True (String.ofList gap).toList := by
      rw [String.toList_ofList, ← eq_self ([] : List Char)]
      exact hgap
    have hp : p = .behind text := by
      rw [htext]
      exact hp
    rw [hp]
    exact .finish htext hgap
  | case3 c p first more hskip e he => cases h
  | case4 c p first more hskip kind d htoken _ ih =>
    obtain ⟨others, hothers, heq⟩ := Except.bind_eq_ok.1 h
    cases heq
    obtain ⟨gap, hrest, hgap⟩ := Scan.exists_isSkipped hskip
    obtain ⟨body, hmore, hlexes⟩ := Scan.exists_lexes_alone hskip htoken
    have hreach : Cursor.Reaches ⟨p, first :: more⟩ d :=
      (Cursor.Reaches.step p first more).trans (Scan.reaches_of_token htoken)
    have hfirst := hc.move (Scan.reaches_of_skip hskip) hrest
    have htoken' : first :: more = first :: body ++ d.rest := congrArg (first :: ·) hmore
    have hbehind := hfirst.move hreach htoken'
    obtain ⟨us, hus, hkinds⟩ := hlexes .start
    have hgap : Scan.IsGap False (String.ofList gap).toList := by
      rw [String.toList_ofList, ← eq_false (List.cons_ne_nil first more)]
      exact hgap
    have hbody : String.ofList (first :: body) ≠ "" := by simp
    have hread : tokenize (String.ofList (first :: body)) = .ok us := by
      rw [tokenize, String.toList_ofList]
      exact hus
    have hp : p = .behind (before ++ String.ofList gap) := hfirst.2
    rw [hp, hbehind.2]
    exact .token hbehind.1 hgap hbody (Scan.ne_finish_of_token htoken) hread hkinds
      (ih hbehind hothers)

/-! ## Spans -/

/-- A token is cut out of a text, behind a byte: a gap reaches from this byte to the token, which
stands where the characters before it end, and its own characters have this one token. -/
def Token.CutFrom (t : Token) (text : String) (stop : Nat) : Prop :=
  ∃ before gap body after : String, text = before ++ gap ++ body ++ after ∧
    before.utf8ByteSize = stop ∧ Scan.IsGap (t.kind = .finish) gap.toList ∧
    t.span = (Position.behind (before ++ gap)).spanTo (Position.behind (before ++ gap ++ body)) ∧
    ∃ us, tokenize body = .ok us ∧
      kinds us = if t.kind = .finish then [.finish] else [t.kind, .finish]

/-- The byte behind the last of some tokens. -/
def stopOf (start : Nat) (ts : List Token) : Nat :=
  ts.getLast?.elim start (·.span.stop)

theorem stopOf_cons (start : Nat) (t : Token) (ts : List Token) :
    stopOf start (t :: ts) = stopOf t.span.stop ts := by
  rw [stopOf, stopOf, List.getLast?_cons]
  cases ts.getLast? with
  | none => rfl
  | some u => rfl

theorem utf8ByteSize_le_append (s t : String) : s.utf8ByteSize ≤ (s ++ t).utf8ByteSize := by
  rw [String.utf8ByteSize_append]
  omega

namespace IsCut

variable {text before : String} {ts : List Token}

theorem le_start (h : IsCut text before ts) : ∀ t ∈ ts, before.utf8ByteSize ≤ t.span.start := by
  induction h with
  | @finish before gap htext hgap =>
    intro t ht
    rw [List.mem_singleton.1 ht, htext]
    exact utf8ByteSize_le_append before gap
  | @token before gap body after kind us others htext hgap hbody hkind hus hkinds _ ih =>
    intro t ht
    rcases List.mem_cons.1 ht with rfl | ht
    · exact utf8ByteSize_le_append before gap
    · calc before.utf8ByteSize
        _ ≤ (before ++ gap).utf8ByteSize := utf8ByteSize_le_append before gap
        _ ≤ (before ++ gap ++ body).utf8ByteSize := utf8ByteSize_le_append (before ++ gap) body
        _ ≤ t.span.start := ih t ht

/-- The tokens stand in order and do not overlap. -/
theorem ordered (h : IsCut text before ts) : ts.Pairwise (·.span.stop ≤ ·.span.start) := by
  induction h with
  | finish => exact List.pairwise_singleton _ _
  | token _ _ _ _ _ _ hothers ih => exact List.pairwise_cons.2 ⟨hothers.le_start, ih⟩

/-- The end of the text is the last token and the only one of its kind. -/
theorem finished (h : IsCut text before ts) : ∃ front,
    ts = front ++ [⟨.finish, (Position.behind text).spanTo (Position.behind text)⟩] ∧
      ∀ t ∈ front, t.kind ≠ .finish := by
  induction h with
  | finish => exact ⟨[], rfl, by simp⟩
  | token _ _ _ hkind _ _ _ ih =>
    obtain ⟨front, rfl, hfront⟩ := ih
    exact ⟨_ :: front, rfl, List.forall_mem_cons.2 ⟨hkind, hfront⟩⟩

theorem start_lt_stop (h : IsCut text before ts) :
    ∀ t ∈ ts, t.kind ≠ .finish → t.span.start < t.span.stop := by
  induction h with
  | finish =>
    intro t ht hkind
    rw [List.mem_singleton.1 ht] at hkind
    exact absurd rfl hkind
  | @token before gap body after kind us others htext hgap hbody hkind hus hkinds _ ih =>
    intro t ht hne
    rcases List.mem_cons.1 ht with rfl | ht
    · have hpos : 0 < body.utf8ByteSize := by
        rw [Nat.pos_iff_ne_zero, Ne, String.utf8ByteSize_eq_zero_iff]
        exact hbody
      show (before ++ gap).utf8ByteSize < (before ++ gap ++ body).utf8ByteSize
      rw [String.utf8ByteSize_append (s := before ++ gap)]
      omega
    · exact ih t ht hne

/-- Every token is cut out of the text behind the token before it. -/
theorem cutFrom (h : IsCut text before ts) {front back : List Token} {t : Token}
    (hts : ts = front ++ t :: back) : t.CutFrom text (stopOf before.utf8ByteSize front) := by
  induction h generalizing front with
  | @finish before gap htext hgap =>
    cases front with
    | nil =>
      cases hts
      obtain ⟨us, hus, hkinds⟩ := Scan.lexes_nil .start
      refine ⟨before, gap, "", "", by simpa using htext, rfl, ?_, ?_, us, hus, hkinds⟩
      · rw [eq_self]
        exact hgap
      · rw [htext, String.append_empty]
    | cons u front => simp at hts
  | @token before gap body after kind us others htext hgap hbody hkind hus hkinds _ ih =>
    cases front with
    | nil =>
      cases hts
      refine ⟨before, gap, body, after, htext, rfl, ?_, rfl, us, hus, ?_⟩
      · rw [eq_false hkind]
        exact hgap
      · rw [hkinds, if_neg hkind]
    | cons u front =>
      cases hts
      rw [stopOf_cons]
      exact ih rfl

end IsCut

/-- A text is cut into tokens without a rest. -/
structure IsCutInto (text : String) (ts : List Token) : Prop where
  ordered : ts.Pairwise fun t u => t.span.stop ≤ u.span.start
  start_lt_stop : ∀ t ∈ ts, t.kind ≠ .finish → t.span.start < t.span.stop
  finished : ∃ front,
    ts = front ++ [⟨.finish, (Position.behind text).spanTo (Position.behind text)⟩] ∧
      ∀ t ∈ front, t.kind ≠ .finish
  cutFrom : ∀ front t back, ts = front ++ t :: back → t.CutFrom text (stopOf 0 front)

theorem isCutInto_of_tokenize {text : String} {ts : List Token} (h : tokenize text = .ok ts) :
    IsCutInto text ts := by
  have hcut : IsCut text "" ts := isCut_of_tokens (Cursor.standsIn_start text) h
  exact ⟨hcut.ordered, hcut.start_lt_stop, hcut.finished, fun _ _ _ hts => hcut.cutFrom hts⟩

theorem span_le_of_tokenize_error {text : String} {e : ParseError} (h : tokenize text = .error e) :
    e.span.start ≤ e.span.stop ∧ e.span.stop ≤ text.utf8ByteSize := by
  obtain ⟨before, stretch, after, rfl, hspan⟩ := exists_stretch_of_tokenize_error h
  have hstart : e.span.start = before.utf8ByteSize := by rw [hspan]; rfl
  have hstop : e.span.stop = before.utf8ByteSize + stretch.utf8ByteSize := by
    rw [hspan]
    exact String.utf8ByteSize_append
  rw [hstart, hstop, String.utf8ByteSize_append, String.utf8ByteSize_append]
  omega

/-- The scanner comes to an end, cuts every text that it takes into its tokens without a rest, and
locates its problem in every other text. -/
theorem tokenize_lossless : WellFounded Scan.Round ∧ ∀ text : String,
    match tokenize text with
    | .ok ts => IsCutInto text ts
    | .error e => e.span.start ≤ e.span.stop ∧ e.span.stop ≤ text.utf8ByteSize := by
  refine ⟨Scan.wellFounded_round, fun text => ?_⟩
  cases h : tokenize text with
  | ok ts => exact isCutInto_of_tokenize h
  | error e => exact span_le_of_tokenize_error h

end RewriteSemantics
