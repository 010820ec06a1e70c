/-
# What tokens are spelled like

The scanner takes the longest token that fits, so what a spelling is read as depends on what stands
behind it. `Lexes cs ks` says that some characters up to the end of a text have tokens of some
kinds, wherever in the text they start. There is one lemma for each spelling, which puts its token
in front of those behind it; a name asks that the characters behind it do not go on with it.
-/
import Mathlib.Data.Bool.AllAny
import Mathlib.Data.List.TakeWhile
import RewriteSemantics.Proofs.Token.Scan

namespace RewriteSemantics

open Token (kinds)

namespace Scan

variable {p : Position} {c : Char} {cs rest : List Char} {kind : TokenKind} {ks : List TokenKind}

/-- Characters up to the end of a text have tokens of some kinds. -/
def Lexes (cs : List Char) (ks : List TokenKind) : Prop :=
  ∀ p, ∃ ts, tokens ⟨p, cs⟩ = .ok ts ∧ kinds ts = ks

/-! ## One token at a time -/

theorem tokens_eq_ok {ts : List Token} : tokens ⟨p, cs⟩ = .ok ts ↔
    (∃ q, skip .blanks p cs = .ok ⟨q, []⟩ ∧ ts = [⟨.finish, q.spanTo q⟩]) ∨
      ∃ q first more kind d others, skip .blanks p cs = .ok ⟨q, first :: more⟩ ∧
        token q first more = .ok (kind, d) ∧ tokens d = .ok others ∧
        ts = ⟨kind, q.spanTo d.position⟩ :: others := by
  rw [tokens]
  constructor
  · intro h
    split at h
    · cases h
    · rename_i hskip
      cases h
      exact .inl ⟨_, hskip, rfl⟩
    · rename_i hskip
      split at h
      · cases h
      · rename_i htoken
        obtain ⟨others, hothers, h⟩ := Except.bind_eq_ok.1 h
        cases h
        exact .inr ⟨_, _, _, _, _, others, hskip, htoken, hothers, rfl⟩
  · rintro (⟨q, hskip, rfl⟩ | ⟨q, first, more, kind, d, others, hskip, htoken, hothers, rfl⟩)
    · split
      · rename_i h
        cases h.symm.trans hskip
      · rename_i h
        cases h.symm.trans hskip
        rfl
      · rename_i h
        cases h.symm.trans hskip
    · split
      · rename_i h
        cases h.symm.trans hskip
      · rename_i h
        cases h.symm.trans hskip
      · rename_i h
        cases h.symm.trans hskip
        split
        · rename_i h
          cases h.symm.trans htoken
        · rename_i h
          cases h.symm.trans htoken
          exact Except.bind_eq_ok.2 ⟨others, hothers, rfl⟩

theorem lexes_nil : Lexes [] [.finish] :=
  fun p => ⟨_, tokens_eq_ok.2 (.inl ⟨p, rfl, rfl⟩), rfl⟩

/-- A token may start with a character: it is not skipped and does not start a comment. -/
def IsStart (c : Char) : Prop :=
  Text.isWhitespace c = false ∧ c ≠ '/'

theorem skip_of_isStart (h : IsStart c) (p : Position) (cs : List Char) :
    skip .blanks p (c :: cs) = .ok ⟨p, c :: cs⟩ := by
  rw [skip, if_neg (Bool.eq_false_iff.1 h.1)]
  · rintro _ rfl -
    exact h.2 rfl
  · rintro _ rfl -
    exact h.2 rfl

theorem isStart_of_skip {q : Position} (hslash : c ≠ '/')
    (h : skip .blanks p (c :: cs) = .ok ⟨q, c :: cs⟩) : IsStart c := by
  refine ⟨Bool.eq_false_iff.2 fun hblank => ?_, hslash⟩
  rw [skip, if_pos hblank] at h
  · exact absurd (reaches_of_skip h).length_le (Nat.not_succ_le_self _)
  · rintro _ rfl -
    exact hslash rfl
  · rintro _ rfl -
    exact hslash rfl

theorem Lexes.token (h : Lexes rest ks) (hc : IsStart c)
    (htoken : ∀ p, ∃ q, Scan.token p c cs = .ok (kind, ⟨q, rest⟩)) :
    Lexes (c :: cs) (kind :: ks) := by
  intro p
  obtain ⟨q, hq⟩ := htoken p
  obtain ⟨ts, hts, rfl⟩ := h q
  exact ⟨_,
    tokens_eq_ok.2 (.inr ⟨p, c, cs, kind, _, ts, skip_of_isStart hc p cs, hq, hts, rfl⟩), rfl⟩

theorem Lexes.blank (h : Lexes cs ks) : Lexes (' ' :: cs) ks := by
  intro p
  have hskip : skip .blanks p (' ' :: cs) = skip .blanks (p.step ' ') cs := rfl
  obtain ⟨ts, hts, hks⟩ := h (p.step ' ')
  rw [tokens_eq_ok, ← hskip, ← tokens_eq_ok] at hts
  exact ⟨ts, hts, hks⟩

/-! ## Marks -/

theorem Lexes.mark {m : Punctuation} (h : Lexes cs ks) (hc : IsStart c) (hm : mark? c = some m) :
    Lexes (c :: cs) (.punctuation m :: ks) := by
  refine h.token hc fun p => ⟨p.step c, ?_⟩
  unfold Scan.token
  rw [hm]

theorem Lexes.arrow (h : Lexes cs ks) : Lexes ('=' :: '>' :: cs) (.punctuation .arrow :: ks) :=
  h.token ⟨rfl, by decide⟩ fun _ => ⟨_, rfl⟩

theorem Lexes.followedBy (h : Lexes cs ks) :
    Lexes ('~' :: '>' :: cs) (.punctuation .followedBy :: ks) :=
  h.token ⟨rfl, by decide⟩ fun _ => ⟨_, rfl⟩

theorem Lexes.ellipsis (h : Lexes cs ks) :
    Lexes ('.' :: '.' :: '.' :: cs) (.punctuation .ellipsis :: ks) :=
  h.token ⟨rfl, by decide⟩ fun _ => ⟨_, rfl⟩

/-! ## Labels and texts -/

/-- Characters that satisfy a condition are taken, if no other one follows. -/
theorem takeWhile_append_of_headIs {q : Char → Bool} (hcs : ∀ c ∈ cs, q c = true)
    (hrest : headIs q rest = false) : (cs ++ rest).takeWhile q = cs := by
  rw [List.takeWhile_append_of_pos hcs]
  cases rest with
  | nil => exact List.append_nil cs
  | cons stop rest =>
    have hstop : ¬q stop = true := Bool.eq_false_iff.1 hrest
    rw [List.takeWhile_cons_of_neg hstop, List.append_nil]

theorem dropWhile_append_of_headIs {q : Char → Bool} (hcs : ∀ c ∈ cs, q c = true)
    (hrest : headIs q rest = false) : (cs ++ rest).dropWhile q = rest := by
  rw [List.dropWhile_append_of_pos hcs]
  cases rest with
  | nil => rfl
  | cons stop rest =>
    have hstop : ¬q stop = true := Bool.eq_false_iff.1 hrest
    rw [List.dropWhile_cons_of_neg hstop]

theorem Lexes.quoted (h : Lexes rest ks) (hne : cs ≠ []) (hcs : '\x60' ∉ cs) :
    Lexes ('\x60' :: (cs ++ '\x60' :: rest)) (.quoted (String.ofList cs) :: ks) := by
  refine h.token ⟨rfl, by decide⟩ fun p => ⟨((p.step '\x60').advance cs).step '\x60', ?_⟩
  have hplain : ∀ c ∈ cs, (!isBackquote c) = true := by
    intro c hc
    rw [Bool.not_eq_true', isBackquote, beq_eq_false_iff_ne]
    exact fun heq => hcs (heq ▸ hc)
  have htoken : Scan.token p '\x60' (cs ++ '\x60' :: rest) =
      quotedLabel p (p.step '\x60') (cs ++ '\x60' :: rest) := rfl
  rw [htoken, quotedLabel, takeWhile_append_of_headIs hplain rfl,
    dropWhile_append_of_headIs hplain rfl]
  exact if_neg (mt List.isEmpty_iff.1 hne)

/-- A text without quotation marks and backslashes is written as it is. -/
theorem textBody_append {start : Position} (hquote : '"' ∉ cs) (hslash : '\\' ∉ cs) :
    textBody start p (cs ++ '"' :: rest) = .ok (cs, ⟨(p.advance cs).step '"', rest⟩) := by
  induction cs generalizing p with
  | nil => rw [List.nil_append, textBody]; rfl
  | cons c cs ih =>
    rw [List.mem_cons, not_or] at hquote hslash
    rw [List.cons_append, textBody]
    · exact Except.bind_eq_ok.2 ⟨_, ih hquote.2 hslash.2, rfl⟩
    · exact fun heq => hquote.1 heq.symm
    · rintro rfl -
      exact hslash.1 rfl
    · rintro _ _ rfl -
      exact hslash.1 rfl

theorem Lexes.text (h : Lexes rest ks) (hquote : '"' ∉ cs) (hslash : '\\' ∉ cs) :
    Lexes ('"' :: (cs ++ '"' :: rest)) (.text (String.ofList cs) :: ks) := by
  refine h.token ⟨rfl, by decide⟩ fun p => ⟨((p.step '"').advance cs).step '"', ?_⟩
  have htoken : Scan.token p '"' (cs ++ '"' :: rest) =
      textBody p (p.step '"') (cs ++ '"' :: rest) >>= fun read =>
        .ok (.text (String.ofList read.1), read.2) := rfl
  rw [htoken, textBody_append hquote hslash]
  rfl

/-! ## Tags -/

theorem tagAttributes_of_none {start : Position} {cell : String} {closing : Bool} {c d : Cursor}
    (h : tagAttribute start cell closing c = .ok (none, d)) :
    tagAttributes start cell closing c = .ok ([], d) := by
  rw [tagAttributes]
  split
  · rename_i h'
    cases h'.symm.trans h
  · rename_i h'
    cases h'.symm.trans h
    rfl
  · rename_i h'
    cases h'.symm.trans h

theorem tagAttributes_of_some {start : Position} {cell : String} {closing : Bool} {c d e : Cursor}
    {first : String × String} {others : List (String × String)}
    (h : tagAttribute start cell closing c = .ok (some first, d))
    (hothers : tagAttributes start cell closing d = .ok (others, e)) :
    tagAttributes start cell closing c = .ok (first :: others, e) := by
  rw [tagAttributes]
  split
  · rename_i h'
    cases h'.symm.trans h
  · rename_i h'
    cases h'.symm.trans h
  · rename_i h'
    cases h'.symm.trans h
    exact Except.bind_eq_ok.2 ⟨_, hothers, rfl⟩

/-- A name and a closing bracket are read as a tag without attributes. -/
theorem tag_append {start : Position} {closing : Bool} (hne : cs ≠ [])
    (hcs : ∀ c ∈ cs, Text.isNameChar c = true) : ∃ q, tag start closing p (cs ++ '>' :: rest) =
      .ok (if closing then .cellClose (String.ofList cs) else .cellOpen (String.ofList cs) [],
        ⟨q, rest⟩) := by
  refine ⟨(p.advance cs).step '>', ?_⟩
  have hskip : Cursor.skipWhile Text.isNameChar ⟨p, cs ++ '>' :: rest⟩ =
      ⟨p.advance cs, '>' :: rest⟩ := by
    rw [Cursor.skipWhile, takeWhile_append_of_headIs hcs rfl, dropWhile_append_of_headIs hcs rfl]
  have hattributes : tagAttributes start (String.ofList cs) closing ⟨p.advance cs, '>' :: rest⟩ =
      .ok ([], ⟨(p.advance cs).step '>', rest⟩) :=
    tagAttributes_of_none rfl
  rw [tag, takeWhile_append_of_headIs hcs rfl, hskip, if_neg (mt List.isEmpty_iff.1 hne),
    hattributes]
  rfl

theorem token_tag (p : Position) (cs : List Char) : token p '<' cs =
    match cs with
    | '/' :: rest => tag p true ((p.step '<').step '/') rest
    | _ => tag p false (p.step '<') cs :=
  rfl

theorem Lexes.cellOpen (h : Lexes rest ks) (hne : cs ≠ [])
    (hcs : ∀ c ∈ cs, Text.isNameChar c = true) :
    Lexes ('<' :: (cs ++ '>' :: rest)) (.cellOpen (String.ofList cs) [] :: ks) := by
  refine h.token ⟨rfl, by decide⟩ fun p => ?_
  rw [token_tag]
  split
  · rename_i heq
    cases cs with
    | nil => exact absurd rfl hne
    | cons c cs =>
      cases heq
      exact absurd (hcs '/' List.mem_cons_self) (by decide)
  · exact tag_append hne hcs

theorem Lexes.cellClose (h : Lexes rest ks) (hne : cs ≠ [])
    (hcs : ∀ c ∈ cs, Text.isNameChar c = true) :
    Lexes ('<' :: '/' :: (cs ++ '>' :: rest)) (.cellClose (String.ofList cs) :: ks) := by
  refine h.token ⟨rfl, by decide⟩ fun p => ?_
  rw [token_tag]
  exact tag_append hne hcs

/-! ## Integers -/

/-- The characters that start marks, tags, quoted labels, texts and negative numbers. -/
def marks : List Char :=
  ['(', ')', '[', ']', ',', ':', '=', '~', '.', '<', '\x60', '"', '-']

/-- Any other character starts a number or a name. -/
theorem token_of_notMem (hc : c ∉ marks) (p : Position) (cs : List Char) : token p c cs =
    if c.isDigit then integer p c cs
    else if isSigil c && headIs Text.isAlphabetic cs then .ok (name .ident p c cs)
    else if Text.isAlphabetic c || c == '_' then .ok (name ofName p c cs)
    else fail p (p.step c) (.unexpectedCharacter c) := by
  simp only [marks, List.mem_cons, List.not_mem_nil, or_false, not_or] at hc
  have hmark : mark? c = none := by
    unfold mark?
    split <;> simp_all
  unfold token
  simp [hmark, hc, isBackquote]

/-- The decimal digits. -/
def digits : List Char :=
  ['0', '1', '2', '3', '4', '5', '6', '7', '8', '9']

theorem mem_digits (hc : c.isDigit = true) : c ∈ digits := by
  rw [Char.isDigit, Bool.and_eq_true, decide_eq_true_iff, decide_eq_true_iff] at hc
  have hlo : 48 ≤ c.toNat := hc.1
  have hhi : c.toNat ≤ 57 := hc.2
  have hall : ∀ n < 58, 48 ≤ n → Char.ofNat n ∈ digits := by decide
  rw [← Char.ofNat_toNat c]
  exact hall _ (Nat.lt_succ_of_le hhi) hlo

theorem isStart_of_isDigit (hc : c.isDigit = true) : IsStart c := by
  have hdigits : ∀ d ∈ digits, Text.isWhitespace d = false ∧ d ≠ '/' :=
    List.all_iff_forall_prop.1 (by decide)
  exact hdigits c (mem_digits hc)

theorem token_digit (hc : c.isDigit = true) (p : Position) (cs : List Char) :
    token p c cs = integer p c cs := by
  have hdigits : ∀ d ∈ digits, d ∉ marks := List.all_iff_forall_prop.1 (by decide)
  rw [token_of_notMem (hdigits c (mem_digits hc)), if_pos hc]

/-- The characters that follow do not go on with a name or a number. -/
def Follows (rest : List Char) : Prop :=
  headIs Text.isNameChar rest = false

theorem Follows.headIs_isDigit (h : Follows rest) : headIs Char.isDigit rest = false := by
  cases rest with
  | nil => rfl
  | cons c rest =>
    have hdigits : ∀ d ∈ digits, Text.isNameChar d = true :=
      List.all_iff_forall_prop.1 (by decide)
    have hname : ¬Text.isNameChar c = true := Bool.eq_false_iff.1 h
    exact Bool.eq_false_iff.2 (mt (fun hc => hdigits c (mem_digits hc)) hname)

/-- A sign or digit and more digits are read as the integer they stand for. -/
theorem integer_append {first : Char} {value : Int} (hcs : ∀ c ∈ cs, c.isDigit = true)
    (hrest : Follows rest) (hvalue : integerValue first cs = value)
    (hmin : -9223372036854775808 ≤ value) (hmax : value < 9223372036854775808) (p : Position) :
    ∃ q, integer p first (cs ++ rest) = .ok (.int value, ⟨q, rest⟩) := by
  refine ⟨(p.step first).advance cs, ?_⟩
  rw [integer, Cursor.skipWhile, takeWhile_append_of_headIs hcs hrest.headIs_isDigit,
    dropWhile_append_of_headIs hcs hrest.headIs_isDigit, hvalue]
  exact if_pos ⟨hmin, hmax⟩

theorem Lexes.int {value : Int} (h : Lexes rest ks) (hrest : Follows rest)
    (hmin : -9223372036854775808 ≤ value) (hmax : value < 9223372036854775808) :
    Lexes ((toString value).toList ++ rest) (.int value :: ks) := by
  have hdigits (n : Nat) : ∀ c ∈ Nat.toDigits 10 n, c.isDigit = true := fun c =>
    Nat.isDigit_of_mem_toDigits (by decide) (by decide)
  cases value with
  | ofNat n =>
    have htext : (toString (Int.ofNat n)).toList = Nat.toDigits 10 n := String.toList_ofList
    have hvalue : (Nat.ofDigitChars 10 (Nat.toDigits 10 n) 0 : Int) = n :=
      congrArg Nat.cast Nat.ofDigitChars_ten_toDigits
    specialize hdigits n
    rw [htext]
    cases hcs : Nat.toDigits 10 n with
    | nil => exact absurd hcs Nat.toDigits_ne_nil
    | cons c cs =>
      rw [hcs] at hdigits hvalue
      obtain ⟨hc, hdigits⟩ := List.forall_mem_cons.1 hdigits
      refine h.token (isStart_of_isDigit hc) fun p => ?_
      rw [token_digit hc]
      refine integer_append hdigits hrest ?_ hmin hmax p
      rw [integerValue, if_neg (by rintro rfl; cases hc)]
      exact hvalue
  | negSucc n =>
    have htext : (toString (Int.negSucc n)).toList = '-' :: Nat.toDigits 10 (n + 1) := by
      rw [Int.toString_eq_repr]
      exact String.toList_append.trans (congrArg _ String.toList_ofList)
    have hvalue : -(Nat.ofDigitChars 10 (Nat.toDigits 10 (n + 1)) 0 : Int) = Int.negSucc n := by
      rw [Nat.ofDigitChars_ten_toDigits]
      rfl
    specialize hdigits (n + 1)
    rw [htext, List.cons_append]
    refine h.token ⟨rfl, by decide⟩ fun p => ?_
    have htoken : Scan.token p '-' (Nat.toDigits 10 (n + 1) ++ rest) =
        integer p '-' (Nat.toDigits 10 (n + 1) ++ rest) := by
      cases hcs : Nat.toDigits 10 (n + 1) with
      | nil => exact absurd hcs Nat.toDigits_ne_nil
      | cons c cs =>
        rw [hcs] at hdigits
        exact if_pos (hdigits c List.mem_cons_self)
    rw [htoken]
    exact integer_append hdigits hrest ((if_pos rfl).trans hvalue) hmin hmax p

/-! ## Names -/

/-- A text that is the spelling of the name it is. -/
def IsIdentifier (text : String) : Prop :=
  ∃ ts, tokenize text = .ok ts ∧ kinds ts = [.ident text, .finish]

theorem isIdentifier_of_token {text : String} (hlist : text.toList = c :: cs) (hc : IsStart c)
    (htoken : ∀ p, ∃ q, Scan.token p c cs = .ok (.ident text, ⟨q, []⟩)) : IsIdentifier text := by
  have hlexes := lexes_nil.token hc htoken
  rw [← hlist] at hlexes
  exact hlexes .start

theorem not_startsWord_of_mem_marks (hc : c ∈ marks) : ¬StartsWord c := by
  have hmarks : ∀ d ∈ marks, (Text.isAlphabetic d || d == '_') = false :=
    List.all_iff_forall_prop.1 (by decide)
  exact Bool.eq_false_iff.1 (hmarks c hc)

theorem token_word (hc : StartsWord c) (p : Position) (cs : List Char) :
    token p c cs = .ok (name ofName p c cs) := by
  have hdigits : ∀ d ∈ digits, (Text.isAlphabetic d || d == '_') = false :=
    List.all_iff_forall_prop.1 (by decide)
  have hsigils : ∀ d, isSigil d = true → (Text.isAlphabetic d || d == '_') = false := by
    intro d hd
    simp only [isSigil, Bool.or_eq_true, beq_iff_eq] at hd
    rcases hd with (((rfl | rfl) | rfl) | rfl) | rfl <;> rfl
  rw [token_of_notMem (mt not_startsWord_of_mem_marks (not_not_intro hc)), if_neg, if_neg]
  · exact if_pos hc
  · rw [Bool.and_eq_true]
    exact fun h => Bool.eq_false_iff.1 (hsigils c h.1) hc
  · exact fun h => Bool.eq_false_iff.1 (hdigits c (mem_digits h)) hc

theorem token_marked (h : StartsMarked c cs) (p : Position) :
    token p c cs = .ok (name .ident p c cs) := by
  obtain ⟨hc, hcs⟩ := Bool.and_eq_true_iff.1 h
  by_cases hdot : c = '.'
  · -- The letter behind the dot is no dot, so this is not an ellipsis.
    have hnot : headIs (· == '.') cs = false := by
      cases cs with
      | nil => rfl
      | cons d cs =>
        have hd : d ≠ '.' := by
          rintro rfl
          exact absurd (show Text.isAlphabetic '.' = true from hcs) (by decide)
        exact beq_eq_false_iff_ne.2 hd
    subst hdot
    unfold token
    simp [mark?, hnot, isBackquote, isSigil, hcs]
  · have hmarks : c ∉ marks ∧ ¬c.isDigit = true := by
      simp only [isSigil, Bool.or_eq_true, beq_iff_eq, hdot, or_false] at hc
      rcases hc with ((rfl | rfl) | rfl) | rfl <;> decide
    rw [token_of_notMem hmarks.1, if_neg hmarks.2]
    exact if_pos h

theorem eq_of_ofName_eq_ident {text other : String} (h : ofName text = .ident other) :
    text = other := by
  rw [ofName] at h
  split at h
  · cases h
  · cases h
    rfl

/-- The spelling of a name is a start and characters that go on with it, and is not a keyword. -/
theorem exists_start_of_isIdentifier {text : String} (h : IsIdentifier text) :
    ∃ c cs, text.toList = c :: cs ∧ IsStart c ∧ (∀ x ∈ cs, Text.isNameChar x = true) ∧
      (StartsMarked c cs ∨ StartsWord c ∧ ofName text = .ident text) := by
  obtain ⟨ts, hts, hkinds⟩ := h
  rcases tokens_eq_ok.1 hts with ⟨q, -, rfl⟩ | ⟨q, c, cs, kind, d, others, hskip, htoken, -, rfl⟩
  · cases hkinds
  rw [Token.kinds_cons, List.cons.injEq] at hkinds
  obtain ⟨rfl, -⟩ := hkinds
  have hstart : (StartsMarked c cs ∨ StartsWord c ∧ ofName text = .ident text) ∧
      text = String.ofList (c :: cs.takeWhile Text.isNameChar) := by
    rcases token_cases htoken with h | ⟨hc, heq⟩ | ⟨hc, heq⟩
    · exact absurd rfl (h.2 text)
    · exact ⟨.inl hc, TokenKind.ident.inj (Prod.mk.inj heq).1⟩
    · have hname := (Prod.mk.inj heq).1.symm
      have htext := eq_of_ofName_eq_ident hname
      rw [htext] at hname
      exact ⟨.inr ⟨hc, hname⟩, htext.symm⟩
  obtain ⟨hstart, htext⟩ := hstart
  -- The name is as long as the text, so nothing was skipped and nothing is left.
  obtain ⟨skipped, hchars, -⟩ := reaches_of_skip hskip
  have hlist : text.toList = c :: cs.takeWhile Text.isNameChar := by
    rw [htext, String.toList_ofList]
  have hprefix := List.takeWhile_prefix Text.isNameChar (l := cs)
  have hlength : (cs.takeWhile Text.isNameChar).length = cs.length := by
    have heq := congrArg List.length (hlist.symm.trans hchars)
    simp only [List.length_cons, List.length_append] at heq
    have := hprefix.length_le
    omega
  have hall := hprefix.eq_of_length hlength
  rw [hall] at hlist
  refine ⟨c, cs, hlist, isStart_of_skip ?_ (hlist ▸ hskip), fun x hx => ?_, hstart⟩
  · rcases hstart with h | ⟨h, -⟩
    · rintro rfl
      exact absurd (Bool.and_eq_true_iff.1 h).1 (by decide)
    · rintro rfl
      exact absurd (show (Text.isAlphabetic '/' || '/' == '_') = true from h) (by decide)
  · exact List.takeWhile_eq_self_iff.1 hall x hx

/-- What follows a name does not change how it is scanned. -/
theorem exists_token_of_isIdentifier {text : String} (htext : IsIdentifier text)
    (hrest : Follows rest) : ∃ c cs, text.toList ++ rest = c :: cs ∧ IsStart c ∧
      ∀ p, ∃ q, token p c cs = .ok (.ident text, ⟨q, rest⟩) := by
  obtain ⟨c, cs, hlist, hstart, hcs, hname⟩ := exists_start_of_isIdentifier htext
  have hread : ∀ kind, (name kind · c (cs ++ rest)) =
      fun p => (kind text, ⟨(p.step c).advance cs, rest⟩) := by
    intro kind
    funext p
    rw [name, Cursor.skipWhile, takeWhile_append_of_headIs hcs hrest,
      dropWhile_append_of_headIs hcs hrest, ← hlist, String.ofList_toList]
  refine ⟨c, cs ++ rest, by rw [hlist, List.cons_append], hstart, fun p => ?_⟩
  refine ⟨(p.step c).advance cs, ?_⟩
  rcases hname with hmarked | ⟨hword, hof⟩
  · have hmarked : StartsMarked c (cs ++ rest) := by
      cases cs with
      | nil => exact absurd hmarked (by simp [StartsMarked, headIs])
      | cons d cs => exact hmarked
    rw [token_marked hmarked]
    exact congrArg Except.ok (congrFun (hread _) p)
  · rw [token_word hword, congrFun (hread ofName) p, hof]

/-- What follows a name does not change how it is read. -/
theorem Lexes.identifier {text : String} (h : Lexes rest ks) (htext : IsIdentifier text)
    (hrest : Follows rest) : Lexes (text.toList ++ rest) (.ident text :: ks) := by
  obtain ⟨c, cs, hlist, hstart, htoken⟩ := exists_token_of_isIdentifier htext hrest
  rw [hlist]
  exact h.token hstart htoken

end Scan

end RewriteSemantics
