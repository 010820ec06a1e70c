/-
# Reading a token by itself

What a token is does not depend on where it stands, and what stands behind it only ends it. So the
characters of a token, taken out of their text, are read as this token. Texts, labels and tags show
their own end, and are read from their characters whatever follows. Names and integers go on for as
long as they can, and by themselves they end where their characters do.
-/
import RewriteSemantics.Proofs.Token.Spelling

namespace RewriteSemantics

namespace Scan

variable {α : Type} {start p : Position} {c : Char} {cs : List Char} {kind : TokenKind} {d : Cursor}

/-! ## Stretches of characters -/

/-- What is skipped satisfies the condition, and what follows does not. -/
theorem exists_of_skipWhile {q : Char → Bool} {e : Cursor} (h : e.skipWhile q = d) :
    ∃ front, e.rest = front ++ d.rest ∧ front = e.rest.takeWhile q ∧ (∀ x ∈ front, q x = true) ∧
      headIs q d.rest = false := by
  refine ⟨e.rest.takeWhile q, ?_, rfl, fun x => List.mem_takeWhile_imp, ?_⟩
  · rw [← h]
    exact List.takeWhile_append_dropWhile.symm
  · rw [← h]
    show (e.rest.dropWhile q).head?.any q = false
    cases hrest : e.rest.dropWhile q with
    | nil => rfl
    | cons x rest =>
      have hx := List.head?_dropWhile_not q e.rest
      rw [hrest] at hx
      simpa using hx

theorem skipWhile_append {q : Char → Bool} {front rest : List Char}
    (hfront : ∀ x ∈ front, q x = true) (hrest : headIs q rest = false) (p : Position) :
    (Cursor.mk p (front ++ rest)).skipWhile q = ⟨p.advance front, rest⟩ := by
  rw [Cursor.skipWhile, takeWhile_append_of_headIs hfront hrest,
    dropWhile_append_of_headIs hfront hrest]

/-! ## Values that show their own end -/

/-- A scanner reads a value from some characters, whatever place they stand at and whatever follows
them. -/
def Spells (scan : Position → Position → List Char → Except ParseError (α × Cursor))
    (cs : List Char) (value : α) : Prop :=
  ∀ start p rest, ∃ q, scan start p (cs ++ rest) = .ok (value, ⟨q, rest⟩)

theorem exists_spells_of_textBody {text : List Char} (h : textBody start p cs = .ok (text, d)) :
    ∃ body, cs = body ++ d.rest ∧ Spells textBody body text := by
  fun_induction textBody start p cs generalizing text d with
  | case1 p => cases h
  | case2 p cs =>
    cases h
    exact ⟨['"'], rfl, fun _ _ _ => ⟨_, rfl⟩⟩
  | case3 p => cases h
  | case4 p c cs escaped hc ih =>
    obtain ⟨⟨others, e⟩, hothers, heq⟩ := Except.bind_eq_ok.1 h
    cases heq
    obtain ⟨body, rfl, hbody⟩ := ih hothers
    refine ⟨'\\' :: c :: body, rfl, fun start p rest => ?_⟩
    obtain ⟨q, hq⟩ := hbody start ((p.step '\\').step c) rest
    refine ⟨q, ?_⟩
    rw [List.cons_append, List.cons_append, textBody, hc]
    exact Except.bind_eq_ok.2 ⟨_, hq, rfl⟩
  | case5 p c cs hc => cases h
  | case6 p c cs hquote hlone hescape ih =>
    obtain ⟨⟨others, e⟩, hothers, heq⟩ := Except.bind_eq_ok.1 h
    cases heq
    obtain ⟨body, hcs, hbody⟩ := ih hothers
    have hslash : c ≠ '\\' := by
      intro hc
      cases cs with
      | nil => exact hlone hc rfl
      | cons x more => exact hescape x more hc rfl
    refine ⟨c :: body, congrArg (c :: ·) hcs, fun start p rest => ?_⟩
    obtain ⟨q, hq⟩ := hbody start (p.step c) rest
    refine ⟨q, ?_⟩
    rw [List.cons_append, textBody]
    · exact Except.bind_eq_ok.2 ⟨_, hq, rfl⟩
    · exact hquote
    · exact fun hc _ => hslash hc
    · exact fun _ _ hc _ => hslash hc

theorem exists_spells_of_quotedLabel (h : quotedLabel start p cs = .ok (kind, d)) :
    ∃ body, cs = body ++ d.rest ∧ Spells quotedLabel body kind := by
  have hskip := exists_of_skipWhile (e := ⟨p, cs⟩) (q := (!isBackquote ·)) rfl
  obtain ⟨label, hcs, hlabel, hplain, -⟩ := hskip
  simp only [Cursor.skipWhile] at hcs
  rw [quotedLabel, ← hlabel] at h
  split at h
  · cases h
  · rename_i quote rest hrest
    have hquote : quote = '\x60' := by
      have hnot := List.head?_dropWhile_not (!isBackquote ·) cs
      rw [hrest] at hnot
      simpa [isBackquote] using hnot
    subst hquote
    simp only at h
    split at h
    · cases h
    · rename_i hne
      cases h
      refine ⟨label ++ ['\x60'], ?_, fun start p rest => ?_⟩
      · rw [hrest] at hcs
        rw [hcs, List.append_assoc]
        rfl
      · refine ⟨(p.advance label).step '\x60', ?_⟩
        rw [List.append_assoc, List.singleton_append, quotedLabel,
          takeWhile_append_of_headIs hplain rfl, dropWhile_append_of_headIs hplain rfl]
        exact if_neg hne

/-! ### Tags -/

/-- The scanner of the attributes of a tag, at any place. -/
def attributeScan (cell : String) (closing : Bool) (start p : Position) (cs : List Char) :
    Except ParseError (Option (String × String) × Cursor) :=
  tagAttribute start cell closing ⟨p, cs⟩

/-- The scanner of all attributes of a tag, at any place. -/
def attributesScan (cell : String) (closing : Bool) (start p : Position) (cs : List Char) :
    Except ParseError (List (String × String) × Cursor) :=
  tagAttributes start cell closing ⟨p, cs⟩

/-- The scanner of a tag. -/
def tagScan (closing : Bool) (start p : Position) (cs : List Char) :
    Except ParseError (TokenKind × Cursor) :=
  tag start closing p cs

section

variable {cell : String} {closing : Bool} {c : Cursor}

theorem exists_spells_of_tagAttribute {found : Option (String × String)}
    (h : tagAttribute start cell closing c = .ok (found, d)) :
    ∃ body, c.rest = body ++ d.rest ∧ Spells (attributeScan cell closing) body found := by
  rw [tagAttribute] at h
  split at h
  · cases h
  · rename_i p first more hskip
    obtain ⟨blanks, hrest, -, hblanks, hfirst⟩ := exists_of_skipWhile hskip
    have hskip (q : Position) (others : List Char) :
        (Cursor.mk q (blanks ++ first :: others)).skipWhile Text.isWhitespace =
          ⟨q.advance blanks, first :: others⟩ := by
      have hvisible : headIs Text.isWhitespace (first :: others) = false := hfirst
      exact skipWhile_append hblanks hvisible q
    split at h
    · rename_i hclose
      cases h
      refine ⟨blanks ++ [first], by simp [hrest], fun start q rest =>
        ⟨(q.advance blanks).step first, ?_⟩⟩
      rw [attributeScan, tagAttribute, List.append_assoc, List.singleton_append, hskip]
      exact if_pos hclose
    · rename_i hclose
      split at h
      · cases h
      · rename_i hopen
        simp only at h
        split at h
        · rename_i p' value hname
          obtain ⟨more', hmore, hmore', hname, hequals⟩ := exists_of_skipWhile hname
          obtain ⟨⟨text, e⟩, htext, heq⟩ := Except.bind_eq_ok.1 h
          cases heq
          obtain ⟨body, hvalue, hbody⟩ := exists_spells_of_textBody htext
          simp only at hmore hmore'
          refine ⟨blanks ++ first :: (more' ++ '=' :: '"' :: body), ?_, fun start q rest => ?_⟩
          · rw [hrest, hmore, hvalue]
            simp
          · obtain ⟨r, hr⟩ := hbody start
              (((((q.advance blanks).step first).advance more').step '=').step '"') rest
            refine ⟨r, ?_⟩
            have hassoc : blanks ++ first :: (more' ++ '=' :: '"' :: body) ++ rest =
                blanks ++ first :: (more' ++ '=' :: '"' :: (body ++ rest)) := by simp
            have hstop : headIs Text.isNameChar ('=' :: '"' :: (body ++ rest)) = false := rfl
            rw [attributeScan, tagAttribute, hassoc, hskip]
            simp only [if_neg hclose, if_neg hopen, skipWhile_append hname hstop,
              takeWhile_append_of_headIs hname hstop]
            rw [← hmore']
            exact Except.bind_eq_ok.2 ⟨_, hr, rfl⟩
        · cases h

theorem passes_of_tagAttributes {attributes : List (String × String)}
    (h : tagAttributes start cell closing c = .ok (attributes, d)) : c.Passes d := by
  rw [tagAttributes] at h
  split at h
  · cases h
  · rename_i hone
    cases h
    exact passes_of_tagAttribute hone
  · rename_i hone
    obtain ⟨_, hothers, heq⟩ := Except.bind_eq_ok.1 h
    cases heq
    exact (passes_of_tagAttribute hone).trans_reaches (reaches_of_tagAttributes hothers)

theorem exists_spells_of_tagAttributes {attributes : List (String × String)}
    (h : tagAttributes start cell closing c = .ok (attributes, d)) :
    ∃ body, c.rest = body ++ d.rest ∧ Spells (attributesScan cell closing) body attributes := by
  fun_induction tagAttributes start cell closing c generalizing attributes d with
  | case1 c e he => cases h
  | case2 c e he =>
    cases h
    obtain ⟨body, hrest, hbody⟩ := exists_spells_of_tagAttribute he
    refine ⟨body, hrest, fun start p rest => ?_⟩
    obtain ⟨q, hq⟩ := hbody start p rest
    exact ⟨q, tagAttributes_of_none hq⟩
  | case3 c found e he _ ih =>
    obtain ⟨⟨others, e'⟩, hothers, heq⟩ := Except.bind_eq_ok.1 h
    cases heq
    obtain ⟨first, hfirst, hone⟩ := exists_spells_of_tagAttribute he
    obtain ⟨body, hrest, hbody⟩ := ih hothers
    refine ⟨first ++ body, by rw [hfirst, hrest, List.append_assoc], fun start p rest => ?_⟩
    obtain ⟨q, hq⟩ := hone start p (body ++ rest)
    obtain ⟨q', hq'⟩ := hbody start q rest
    refine ⟨q', ?_⟩
    rw [List.append_assoc]
    exact tagAttributes_of_some hq hq'

end

theorem exists_spells_of_tag {closing : Bool} (h : tag start closing p cs = .ok (kind, d)) :
    ∃ body, cs = body ++ d.rest ∧ Spells (tagScan closing) body kind := by
  have hskip := exists_of_skipWhile (e := ⟨p, cs⟩) (q := Text.isNameChar) rfl
  obtain ⟨name, hcs, hname, hchars, hstop⟩ := hskip
  simp only at hcs hname
  simp only [tag, ← hname] at h
  split at h
  · cases h
  · rename_i hne
    obtain ⟨⟨attributes, e⟩, hattributes, heq⟩ := Except.bind_eq_ok.1 h
    cases heq
    obtain ⟨body, hrest, hbody⟩ := exists_spells_of_tagAttributes hattributes
    refine ⟨name ++ body, by rw [hcs, hrest, List.append_assoc], fun start p rest => ?_⟩
    obtain ⟨q, hq⟩ := hbody start (p.advance name) rest
    refine ⟨q, ?_⟩
    -- The name ends where it did, for something is left of the tag behind it.
    have hbehind : headIs Text.isNameChar (body ++ rest) = false := by
      cases body with
      | nil =>
        have hlt := (passes_of_tagAttributes hattributes).length_lt
        rw [hrest] at hlt
        exact absurd hlt (Nat.lt_irrefl _)
      | cons c body =>
        rw [hrest] at hstop
        exact hstop
    rw [tagScan, tag, List.append_assoc, takeWhile_append_of_headIs hchars hbehind, if_neg hne,
      skipWhile_append hchars hbehind]
    exact Except.bind_eq_ok.2 ⟨_, hq, rfl⟩

/-! ## Tokens -/

/-- An integer by itself is all of its digits. -/
theorem exists_integer_alone (h : integer p c cs = .ok (kind, d)) :
    ∃ body, cs = body ++ d.rest ∧
      (headIs Char.isDigit cs = true → headIs Char.isDigit body = true) ∧
      ∀ p, ∃ q, integer p c body = .ok (kind, ⟨q, []⟩) := by
  obtain ⟨digits, hcs, hdigits, hall, hstop⟩ :=
    exists_of_skipWhile (e := ⟨p.step c, cs⟩) (q := Char.isDigit) rfl
  simp only at hcs hdigits
  simp only [integer, ← hdigits] at h
  split at h
  · rename_i hrange
    cases h
    refine ⟨digits, hcs, fun hhead => ?_, fun p => ?_⟩
    · cases digits with
      | nil =>
        rw [List.nil_append] at hcs
        rw [← hcs, hhead] at hstop
        cases hstop
      | cons x more => exact hall x List.mem_cons_self
    · have hend : Follows [] := rfl
      have happ := integer_append hall hend rfl hrange.1 hrange.2 p
      rwa [List.append_nil] at happ
  · cases h

/-- A name by itself is all of its characters. -/
theorem exists_name_alone {make : String → TokenKind} (h : name make p c cs = (kind, d)) :
    ∃ body, cs = body ++ d.rest ∧ body = cs.takeWhile Text.isNameChar ∧
      ∀ p, ∃ q, name make p c body = (kind, ⟨q, []⟩) := by
  obtain ⟨body, hcs, hbody, hall, -⟩ :=
    exists_of_skipWhile (e := ⟨p.step c, cs⟩) (q := Text.isNameChar) rfl
  simp only at hcs hbody
  rw [name, ← hbody, Prod.mk.injEq] at h
  obtain ⟨rfl, rfl⟩ := h
  refine ⟨body, hcs, hbody, fun p => ⟨(p.step c).advance body, ?_⟩⟩
  rw [name, List.takeWhile_eq_self_iff.2 hall, Cursor.skipWhile, List.takeWhile_eq_self_iff.2 hall,
    List.dropWhile_eq_nil_iff.2 hall]

/-- The letter that a marked name needs is one of the characters of the name. -/
theorem startsMarked_takeWhile (h : StartsMarked c cs) :
    StartsMarked c (cs.takeWhile Text.isNameChar) := by
  obtain ⟨hc, hcs⟩ := Bool.and_eq_true_iff.1 h
  cases cs with
  | nil => cases hcs
  | cons x more =>
    have hletter : Text.isAlphabetic x = true := hcs
    have hname : Text.isNameChar x = true := by
      simp [Text.isNameChar, Text.isAlphanumeric, hletter]
    rw [List.takeWhile_cons_of_pos hname]
    exact Bool.and_eq_true_iff.2 ⟨hc, hcs⟩

/-- The characters of a token, taken out of the text, are read as this token. -/
theorem exists_token_alone (h : token p c cs = .ok (kind, d)) :
    ∃ body, cs = body ++ d.rest ∧ ∀ p, ∃ q, token p c body = .ok (kind, ⟨q, []⟩) := by
  have hbranch := branch_token p c cs
  generalize token p c cs = result at h hbranch
  cases hbranch with
  | mark hm =>
    cases h
    refine ⟨[], rfl, fun p => ⟨p.step c, ?_⟩⟩
    unfold token
    rw [hm]
  | definedAs rest =>
    cases h
    exact ⟨[':', '='], rfl, fun _ => ⟨_, rfl⟩⟩
  | colon =>
    cases h
    exact ⟨[], rfl, fun _ => ⟨_, rfl⟩⟩
  | arrow rest =>
    cases h
    exact ⟨['>'], rfl, fun _ => ⟨_, rfl⟩⟩
  | followedBy rest =>
    cases h
    exact ⟨['>'], rfl, fun _ => ⟨_, rfl⟩⟩
  | ellipsis rest =>
    cases h
    exact ⟨['.', '.'], rfl, fun _ => ⟨_, rfl⟩⟩
  | twoDots rest => cases h
  | closing rest =>
    obtain ⟨body, hcs, hbody⟩ := exists_spells_of_tag h
    refine ⟨'/' :: body, congrArg ('/' :: ·) hcs, fun p => ?_⟩
    have hq := hbody p ((p.step '<').step '/') []
    rwa [List.append_nil] at hq
  | opening hslash =>
    obtain ⟨body, hcs, hbody⟩ := exists_spells_of_tag h
    refine ⟨body, hcs, fun p => ?_⟩
    obtain ⟨q, hq⟩ := hbody p (p.step '<') []
    rw [List.append_nil, tagScan] at hq
    refine ⟨q, ?_⟩
    rw [token_tag]
    split
    · -- The tag does not start with a slash, so what is taken out of it does not either.
      rw [List.cons_append] at hcs
      exact absurd hcs (hslash _)
    · exact hq
  | label =>
    obtain ⟨body, hcs, hbody⟩ := exists_spells_of_quotedLabel h
    refine ⟨body, hcs, fun p => ?_⟩
    have hq := hbody p (p.step '\x60') []
    rwa [List.append_nil] at hq
  | text =>
    obtain ⟨⟨text, e⟩, htext, heq⟩ := Except.bind_eq_ok.1 h
    cases heq
    obtain ⟨body, hcs, hbody⟩ := exists_spells_of_textBody htext
    refine ⟨body, hcs, fun p => ?_⟩
    obtain ⟨q, hq⟩ := hbody p (p.step '"') []
    rw [List.append_nil] at hq
    exact ⟨q, Except.bind_eq_ok.2 ⟨_, hq, rfl⟩⟩
  | negative hdigit =>
    obtain ⟨body, hcs, hhead, hbody⟩ := exists_integer_alone h
    refine ⟨body, hcs, fun p => ?_⟩
    obtain ⟨q, hq⟩ := hbody p
    have htoken : token p '-' body = integer p '-' body := if_pos (hhead hdigit)
    exact ⟨q, htoken.trans hq⟩
  | digit hc =>
    obtain ⟨body, hcs, -, hbody⟩ := exists_integer_alone h
    refine ⟨body, hcs, fun p => ?_⟩
    obtain ⟨q, hq⟩ := hbody p
    exact ⟨q, (token_digit hc p body).trans hq⟩
  | marked hmarked =>
    obtain ⟨body, hcs, htake, hbody⟩ := exists_name_alone (Except.ok.inj h)
    have hmarked : StartsMarked c body := by
      rw [htake]
      exact startsMarked_takeWhile hmarked
    refine ⟨body, hcs, fun p => ?_⟩
    obtain ⟨q, hq⟩ := hbody p
    exact ⟨q, (token_marked hmarked p).trans (congrArg Except.ok hq)⟩
  | word hword =>
    obtain ⟨body, hcs, -, hbody⟩ := exists_name_alone (Except.ok.inj h)
    refine ⟨body, hcs, fun p => ?_⟩
    obtain ⟨q, hq⟩ := hbody p
    exact ⟨q, (token_word hword p body).trans (congrArg Except.ok hq)⟩
  | unexpected => cases h

end Scan

end RewriteSemantics
