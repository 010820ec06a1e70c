/-
# Shown terms are read back

A term that is shown in the language of definitions, and not in that of messages only, is read back
from its text as itself. The text is scanned and derived from its end to its beginning: what stands
behind a part has tokens already when its own are put in front of them, and it does not go on with
the last token of the part.
-/
import RewriteSemantics.Proofs.Term.Completeness
import RewriteSemantics.Proofs.Token.Spelling
import RewriteSemantics.Term.Printer

namespace RewriteSemantics

open Grammar
open Scan (Follows IsIdentifier Lexes)

/-! ## Printable terms -/

/-- A label that is read as itself: a plain one that is a name and no literal, or one that fits
between backquotes. -/
inductive Label.Printable : String → Prop where
  | plain {label : String} (hplain : Label.isPlain label = true) (hident : IsIdentifier label)
      (hliteral : label ∉ literalNames) : Printable label
  | quoted {label : String} (hplain : Label.isPlain label = false) (hne : label ≠ "")
      (hquote : '\x60' ∉ label.toList) : Printable label

namespace Term

/-- A term whose text says all that there is to know of it. -/
inductive Printable : Term → Prop where
  | var {name : String} (hident : IsIdentifier name) (hname : Parse.isVariableName name = true) :
      Printable (.ofName name)
  | int {value : Int} (hmin : -9223372036854775808 ≤ value) (hmax : value < 9223372036854775808) :
      Printable (.int value)
  | bool (value : Bool) : Printable (.bool value)
  | text {value : String} (hquote : '"' ∉ value.toList) (hslash : '\\' ∉ value.toList) :
      Printable (.token value .string)
  | app {label : String} {args : List Term} (hlabel : Label.Printable label)
      (hargs : ∀ t ∈ args, Printable t) : Printable (.app label args)
  | rewrite {lhs rhs : Term} (hlhs : Printable lhs) (hrhs : Printable rhs) :
      Printable (.rewrite lhs rhs)
  | seq {items : List Term} (hlength : items.length ≠ 1)
      (hflat : ∀ t ∈ items, ∀ inner, t ≠ .seq inner) (hitems : ∀ t ∈ items, Printable t) :
      Printable (.seq items)
  | bag {items : List Term} (hlength : 2 ≤ items.length) (hcells : ∀ t ∈ items, t.isCell = true)
      (hitems : ∀ t ∈ items, Printable t) : Printable (.bag items)
  | cell {name : String} {leftOpen rightOpen : Bool} {body : Term} (hne : name ≠ "")
      (hname : ∀ c ∈ name.toList, Text.isNameChar c = true) (hbody : Printable body)
      (hempty : body ≠ .bag []) : Printable (.cell ⟨name, ∅, leftOpen, rightOpen⟩ body)

/-! ## Texts -/

theorem shown_ofName (name : String) : (ofName name).shown = name :=
  rfl

theorem shown_int (value : Int) : (int value).shown = toString value :=
  rfl

theorem shown_bool (value : Bool) : (bool value).shown = toString value :=
  rfl

theorem shown_text (value : String) : (token value .string).shown = "\"" ++ value ++ "\"" :=
  rfl

theorem shown_app (label : String) {args : List Term} (hne : args ≠ []) :
    (app label args).shown = Label.shown label ++ "(" ++ ", ".intercalate (shownAll args) ++ ")" :=
  if_neg (mt List.isEmpty_iff.1 hne)

theorem shown_rewrite (lhs rhs : Term) :
    (rewrite lhs rhs).shown = "(" ++ lhs.shown ++ " => " ++ rhs.shown ++ ")" :=
  rfl

theorem shown_seq {items : List Term} (hne : items ≠ []) :
    (seq items).shown = " ~> ".intercalate (shownAll items) :=
  if_neg (mt List.isEmpty_iff.1 hne)

theorem shown_bag {items : List Term} (hne : items ≠ []) :
    (bag items).shown = " ".intercalate (shownAll items) :=
  if_neg (mt List.isEmpty_iff.1 hne)

theorem shown_cell (tag : CellTag) (body : Term) :
    (cell tag body).shown = tag.opening ++ body.shown ++ tag.closing :=
  rfl

theorem shownAll_cons (t : Term) (ts : List Term) : shownAll (t :: ts) = t.shown :: shownAll ts :=
  rfl

end Term

/-! ## Written parts -/

/-- A text writes a value as the phrases of some kind do, if nothing stands behind it that its last
token goes on with. -/
def Writes {α : Type} (phrase : List TokenKind → α → List TokenKind → Prop) (text : String)
    (a : α) : Prop :=
  ∀ (cs : List Char) (rest : List TokenKind), Follows cs → Lexes cs rest →
    rest.head? ≠ some (.punctuation .leftParen) →
    ∃ ks, Lexes (text.toList ++ cs) ks ∧ phrase ks a rest

theorem Writes.mono {α β : Type} {phrase : List TokenKind → α → List TokenKind → Prop}
    {phrase' : List TokenKind → β → List TokenKind → Prop} {text : String} {a : α} {b : β}
    (h : Writes phrase text a) (himp : ∀ {ks rest}, phrase ks a rest → phrase' ks b rest) :
    Writes phrase' text b := by
  intro cs rest hcs hrest hhead
  obtain ⟨ks, hks, hphrase⟩ := h cs rest hcs hrest hhead
  exact ⟨ks, hks, himp hphrase⟩

/-- A single term that does not start with a parenthesis. -/
def IsUngrouped (ks : List TokenKind) (t : Term) (rest : List TokenKind) : Prop :=
  IsSingle ks t rest ∧ ks.head? ≠ some (.punctuation .leftParen)

/-- What a printable term is written as. A sequence is no row, and only cells stand in rows. -/
structure IsWritten (t : Term) : Prop where
  sequence : Writes IsSequence t.shown t
  row : (∀ items, t ≠ .seq items) → Writes IsRow t.shown t
  ungrouped : t.isCell = true → Writes IsUngrouped t.shown t

theorem IsWritten.of_single {t : Term} (h : Writes IsSingle t.shown t)
    (hcell : t.isCell = true → Writes IsUngrouped t.shown t) : IsWritten t where
  sequence := h.mono fun h => .one (.one (.single h))
  row _ := h.mono fun h => .one (.single h)
  ungrouped := hcell

theorem writes_var {name : String} (hident : IsIdentifier name)
    (hname : Parse.isVariableName name = true) :
    Writes IsSingle (Term.ofName name).shown (.ofName name) := by
  intro cs rest hcs hrest hhead
  rw [Term.shown_ofName]
  exact ⟨_, hrest.identifier hident hcs, .named hname hhead⟩

theorem writes_int {value : Int} (hmin : -9223372036854775808 ≤ value)
    (hmax : value < 9223372036854775808) : Writes IsSingle (Term.int value).shown (.int value) := by
  intro cs rest hcs hrest _
  rw [Term.shown_int]
  exact ⟨_, hrest.int hcs hmin hmax, .int value rest⟩

theorem isIdentifier_literal {name : String} (h : name ∈ literalNames) : IsIdentifier name := by
  simp only [literalNames, List.mem_cons, List.not_mem_nil, or_false] at h
  rcases h with rfl | rfl | rfl <;>
    exact Scan.isIdentifier_of_token rfl ⟨rfl, by decide⟩ fun _ => ⟨_, rfl⟩

theorem writes_bool (value : Bool) : Writes IsSingle (Term.bool value).shown (.bool value) := by
  intro cs rest hcs hrest _
  rw [Term.shown_bool]
  cases value with
  | true => exact ⟨_, hrest.identifier (isIdentifier_literal (by decide)) hcs, .true rest⟩
  | false => exact ⟨_, hrest.identifier (isIdentifier_literal (by decide)) hcs, .false rest⟩

theorem writes_text {value : String} (hquote : '"' ∉ value.toList) (hslash : '\\' ∉ value.toList) :
    Writes IsSingle (Term.token value .string).shown (.token value .string) := by
  intro cs rest hcs hrest _
  have hshown : (Term.token value .string).shown.toList ++ cs =
      '"' :: (value.toList ++ '"' :: cs) := by
    rw [Term.shown_text]
    simp [String.toList_append]
  rw [hshown]
  refine ⟨_, hrest.text hquote hslash, ?_⟩
  rw [String.ofList_toList]
  exact .text value rest

/-! ## Labels and arguments -/

theorem isVariableStart_of_isLower {c : Char} (hc : c.isLower = true) :
    (Text.isUppercase c || c == '_' || c == '!' || c == '?' || c == '$') = false := by
  have hall : ∀ n < 123, 97 ≤ n → (Text.isUppercase (Char.ofNat n) || Char.ofNat n == '_' ||
      Char.ofNat n == '!' || Char.ofNat n == '?' || Char.ofNat n == '$') = false := by
    decide
  have hbounds : (decide (c.val ≥ 97) && decide (c.val ≤ 122)) = true := hc
  rw [Bool.and_eq_true, decide_eq_true_iff, decide_eq_true_iff] at hbounds
  have hlo : 97 ≤ c.toNat := hbounds.1
  have hhi : c.toNat ≤ 122 := hbounds.2
  rw [← Char.ofNat_toNat c]
  exact hall _ (Nat.lt_succ_of_le hhi) hlo

/-- Plain labels do not start like variables. -/
theorem isVariableName_of_isPlain {label : String} (h : Label.isPlain label = true) :
    Parse.isVariableName label = false := by
  rw [Label.isPlain] at h
  rw [Parse.isVariableName]
  cases hlist : label.toList with
  | nil => rfl
  | cons c cs =>
    rw [hlist] at h
    have hstart := (Bool.and_eq_true_iff.1 h).1
    rw [Label.isPlainStart, Bool.or_eq_true, Bool.or_eq_true, beq_iff_eq, beq_iff_eq] at hstart
    rcases hstart with (hlower | rfl) | rfl
    · exact isVariableStart_of_isLower hlower
    · rfl
    · rfl

/-- A printable label is read as a label. -/
theorem Label.Printable.exists_isLabel {label : String} (h : Label.Printable label) :
    ∃ k, IsLabel k label ∧ (∀ name, k = .ident name → Parse.isVariableName name = false) ∧
      ∀ cs rest, Follows cs → Lexes cs rest →
        Lexes ((Label.shown label).toList ++ cs) (k :: rest) := by
  cases h with
  | plain hplain hident hliteral =>
    refine ⟨.ident label, .name hliteral, ?_, fun cs rest hcs hrest => ?_⟩
    · rintro _ ⟨⟩
      exact isVariableName_of_isPlain hplain
    · rw [Label.shown, if_pos hplain]
      exact hrest.identifier hident hcs
  | quoted hplain hne hquote =>
    refine ⟨.quoted label, .quoted label, nofun, fun cs rest hcs hrest => ?_⟩
    have hshown : (Label.shown label).toList ++ cs =
        '\x60' :: (label.toList ++ '\x60' :: cs) := by
      rw [Label.shown, if_neg (Bool.eq_false_iff.1 hplain)]
      simp [String.toList_append]
    rw [hshown]
    have hlexes := hrest.quoted (mt String.toList_eq_nil_iff.1 hne) hquote
    rwa [String.ofList_toList] at hlexes

/-- Texts that write items write all of them with a separator in between. -/
theorem writes_intercalate {phrase : List TokenKind → Term → List TokenKind → Prop}
    {phrases : List TokenKind → List Term → List TokenKind → Prop} {separator : String}
    {chars : List Char} (hchars : separator.toList = chars) (between : List TokenKind)
    (hlast : ∀ {ks t rest}, phrase ks t rest → phrases ks [t] rest)
    (hcons : ∀ {ks mid t items rest}, phrase ks t (between ++ mid) → phrases mid items rest →
      phrases ks (t :: items) rest)
    (hlexes : ∀ {cs ks}, Lexes cs ks → Lexes (chars ++ cs) (between ++ ks))
    (hfollows : ∀ cs, Follows (chars ++ cs))
    (hnext : ∀ {ks items rest}, phrases ks items rest →
      (between ++ ks).head? ≠ some (.punctuation .leftParen))
    {items : List Term} (hne : items ≠ []) (hitems : ∀ t ∈ items, Writes phrase t.shown t) :
    Writes phrases (separator.intercalate (Term.shownAll items)) items := by
  intro cs rest hcs hrest hhead
  induction items with
  | nil => exact absurd rfl hne
  | cons t items ih =>
    obtain ⟨ht, hitems⟩ := List.forall_mem_cons.1 hitems
    cases items with
    | nil =>
      obtain ⟨ks, hks, hphrase⟩ := ht cs rest hcs hrest hhead
      refine ⟨ks, ?_, hlast hphrase⟩
      rwa [Term.shownAll_cons, Term.shownAll, String.intercalate_singleton]
    | cons u items =>
      obtain ⟨mid, hmid, hphrases⟩ := ih nofun hitems
      obtain ⟨ks, hks, hphrase⟩ := ht _ _ (hfollows _) (hlexes hmid) (hnext hphrases)
      refine ⟨ks, ?_, hcons hphrase hphrases⟩
      rwa [Term.shownAll_cons, Term.shownAll_cons, String.intercalate_cons_cons,
        String.toList_append, String.toList_append, List.append_assoc, List.append_assoc, hchars,
        ← Term.shownAll_cons]

theorem writes_arguments {args : List Term} (hne : args ≠ []) (hargs : ∀ t ∈ args, IsWritten t) :
    Writes AreArguments (", ".intercalate (Term.shownAll args)) args := by
  have hchars : ", ".toList = [',', ' '] := String.toList_ofList
  exact writes_intercalate hchars [.punctuation .comma] .last .cons
    (fun h => h.blank.mark ⟨rfl, by decide⟩ rfl) (fun _ => rfl) (fun _ => nofun) hne
    fun t ht => Writes.mono (hargs t ht).sequence .plain

theorem writes_app {label : String} {args : List Term} (hlabel : Label.Printable label)
    (hargs : ∀ t ∈ args, IsWritten t) :
    Writes IsSingle (Term.app label args).shown (.app label args) := by
  intro cs rest hcs hrest hhead
  obtain ⟨k, hk, hname, hshown⟩ := hlabel.exists_isLabel
  by_cases hne : args = []
  · rw [hne]
    exact ⟨_, hshown cs rest hcs hrest, .constant hk hname hhead⟩
  · obtain ⟨ks, hks, harguments⟩ := writes_arguments hne hargs (')' :: cs)
      (.punctuation .rightParen :: rest) rfl (hrest.mark ⟨rfl, by decide⟩ rfl) nofun
    refine ⟨k :: .punctuation .leftParen :: ks, ?_, .application hk harguments⟩
    have hlexes := hshown ('(' :: _) _ rfl (hks.mark ⟨rfl, by decide⟩ rfl)
    rw [Term.shown_app label hne]
    simpa [String.toList_append] using hlexes

/-! ## Rewrites, sequences and bags -/

theorem writes_rewrite {lhs rhs : Term} (hlhs : IsWritten lhs) (hrhs : IsWritten rhs) :
    Writes IsSingle (Term.rewrite lhs rhs).shown (.rewrite lhs rhs) := by
  intro cs rest _ hrest _
  obtain ⟨behind, hbehind, hr⟩ := hrhs.sequence (')' :: cs) _ rfl (hrest.mark ⟨rfl, by decide⟩ rfl)
    nofun
  obtain ⟨ks, hks, hl⟩ := hlhs.sequence (' ' :: '=' :: '>' :: ' ' :: _) _ rfl
    hbehind.blank.arrow.blank nofun
  refine ⟨.punctuation .leftParen :: ks, ?_, .group (.rewrite hl hr)⟩
  have hlexes : Lexes ('(' :: _) (.punctuation .leftParen :: ks) := hks.mark ⟨rfl, by decide⟩ rfl
  rw [Term.shown_rewrite]
  simpa [String.toList_append] using hlexes

theorem flatMap_sequenceItems {items : List Term} (hflat : ∀ t ∈ items, ∀ inner, t ≠ .seq inner) :
    items.flatMap Term.sequenceItems = items := by
  induction items with
  | nil => rfl
  | cons t items ih =>
    obtain ⟨ht, hitems⟩ := List.forall_mem_cons.1 hflat
    have hsingle : t.sequenceItems = [t] := by
      cases t with
      | seq inner => exact absurd rfl (ht inner)
      | _ => rfl
    rw [List.flatMap_cons, hsingle, ih hitems]
    rfl

theorem sequence_eq_seq {items : List Term} (hlength : items.length ≠ 1)
    (hflat : ∀ t ∈ items, ∀ inner, t ≠ .seq inner) : Term.sequence items = .seq items := by
  rw [Term.sequence, flatMap_sequenceItems hflat]
  split
  · exact absurd rfl hlength
  · rfl

theorem isWritten_seq {items : List Term} (hlength : items.length ≠ 1)
    (hflat : ∀ t ∈ items, ∀ inner, t ≠ .seq inner) (hitems : ∀ t ∈ items, IsWritten t) :
    IsWritten (.seq items) := by
  refine ⟨?_, fun h => absurd rfl (h items), nofun⟩
  intro cs rest hcs hrest hhead
  by_cases hne : items = []
  · rw [hne]
    exact ⟨_, hrest.identifier (isIdentifier_literal (by decide)) hcs,
      .one (.one (.single (.nothing rest)))⟩
  · have hchars : " ~> ".toList = [' ', '~', '>', ' '] := String.toList_ofList
    have hsteps : Writes IsSteps (" ~> ".intercalate (Term.shownAll items)) items :=
      writes_intercalate hchars [.punctuation .followedBy] .last .cons
        (fun h => h.blank.followedBy.blank) (fun _ => rfl) (fun _ => nofun) hne
        fun t ht => (hitems t ht).row (hflat t ht)
    obtain ⟨ks, hks, hphrases⟩ := hsteps cs rest hcs hrest hhead
    rw [Term.shown_seq hne]
    refine ⟨ks, hks, ?_⟩
    rw [← sequence_eq_seq hlength hflat]
    have := List.length_pos_iff.2 hne
    exact .several hphrases (by omega)

theorem isWritten_bag {items : List Term} (hlength : 2 ≤ items.length)
    (hcells : ∀ t ∈ items, t.isCell = true) (hitems : ∀ t ∈ items, IsWritten t) :
    IsWritten (.bag items) := by
  have hne : items ≠ [] := List.length_pos_iff.1 (Nat.lt_of_lt_of_le (by decide) hlength)
  have hchars : " ".toList = [' '] := String.toList_ofList
  have hrow : Writes IsRow (Term.bag items).shown (.bag items) := by
    rw [Term.shown_bag hne]
    have hcasts : Writes (fun ks items rest => AreCasts ks items rest ∧
        ks.head? ≠ some (.punctuation .leftParen)) (" ".intercalate (Term.shownAll items)) items :=
      writes_intercalate hchars [] (fun h => ⟨.last (.single h.1), h.2⟩)
        (fun h h' => ⟨.cons (.single h.1) h'.1, h.2⟩) Lexes.blank (fun _ => rfl) (·.2) hne
        fun t ht => (hitems t ht).ungrouped (hcells t ht)
    exact hcasts.mono fun h => .several h.1 hlength
  exact ⟨hrow.mono .one, fun _ => hrow, nofun⟩

/-! ## Cells -/

theorem lexes_left {cs : List Char} {ks : List TokenKind} (leftOpen : Bool) (h : Lexes cs ks) :
    Lexes ((if leftOpen then "... " else " ").toList ++ cs) (ellipsis leftOpen ++ ks) := by
  cases leftOpen with
  | true => exact h.blank.ellipsis
  | false => exact h.blank

theorem lexes_right {cs : List Char} {ks : List TokenKind} (rightOpen : Bool) (h : Lexes cs ks) :
    Lexes ((if rightOpen then " ..." else " ").toList ++ cs) (ellipsis rightOpen ++ ks) := by
  cases rightOpen with
  | true => exact h.ellipsis.blank
  | false => exact h.blank

theorem follows_right (rightOpen : Bool) (cs : List Char) :
    Follows ((if rightOpen then " ..." else " ").toList ++ cs) := by
  cases rightOpen with
  | true => rfl
  | false => rfl

theorem writes_cell (leftOpen rightOpen : Bool) {name : String} {body : Term} (hne : name ≠ "")
    (hname : ∀ c ∈ name.toList, Text.isNameChar c = true) (hbody : IsWritten body) :
    Writes IsUngrouped (Term.cell ⟨name, ∅, leftOpen, rightOpen⟩ body).shown
      (.cell ⟨name, ∅, leftOpen, rightOpen⟩ body) := by
  intro cs rest _ hrest _
  have hne := mt String.toList_eq_nil_iff.1 hne
  have hclose := lexes_right rightOpen (hrest.cellClose hne hname)
  rw [String.ofList_toList] at hclose
  have hhead : (ellipsis rightOpen ++ .cellClose name :: rest).head? ≠
      some (.punctuation .leftParen) := by
    cases rightOpen with
    | true => nofun
    | false => nofun
  obtain ⟨ks, hks, hsequence⟩ := hbody.sequence _ _ (follows_right rightOpen _) hclose hhead
  have hopen := (lexes_left leftOpen hks).cellOpen hne hname
  rw [String.ofList_toList] at hopen
  have hmembers : AreMembers [] ∅ := fun _ => rfl
  refine ⟨_, ?_, .cell hmembers (.plain hsequence) rfl, nofun⟩
  rw [Term.shown_cell, CellTag.opening, CellTag.closing, cellLabel]
  simpa [String.toList_append] using hopen

/-! ## Terms -/

/-- Every printable term is written by its text. -/
theorem Term.Printable.isWritten {t : Term} (h : t.Printable) : IsWritten t := by
  induction h with
  | var hident hname => exact .of_single (writes_var hident hname) nofun
  | int hmin hmax => exact .of_single (writes_int hmin hmax) nofun
  | bool value => exact .of_single (writes_bool value) nofun
  | text hquote hslash => exact .of_single (writes_text hquote hslash) nofun
  | app hlabel _ ih => exact .of_single (writes_app hlabel ih) nofun
  | rewrite _ _ ihlhs ihrhs => exact .of_single (writes_rewrite ihlhs ihrhs) nofun
  | seq hlength hflat _ ih => exact isWritten_seq hlength hflat ih
  | bag hlength hcells _ ih => exact isWritten_bag hlength hcells ih
  | @cell name leftOpen rightOpen body hne hname _ _ ih =>
    have hcell := writes_cell leftOpen rightOpen hne hname ih
    exact .of_single (hcell.mono And.left) fun _ => hcell

/-- Reading the text of a printable term gives the term. -/
theorem Term.parse_shown {t : Term} (h : t.Printable) : Term.parse t.shown = .ok t := by
  obtain ⟨ks, hlexes, hsequence⟩ := h.isWritten.sequence [] _ rfl Scan.lexes_nil nofun
  obtain ⟨ts, hts, rfl⟩ := hlexes .start
  rw [List.append_nil] at hts
  exact (Term.parse_eq_ok_iff hts t).2 (.plain hsequence)

theorem Term.parse_shown_open_cell :
    Term.Printable (.cell ⟨"k", ∅, false, true⟩
        (.seq [.rewrite (.app "f" [.int (-5)]) (.ofName "X"), .app "_+_" []])) ∧
      Term.parse "<k> (f(-5) => X) ~> \x60_+_\x60 ...</k>" = .ok (.cell ⟨"k", ∅, false, true⟩
        (.seq [.rewrite (.app "f" [.int (-5)]) (.ofName "X"), .app "_+_" []])) := by
  have hname {name : String} (h : (Scan.tokens (.start name.toList)).toOption.map Token.kinds =
      some [.ident name, .finish]) : IsIdentifier name := Scan.exists_tokenize h
  have hprintable : Term.Printable (.cell ⟨"k", ∅, false, true⟩
      (.seq [.rewrite (.app "f" [.int (-5)]) (.ofName "X"), .app "_+_" []])) := by
    refine .cell (by decide) (List.all_iff_forall_prop.1 (by decide)) (.seq (by decide) ?_ ?_)
      (by simp)
    · rintro t ht inner rfl
      simp [Term.ofName] at ht
    · refine List.forall_mem_cons.2 ⟨.rewrite (.app ?_ ?_) ?_, List.forall_mem_singleton.2 ?_⟩
      · exact .plain (by decide) (hname (by cbv)) (by decide)
      · exact List.forall_mem_singleton.2 (.int (by decide) (by decide))
      · exact .var (hname (by cbv)) (by decide)
      · exact .app (.quoted (by decide) (by decide) (by decide)) (List.forall_mem_nil _)
  exact ⟨hprintable, Term.parse_shown hprintable⟩

end RewriteSemantics
