/-
# Legible terms

The text of a rule is the text of its body, with the text of each condition behind a keyword. Where
the conditions start is seen in the text, as long as no keyword stands by itself in the text of a
term, outside of literal texts and quoted labels. A reader that goes through the text and stops
behind such a keyword stops at the conditions only.
-/
import RewriteSemantics.Proofs.Rule.GeneratedNames
import RewriteSemantics.Proofs.Term.Printer

namespace RewriteSemantics

namespace RuleText

/-- Where the reader of a text is: in plain text, of which it keeps what stands behind the last
blank, or between two quotes. -/
inductive Place where
  | plain (chunk : List Char)
  | quoted (mark : Char)
  deriving DecidableEq

namespace Place

variable {p q r : Place} {c d mark : Char} {chunk keyword : List Char} {cs ds xs ys : List Char}

/-- The keywords that conditions stand behind. -/
def keywords : List (List Char) :=
  ["requires".toList, "ensures".toList]

/-- The marks around literal texts, and around labels that are not plain. -/
def quotes : List Char :=
  ['"', '\x60']

/-- The place behind a character. There is none behind a keyword that stands by itself. -/
def step : Place → Char → Option Place
  | plain chunk, c =>
    if c = ' ' then if chunk ∈ keywords then none else some (plain [])
    else if c ∈ quotes then some (quoted c)
    else some (plain (chunk ++ [c]))
  | quoted mark, c => some (if c = mark then plain [mark] else quoted mark)

/-- The place behind some characters. -/
def walk (p : Place) (cs : List Char) : Option Place :=
  cs.foldlM step p

theorem walk_cons (p : Place) (c : Char) (cs : List Char) :
    p.walk (c :: cs) = (p.step c).bind (·.walk cs) :=
  rfl

theorem walk_append (p : Place) (cs ds : List Char) :
    p.walk (cs ++ ds) = (p.walk cs).bind (·.walk ds) :=
  List.foldlM_append

/-- Characters that are neither blank nor quotes. -/
def IsOrdinary (c : Char) : Prop :=
  c ≠ ' ' ∧ c ∉ quotes

instance : DecidablePred IsOrdinary := fun c =>
  inferInstanceAs (Decidable (c ≠ ' ' ∧ c ∉ quotes))

theorem step_ordinary (hc : IsOrdinary c) (chunk : List Char) :
    (plain chunk).step c = some (plain (chunk ++ [c])) := by
  rw [step, if_neg hc.1, if_neg hc.2]

theorem step_quote (hc : c ∈ quotes) (chunk : List Char) :
    (plain chunk).step c = some (quoted c) := by
  have hne : c ≠ ' ' := by
    rintro rfl
    exact absurd hc (by decide)
  rw [step, if_neg hne, if_pos hc]

theorem step_quoted (mark : Char) : (quoted mark).step mark = some (plain [mark]) := by
  rw [step, if_pos rfl]

theorem step_blank (h : chunk ∉ keywords) : (plain chunk).step ' ' = some (plain []) :=
  if_neg h

theorem step_blank_of_mem (h : chunk ∈ keywords) : (plain chunk).step ' ' = none :=
  if_pos h

theorem walk_plain (hcs : ∀ c ∈ cs, IsOrdinary c) (chunk : List Char) :
    (plain chunk).walk cs = some (plain (chunk ++ cs)) := by
  induction cs generalizing chunk with
  | nil =>
    rw [List.append_nil]
    rfl
  | cons c cs ih =>
    obtain ⟨hc, hcs⟩ := List.forall_mem_cons.1 hcs
    rw [walk_cons, step_ordinary hc, Option.bind_some, ih hcs, List.append_assoc,
      List.singleton_append]

theorem walk_quoted (hcs : mark ∉ cs) : (quoted mark).walk cs = some (quoted mark) := by
  induction cs with
  | nil => rfl
  | cons c cs ih =>
    rw [List.mem_cons, not_or] at hcs
    rw [walk_cons, step, if_neg (Ne.symm hcs.1), Option.bind_some, ih hcs.2]

/-! ## Where conditions start -/

/-- A text ends in plain text, and not with a keyword that stands by itself. -/
def Closes (cs : List Char) : Prop :=
  ∃ chunk, chunk ∉ keywords ∧ (plain []).walk cs = some (plain chunk)

theorem isOrdinary_of_mem_keywords (h : keyword ∈ keywords) : ∀ c ∈ keyword, IsOrdinary c := by
  have hall : keywords.all fun keyword => keyword.all fun c => decide (IsOrdinary c) := by decide
  intro c hc
  exact of_decide_eq_true (List.all_eq_true.1 (List.all_eq_true.1 hall keyword h) c hc)

/-- Behind a text that closes and a keyword, a blank is where a reader stops. -/
theorem Closes.walk_keyword (h : Closes cs) (hkeyword : keyword ∈ keywords) :
    (plain []).walk (cs ++ ' ' :: keyword) = some (plain keyword) := by
  obtain ⟨chunk, hchunk, hwalk⟩ := h
  rw [walk_append, hwalk, Option.bind_some, walk_cons, step_blank hchunk, Option.bind_some,
    walk_plain (isOrdinary_of_mem_keywords hkeyword)]
  rfl

/-- A reader stops in a text at one place only. -/
theorem append_inj_of_step (hcs : p.walk cs = some q) (hds : p.walk ds = some r)
    (hc : q.step c = none) (hd : r.step d = none) (h : cs ++ c :: xs = ds ++ d :: ys) :
    cs = ds ∧ xs = ys := by
  induction cs generalizing p ds with
  | nil =>
    cases hcs
    cases ds with
    | nil => exact ⟨rfl, (List.cons.inj h).2⟩
    | cons b ds =>
      obtain ⟨rfl, -⟩ := List.cons.inj h
      rw [walk_cons, hc] at hds
      cases hds
  | cons a cs ih =>
    cases ds with
    | nil =>
      cases hds
      obtain ⟨rfl, -⟩ := List.cons.inj h
      rw [walk_cons, hd] at hcs
      cases hcs
    | cons b ds =>
      obtain ⟨rfl, htail⟩ := List.cons.inj h
      rw [walk_cons] at hcs hds
      obtain ⟨p', hp', hcs⟩ := Option.bind_eq_some_iff.1 hcs
      rw [hp', Option.bind_some] at hds
      obtain ⟨rfl, hxs⟩ := ih hcs hds htail
      exact ⟨rfl, hxs⟩

/-- A text and what stands behind it, each text behind its keyword. -/
def assembled : List Char → List (List Char × List Char) → List Char
  | cs, [] => cs
  | cs, (keyword, ds) :: more => cs ++ ' ' :: keyword ++ ' ' :: assembled ds more

/-- The parts of an assembled text can be seen in it. -/
theorem assembled_inj {more more' : List (List Char × List Char)} (hcs : Closes cs)
    (hds : Closes ds) (hmore : ∀ p ∈ more, p.1 ∈ keywords ∧ Closes p.2)
    (hmore' : ∀ p ∈ more', p.1 ∈ keywords ∧ Closes p.2)
    (h : assembled cs more = assembled ds more') : cs = ds ∧ more = more' := by
  -- A text that closes has no place in it where a reader stops.
  have hnever {cs ds : List Char} {keyword : List Char} (hcs : Closes cs) (hds : Closes ds)
      (hkeyword : keyword ∈ keywords) (xs : List Char) :
      cs ≠ ds ++ ' ' :: keyword ++ ' ' :: xs := by
    rintro rfl
    obtain ⟨chunk, -, hwalk⟩ := hcs
    rw [walk_append, hds.walk_keyword hkeyword, Option.bind_some, walk_cons,
      step_blank_of_mem hkeyword] at hwalk
    cases hwalk
  induction more generalizing cs ds more' with
  | nil =>
    cases more' with
    | nil => exact ⟨h, rfl⟩
    | cons p' more' =>
      exact absurd h (hnever hcs hds (hmore' p' List.mem_cons_self).1 _)
  | cons p more ih =>
    obtain ⟨⟨hkeyword, hp⟩, hmore⟩ := List.forall_mem_cons.1 hmore
    cases more' with
    | nil => exact absurd h.symm (hnever hds hcs hkeyword _)
    | cons p' more' =>
      obtain ⟨⟨hkeyword', hp'⟩, hmore'⟩ := List.forall_mem_cons.1 hmore'
      have hwalk := hcs.walk_keyword hkeyword
      have hwalk' := hds.walk_keyword hkeyword'
      -- Both readers stop at the same place, and what they keep there is the keyword.
      obtain ⟨heq, h⟩ := append_inj_of_step hwalk hwalk' (step_blank_of_mem hkeyword)
        (step_blank_of_mem hkeyword') h
      rw [heq] at hwalk
      have hsame : p.1 = p'.1 := Place.plain.inj (Option.some.inj (hwalk.symm.trans hwalk'))
      rw [hsame] at heq
      obtain ⟨htext, rfl⟩ := ih hp hp' hmore hmore' h
      exact ⟨List.append_cancel_right heq, by rw [Prod.ext hsame htext]⟩

end Place

open GeneratedNames Place

/-! ## What a reader finds in the text of a term -/

/-- No stem in a text has the mark for numbers behind it, and what is compared of the text leads
from one place to another. -/
structure Reads (p : Place) (cs : List Char) (q : Place) : Prop where
  unmarked : Unmarked (words cs)
  walk : p.walk (blur cs) = some q

/-- Where a term starts, there is a blank or nothing in front of it, or a parenthesis has been
opened. -/
def IsStart (start : List Char) : Prop :=
  start = [] ∨ '(' ∈ start

/-- What is compared of a text leads from the start of a term to plain text that does not end in a
keyword. -/
def IsRead (cs : List Char) : Prop :=
  ∀ start, IsStart start → ∃ chunk, chunk ∉ keywords ∧ Reads (plain start) cs (plain chunk)

variable {p q q' r : Place} {c mark : Char} {start chunk cs ds : List Char} {text : String}

theorem isStart_nil : IsStart [] :=
  .inl rfl

theorem isStart_append (chunk : List Char) : IsStart (chunk ++ ['(']) :=
  .inr (List.mem_append_right chunk (List.mem_singleton_self '('))

theorem unmarked_append_cons (hc : isWordChar c = false) (hmark : c ≠ '#') :
    Unmarked (words (cs ++ c :: ds)) ↔ Unmarked (words cs) ∧ Unmarked (words ds) := by
  have hstem : ¬ IsNewStem (String.ofList [c]) := fun h =>
    absurd (isWordChar_of_isNewStem h c (by simp)) (Bool.eq_false_iff.1 hc)
  have hne : [c] ≠ ['#'] := fun h => hmark (List.singleton_inj.1 h)
  rw [words_append_cons hc, Unmarked, List.isChain_append, List.isChain_cons]
  constructor
  · rintro ⟨hcs, ⟨-, hds⟩, -⟩
    exact ⟨hcs, hds⟩
  · rintro ⟨hcs, hds⟩
    refine ⟨hcs, ⟨fun _ _ h => hstem h.1, hds⟩, fun _ _ w hw h => hne ?_⟩
    rw [Option.some.inj hw, h.2]

/-- The mark for numbers stands behind nothing if it stands at the start. -/
theorem unmarked_of_notMem_tail (h : '#' ∉ cs.tail) : Unmarked (words cs) := by
  have hflatten := flatten_words cs
  cases hwords : words cs with
  | nil => exact List.isChain_nil
  | cons w ws =>
    have hw : w ≠ [] := List.ne_nil_of_mem_splitBy (hwords ▸ List.mem_cons_self : w ∈ words cs)
    rw [hwords, List.flatten_cons] at hflatten
    rw [← hflatten, List.tail_append_of_ne_nil hw, List.mem_append, not_or] at h
    have hne : ∀ v ∈ ws, v ≠ ['#'] := by
      rintro _ hv rfl
      exact h.2 (List.mem_flatten_of_mem hv (List.mem_singleton_self '#'))
    refine List.Pairwise.isChain (List.pairwise_cons.2 ⟨fun v hv h => hne v hv h.2, ?_⟩)
    exact List.pairwise_of_forall_mem_list fun _ _ v hv h => hne v hv h.2

namespace Reads

theorem nil (p : Place) : Reads p [] p :=
  ⟨List.isChain_nil, rfl⟩

/-- A character that is no part of a word stands between two texts. -/
theorem sep (h : Reads p cs q) (hc : isWordChar c = false) (hmark : c ≠ '#')
    (hstep : q.step c = some q') (h' : Reads q' ds r) : Reads p (cs ++ c :: ds) r where
  unmarked := (unmarked_append_cons hc hmark).2 ⟨h.unmarked, h'.unmarked⟩
  walk := by
    rw [blur_append_cons hc, walk_append, h.walk, Option.bind_some, walk_cons, hstep,
      Option.bind_some, h'.walk]

end Reads

/-- Plain text goes on with a character that is no part of a word. -/
theorem reads_sep (hc : IsOrdinary c) (hword : isWordChar c = false) (hmark : c ≠ '#')
    (h : Reads (plain (chunk ++ [c])) ds r) : Reads (plain chunk) (c :: ds) r :=
  (Reads.nil _).sep hword hmark (step_ordinary hc chunk) h

theorem reads_blank (hchunk : chunk ∉ keywords) (h : Reads (plain []) ds r) :
    Reads (plain chunk) (' ' :: ds) r :=
  (Reads.nil _).sep rfl (by decide) (step_blank hchunk) h

/-- A text that stands for itself: there are neither blanks nor quotes in it, and no stem has the
mark for numbers behind it. -/
structure IsBare (text : String) : Prop where
  ordinary : ∀ c ∈ text.toList, IsOrdinary c
  unmarked : Unmarked (words text.toList)

/-- A text that fits between two quotes, and in which no stem has the mark for numbers behind it. -/
structure Fits (mark : Char) (text : String) : Prop where
  notMem : mark ∉ text.toList
  unmarked : Unmarked (words text.toList)

theorem IsBare.reads (h : IsBare text) (chunk : List Char) :
    Reads (plain chunk) text.toList (plain (chunk ++ blur text.toList)) :=
  ⟨h.unmarked, walk_plain (fun c hc =>
    (mem_blur hc).elim (h.ordinary c) fun hmark => hmark ▸ by decide) chunk⟩

/-- A text between quotes leads back to plain text. -/
theorem Fits.reads (h : Fits mark text) (hmark : mark ∈ quotes) (chunk : List Char)
    (hrest : Reads (plain [mark]) ds r) :
    Reads (plain chunk) (mark :: (text.toList ++ mark :: ds)) r := by
  have hfacts : isWordChar mark = false ∧ mark ≠ '#' := by
    rw [quotes, List.mem_cons, List.mem_singleton] at hmark
    rcases hmark with rfl | rfl <;> decide
  have hinside : Reads (quoted mark) text.toList (quoted mark) := by
    refine ⟨h.unmarked, walk_quoted fun hmem => (mem_blur hmem).elim h.notMem hfacts.2⟩
  exact (Reads.nil _).sep hfacts.1 hfacts.2 (step_quote hmark chunk)
    (hinside.sep hfacts.1 hfacts.2 (step_quoted mark) hrest)

/-- Only lower-case letters are in keywords. -/
theorem notMem_keywords (hc : c ∈ chunk) (hlower : c.isLower = false) : chunk ∉ keywords := by
  have hall : keywords.all fun keyword => keyword.all Char.isLower := by decide
  intro h
  exact Bool.eq_false_iff.1 hlower (List.all_eq_true.1 (List.all_eq_true.1 hall chunk h) c hc)

/-- Only a keyword is compared as a keyword. -/
theorem blur_notMem_keywords (h : cs ∉ keywords) : blur cs ∉ keywords := by
  by_cases hmark : '#' ∈ blur cs
  · exact notMem_keywords hmark rfl
  · rwa [blur_eq_self hmark]

theorem IsStart.notMem_keywords (hstart : IsStart start) (h : cs ∉ keywords) :
    start ++ blur cs ∉ keywords := by
  rcases hstart with rfl | hmem
  · exact blur_notMem_keywords h
  · exact RuleText.notMem_keywords (List.mem_append_left _ hmem) rfl

/-- Texts with a separator between them are read if each of them is. -/
theorem isRead_intercalate {separator : String} {items : List Term}
    (hseparator : ∀ {p q cs ds chunk}, Reads p cs (plain chunk) → chunk ∉ keywords →
      Reads (plain []) ds q → Reads p (cs ++ (separator.toList ++ ds)) q)
    (hne : items ≠ []) (hitems : ∀ t ∈ items, IsRead t.shown.toList) :
    IsRead (separator.intercalate (Term.shownAll items)).toList := by
  induction items with
  | nil => exact absurd rfl hne
  | cons t items ih =>
    obtain ⟨ht, hitems⟩ := List.forall_mem_cons.1 hitems
    cases items with
    | nil =>
      rw [Term.shownAll_cons, Term.shownAll, String.intercalate_singleton]
      exact ht
    | cons u items =>
      intro start hstart
      obtain ⟨chunk, hchunk, ht⟩ := ht start hstart
      obtain ⟨last, hlast, hitems⟩ := ih (List.cons_ne_nil _ _) hitems [] isStart_nil
      rw [Term.shownAll_cons, Term.shownAll_cons, String.intercalate_cons_cons,
        String.toList_append, String.toList_append, List.append_assoc, ← Term.shownAll_cons]
      exact ⟨last, hlast, hseparator ht hchunk hitems⟩

end RuleText

/-! ## Legible terms -/

open RuleText

/-- A label that is no keyword where it stands without backquotes, and that else fits between
them. -/
inductive Label.Legible : String → Prop where
  | plain {label : String} (hplain : Label.isPlain label = true)
      (hkeyword : label.toList ∉ Place.keywords) : Legible label
  | quoted {label : String} (hplain : Label.isPlain label = false) (hfits : Fits '\x60' label) :
      Legible label

/-- A term whose texts, those of its variables' names apart, leave the text of the term as it is
meant. -/
inductive Term.Legible : Term → Prop where
  | app {label : String} {args : List Term} (hlabel : Label.Legible label)
      (hargs : ∀ t ∈ args, Legible t) : Legible (.app label args)
  | var {v : Variable} (hsort : ∀ sort ∈ v.sort, IsBare sort.name) : Legible (.var v)
  | bare {text : String} {sort : SortName} (hsort : sort = .int ∨ sort = .bool)
      (htext : IsBare text) (hkeyword : text.toList ∉ Place.keywords) : Legible (.token text sort)
  | quoted {text : String} {sort : SortName} (hsort : ¬ (sort = .int ∨ sort = .bool))
      (htext : Fits '"' text) (hname : Fits '"' sort.name) : Legible (.token text sort)
  | rewrite {lhs rhs : Term} (hlhs : Legible lhs) (hrhs : Legible rhs) :
      Legible (.rewrite lhs rhs)
  | seq {items : List Term} (hitems : ∀ t ∈ items, Legible t) : Legible (.seq items)
  | bag {items : List Term} (hitems : ∀ t ∈ items, Legible t) : Legible (.bag items)
  | cell {tag : CellTag} {body : Term} (hname : IsBare tag.name) (hbody : Legible body) :
      Legible (.cell tag body)

namespace RuleText

open GeneratedNames Place

/-- A text is bare if all of its characters are in classes without characters that open or end
something, and the mark for numbers is in the class of the first one at most. -/
theorem isBare_of_cons (first other : Char → Bool) (hlist : text.toList = c :: cs)
    (hc : first c = true) (hcs : ∀ d ∈ cs, other d = true)
    (hfirst : ∀ d, ¬ IsOrdinary d → first d = false)
    (hother : ∀ d, ¬ IsOrdinary d ∨ d = '#' → other d = false) : IsBare text where
  ordinary := by
    rw [hlist]
    refine List.forall_mem_cons.2 ⟨?_, fun d hd => ?_⟩
    · exact not_not.1 fun h => Bool.eq_false_iff.1 (hfirst c h) hc
    · exact not_not.1 fun h => Bool.eq_false_iff.1 (hother d (.inl h)) (hcs d hd)
  unmarked := by
    refine unmarked_of_notMem_tail ?_
    rw [hlist]
    exact fun h => Bool.eq_false_iff.1 (hother '#' (.inr rfl)) (hcs '#' h)

theorem isBare_of_all
    (hordinary : (text.toList.all fun c => decide (IsOrdinary c)) = true)
    (hmark : '#' ∉ text.toList.tail) : IsBare text :=
  ⟨fun c hc => of_decide_eq_true (List.all_eq_true.1 hordinary c hc), unmarked_of_notMem_tail hmark⟩

theorem not_isOrdinary_cases (h : ¬ IsOrdinary c) : c = ' ' ∨ c = '"' ∨ c = '\x60' := by
  rw [IsOrdinary, quotes, List.mem_cons, List.mem_singleton] at h
  tauto

theorem isBare_of_isPlain {label : String} (h : Label.isPlain label = true) : IsBare label := by
  rw [Label.isPlain] at h
  cases hlist : label.toList with
  | nil =>
    rw [hlist] at h
    cases h
  | cons c cs =>
    rw [hlist] at h
    obtain ⟨hc, hcs⟩ := Bool.and_eq_true_iff.1 h
    refine isBare_of_cons Label.isPlainStart Label.isPlainRest hlist hc (List.all_eq_true.1 hcs)
      (fun d hd => ?_) fun d hd => ?_
    · rcases not_isOrdinary_cases hd with rfl | rfl | rfl <;> rfl
    · rcases hd.imp_left not_isOrdinary_cases with (rfl | rfl | rfl) | rfl <;> rfl

theorem isBare_of_isIdentifier {name : String} (h : Scan.IsIdentifier name) : IsBare name := by
  obtain ⟨c, cs, hlist, -, hcs, hstart⟩ := Scan.exists_start_of_isIdentifier h
  have hc : (Scan.isSigil c || Text.isAlphabetic c || c == '_') = true := by
    rcases hstart with hmarked | ⟨hword, -⟩
    · rw [(Bool.and_eq_true_iff.1 hmarked).1, Bool.true_or, Bool.true_or]
    · rw [Bool.or_assoc, show (Text.isAlphabetic c || c == '_') = true from hword, Bool.or_true]
  refine isBare_of_cons (fun c => Scan.isSigil c || Text.isAlphabetic c || c == '_')
    Text.isNameChar hlist hc hcs (fun d hd => ?_) fun d hd => ?_
  · rcases not_isOrdinary_cases hd with rfl | rfl | rfl <;> rfl
  · rcases hd.imp_left not_isOrdinary_cases with (rfl | rfl | rfl) | rfl <;> rfl

/-- The keywords of conditions are keywords of definitions, and so they are no identifiers. -/
theorem notMem_keywords_of_isIdentifier {name : String} (h : Scan.IsIdentifier name) :
    name.toList ∉ keywords := by
  obtain ⟨c, cs, hlist, -, -, hmarked | ⟨-, hname⟩⟩ := Scan.exists_start_of_isIdentifier h
  · have hlower : c.isLower = false := by
      have hsigil := (Bool.and_eq_true_iff.1 hmarked).1
      simp only [Scan.isSigil, Bool.or_eq_true, beq_iff_eq] at hsigil
      rcases hsigil with (((rfl | rfl) | rfl) | rfl) | rfl <;> rfl
    exact notMem_keywords (hlist ▸ List.mem_cons_self) hlower
  · intro hmem
    rw [keywords, List.mem_cons, List.mem_singleton, String.toList_inj, String.toList_inj] at hmem
    rcases hmem with rfl | rfl <;> cases hname

theorem isRead_bare (htext : IsBare text) (hkeyword : text.toList ∉ keywords) :
    IsRead text.toList := fun start hstart =>
  ⟨_, hstart.notMem_keywords hkeyword, htext.reads start⟩

theorem isRead_label {label : String} (h : Label.Legible label) :
    IsRead (Label.shown label).toList := by
  cases h with
  | plain hplain hkeyword =>
    rw [Label.shown, if_pos hplain]
    exact isRead_bare (isBare_of_isPlain hplain) hkeyword
  | quoted hplain hfits =>
    rw [Label.shown, if_neg (Bool.eq_false_iff.1 hplain), String.toList_append,
      String.toList_append, List.append_assoc]
    exact fun start _ => ⟨['\x60'], by decide, hfits.reads (by decide) start (.nil _)⟩

theorem isRead_var {v : Variable} (hname : Scan.IsIdentifier v.name)
    (hsort : ∀ sort ∈ v.sort, IsBare sort.name) : IsRead v.shown.toList := by
  have hbare := isBare_of_isIdentifier hname
  rw [Variable.shown]
  split
  · rename_i sort heq
    intro start _
    have hread := (hbare.reads start).sep (c := ':') rfl (by decide) rfl ((hsort sort heq).reads _)
    rw [String.toList_append, String.toList_append, List.append_assoc]
    exact ⟨_, notMem_keywords (c := ':') (by simp) rfl, hread⟩
  · exact isRead_bare hbare (notMem_keywords_of_isIdentifier hname)

theorem isRead_shownToken {sort : SortName} (htext : Fits '"' text) (hname : Fits '"' sort.name)
    (hsort : ¬ (sort = .int ∨ sort = .bool)) : IsRead (Term.shownToken text sort).toList := by
  intro start _
  rw [Term.shownToken, if_neg hsort]
  split
  · rw [String.toList_append, String.toList_append, List.append_assoc]
    exact ⟨['"'], by decide, htext.reads (by decide) start (.nil _)⟩
  · have htoken : "#token(\"".toList = "#token".toList ++ '(' :: ['"'] := by decide
    have hcomma : "\", \"".toList = '"' :: ',' :: ' ' :: ['"'] := by decide
    have hend : "\")".toList = '"' :: [')'] := by decide
    have hbare : IsBare "#token" := isBare_of_all (by decide) (by decide)
    -- What is read is put together from its end: the sort, the text, and the head in front of both.
    have hsecond := hname.reads (by decide) []
      (reads_sep (c := ')') (by decide) rfl (by decide) (.nil _))
    have hfirst := htext.reads (by decide) (start ++ blur "#token".toList ++ ['('])
      (reads_sep (c := ',') (by decide) rfl (by decide) (reads_blank (by decide) hsecond))
    simp only [String.toList_append, htoken, hcomma, hend, List.append_assoc, List.cons_append,
      List.nil_append] at hfirst ⊢
    exact ⟨['"', ')'], by decide,
      (hbare.reads start).sep rfl (by decide) rfl (by simpa using hfirst)⟩

/-! ## Terms -/

/-- A bare text between blanks does not show in front of what stands behind it. -/
theorem reads_between (text : String) (htext : IsBare text) (hkeyword : text.toList ∉ keywords)
    (h : Reads p cs (plain chunk)) (hchunk : chunk ∉ keywords) (h' : Reads (plain []) ds r) :
    Reads p (cs ++ ' ' :: (text.toList ++ ' ' :: ds)) r :=
  have hbehind : Reads (plain []) (text.toList ++ ' ' :: ds) r :=
    (htext.reads []).sep rfl (by decide) (step_blank (blur_notMem_keywords hkeyword)) h'
  h.sep rfl (by decide) (step_blank hchunk) hbehind

theorem isRead_arguments {args : List Term} (hne : args ≠ [])
    (hargs : ∀ t ∈ args, IsRead t.shown.toList) :
    IsRead (", ".intercalate (Term.shownAll args)).toList := by
  refine isRead_intercalate (fun {_ q _ ds chunk} hcs _ hds => ?_) hne hargs
  have hbehind : Reads (plain (chunk ++ [','])) (' ' :: ds) q :=
    reads_blank (notMem_keywords (c := ',') (by simp) rfl) hds
  exact hcs.sep rfl (by decide) rfl hbehind

theorem isRead_app {label : String} {args : List Term} (hlabel : Label.Legible label)
    (hargs : ∀ t ∈ args, IsRead t.shown.toList) : IsRead (Term.app label args).shown.toList := by
  by_cases hne : args = []
  · rw [hne]
    exact isRead_label hlabel
  · intro start hstart
    obtain ⟨head, -, hread⟩ := isRead_label hlabel start hstart
    obtain ⟨chunk, -, harguments⟩ := isRead_arguments hne hargs _ (isStart_append head)
    have hbehind : Reads (plain (head ++ ['(']))
        ((", ".intercalate (Term.shownAll args)).toList ++ [')']) (plain (chunk ++ [')'])) :=
      harguments.sep rfl (by decide) rfl (.nil _)
    rw [Term.shown_app label hne]
    simp only [String.toList_append, List.append_assoc]
    exact ⟨_, notMem_keywords (c := ')') (by simp) rfl, hread.sep rfl (by decide) rfl hbehind⟩

theorem isRead_rewrite {lhs rhs : Term} (hlhs : IsRead lhs.shown.toList)
    (hrhs : IsRead rhs.shown.toList) : IsRead (Term.rewrite lhs rhs).shown.toList := by
  intro start _
  obtain ⟨_, hchunk, hlhs⟩ := hlhs _ (isStart_append start)
  obtain ⟨chunk, -, hrhs⟩ := hrhs [] isStart_nil
  have hbehind := reads_between "=>" (isBare_of_all (by decide) (by decide)) (by decide)
    hlhs hchunk (hrhs.sep (c := ')') rfl (by decide) rfl (.nil _))
  have hshown : Reads (plain start) ('(' :: _) _ := (Reads.nil _).sep rfl (by decide) rfl hbehind
  rw [Term.shown_rewrite]
  simp only [String.toList_append, List.append_assoc]
  exact ⟨_, notMem_keywords (c := ')') (by simp) rfl, hshown⟩

theorem isRead_seq {items : List Term} (hitems : ∀ t ∈ items, IsRead t.shown.toList) :
    IsRead (Term.seq items).shown.toList := by
  by_cases hne : items = []
  · rw [hne]
    exact isRead_bare (isBare_of_all (by decide) (by decide)) (by decide)
  · rw [Term.shown_seq hne]
    exact isRead_intercalate (reads_between "~>" (isBare_of_all (by decide) (by decide))
      (by decide)) hne hitems

theorem isRead_bag {items : List Term} (hitems : ∀ t ∈ items, IsRead t.shown.toList) :
    IsRead (Term.bag items).shown.toList := by
  by_cases hne : items = []
  · rw [hne]
    exact isRead_bare (isBare_of_all (by decide) (by decide)) (by decide)
  · rw [Term.shown_bag hne]
    exact isRead_intercalate (fun hcs hchunk hds =>
      hcs.sep rfl (by decide) (step_blank hchunk) hds) hne hitems

theorem reads_dots (h : Reads (plain (chunk ++ ['.'] ++ ['.'] ++ ['.'])) ds r) :
    Reads (plain chunk) ('.' :: '.' :: '.' :: ds) r :=
  reads_sep (by decide) rfl (by decide) (reads_sep (by decide) rfl (by decide)
    (reads_sep (by decide) rfl (by decide) h))

theorem reads_opening {tag : CellTag} (hname : IsBare tag.name) (h : Reads (plain []) ds r)
    (start : List Char) : Reads (plain start) (tag.opening.toList ++ ds) r := by
  have hblank : ∀ chunk, '<' ∈ chunk → Reads (plain chunk) (' ' :: ds) r := fun chunk hchunk =>
    reads_blank (notMem_keywords hchunk rfl) h
  have hleft : ∀ chunk, '<' ∈ chunk →
      Reads (plain chunk) ((if tag.leftOpen then "... " else " ").toList ++ ds) r := by
    intro chunk hchunk
    cases tag.leftOpen with
    | false => exact hblank chunk hchunk
    | true => exact reads_dots (hblank _ (by simp [hchunk]))
  have hbehind := (hname.reads (start ++ ['<'])).sep (c := '>') rfl (by decide) rfl
    (hleft _ (by simp))
  rw [CellTag.opening, cellLabel]
  simp only [String.toList_append, List.append_assoc]
  exact reads_sep (by decide) rfl (by decide) hbehind

theorem exists_reads_closing {tag : CellTag} (hname : IsBare tag.name)
    (h : Reads p cs (plain chunk)) (hchunk : chunk ∉ keywords) :
    ∃ last, last ∉ keywords ∧ Reads p (cs ++ tag.closing.toList) (plain last) := by
  have htag : ∀ chunk, ∃ last, last ∉ keywords ∧
      Reads (plain chunk) ("</".toList ++ (tag.name.toList ++ ">".toList)) (plain last) := by
    intro chunk
    have hbehind := (hname.reads (chunk ++ ['<'] ++ ['/'])).sep (c := '>') rfl (by decide) rfl
      (.nil _)
    exact ⟨_, notMem_keywords (c := '>') (by simp) rfl, reads_sep (by decide) rfl (by decide)
      (reads_sep (by decide) rfl (by decide) hbehind)⟩
  rw [CellTag.closing]
  simp only [String.toList_append, List.append_assoc]
  cases tag.rightOpen with
  | false =>
    obtain ⟨last, hlast, htag⟩ := htag []
    exact ⟨last, hlast, h.sep rfl (by decide) (step_blank hchunk) htag⟩
  | true =>
    obtain ⟨last, hlast, htag⟩ := htag ['.', '.', '.']
    exact ⟨last, hlast, h.sep rfl (by decide) (step_blank hchunk) (reads_dots htag)⟩

theorem isRead_cell {tag : CellTag} {body : Term} (hname : IsBare tag.name)
    (hbody : IsRead body.shown.toList) : IsRead (Term.cell tag body).shown.toList := by
  intro start _
  obtain ⟨chunk, hchunk, hbody⟩ := hbody [] isStart_nil
  obtain ⟨last, hlast, hclosing⟩ := exists_reads_closing hname hbody hchunk
  rw [Term.shown_cell, String.toList_append, String.toList_append, List.append_assoc]
  exact ⟨last, hlast, reads_opening hname hclosing start⟩

/-- The text of a legible term is read if its variables are named by identifiers. -/
theorem isRead_shown {t : Term} (h : t.Legible)
    (hnames : ∀ x ∈ t.variableNames, Scan.IsIdentifier x) : IsRead t.shown.toList := by
  have hchildren {t : Term} (hnames : ∀ x ∈ t.variableNames, Scan.IsIdentifier x) :
      ∀ c ∈ t.children, ∀ x ∈ c.variableNames, Scan.IsIdentifier x := fun c hc x hx =>
    hnames x (Term.mem_variableNames_iff.2 (.inr ⟨c, hc, hx⟩))
  induction h with
  | app hlabel _ ih => exact isRead_app hlabel fun t ht => ih t ht (hchildren hnames t ht)
  | var hsort => exact isRead_var (hnames _ (Term.mem_variableNames_var.2 rfl)) hsort
  | bare hsort htext hkeyword =>
    rw [Term.shown, Term.shownToken, if_pos hsort]
    exact isRead_bare htext hkeyword
  | quoted hsort htext hname => exact isRead_shownToken htext hname hsort
  | rewrite _ _ ihlhs ihrhs =>
    obtain ⟨hlhs, hrhs⟩ := List.forall_mem_cons.1 (hchildren hnames)
    exact isRead_rewrite (ihlhs hlhs) (ihrhs (List.forall_mem_singleton.1 hrhs))
  | seq _ ih => exact isRead_seq fun t ht => ih t ht (hchildren hnames t ht)
  | bag _ ih => exact isRead_bag fun t ht => ih t ht (hchildren hnames t ht)
  | cell hname _ ih =>
    exact isRead_cell hname (ih (List.forall_mem_singleton.1 (hchildren hnames)))

end RuleText

end RewriteSemantics
