/-
# Shown texts are read back if they are verbatim

Terms and attributes show a text between quotation marks as it is, but what is read between
quotation marks may have escapes in it. So a shown text is read back exactly if there is neither a
quotation mark nor a backslash in it. A text that is not verbatim cannot be read back by accident:
the text behind the first quotation mark would have to be as long as what was shown, and a text that
is read with an escape is shorter. An attribute that comes later in the list cannot bind the text
either, since its tokens would ask for more characters than there are left.

Nothing is missing on the side of the reader. Every text has a literal, with a backslash in front of
each of the two characters.
-/
import RewriteSemantics.Proofs.Attribute.Parser
import RewriteSemantics.Proofs.Term.Printer
import RewriteSemantics.Proofs.Token.Size

namespace RewriteSemantics

open Grammar
open Parse (MayTake)
open Scan (AreVerbatim IsIdentifier Lexes)
open Token (kinds)

/-- All of a text is read as a list of attributes. -/
def Attributes.IsRead (text : String) (a : Attributes) : Prop :=
  ∃ ts rest, tokenize text = .ok ts ∧ MayTake (Parse.attributes ts) a rest ∧ kinds rest = [.finish]

/-- The attributes that bind one key to a text. -/
def Attributes.ofText (key value : String) : Attributes :=
  (∅ : Attributes).insert key (.text value)

namespace TextLiterals

variable {s key value : String} {ks rest : List TokenKind}

/-! ## Shown texts -/

theorem toList_shown_token (s : String) :
    (Term.token s .string).shown.toList = '"' :: (s.toList ++ ['"']) := by
  rw [Term.shown_text]
  simp [String.toList_append]

theorem toList_shown_ofText (key s : String) : (Attributes.ofText key s).shown.toList =
    '[' :: (key.toList ++ '(' :: '"' :: (s.toList ++ '"' :: ')' :: [']'])) := by
  have hshown : (Attributes.ofText key s).shown =
      "[" ++ ", ".intercalate [key ++ "(" ++ ("\"" ++ s ++ "\"") ++ ")"] ++ "]" := rfl
  rw [hshown, String.intercalate_singleton]
  simp [String.toList_append]

/-! ## Terms that start with a text -/

theorem eq_of_isSingle_text {t : Term} (h : IsSingle (.text value :: ks) t rest) :
    t = .token value .string := by
  cases h with
  | text => rfl
  | constant hlabel => cases hlabel
  | unapplied _ hlabel => cases hlabel
  | application hlabel => cases hlabel

/-- A row that starts with a text is that text, a cast, or a bag, but no sequence. -/
theorem cases_of_isRow_text {t : Term} (h : IsRow (.text value :: ks) t rest) :
    t.sequenceItems = [t] ∧ ∀ s, t = .token s .string → value = s := by
  cases h with
  | several => exact ⟨rfl, nofun⟩
  | one h =>
    cases h with
    | cast => exact ⟨rfl, nofun⟩
    | single h =>
      cases eq_of_isSingle_text h
      refine ⟨rfl, fun s heq => ?_⟩
      cases heq
      rfl

/-- A sequence that starts with a text can only be that text if it is any. The others may be empty
sequences, which leave nothing behind. -/
theorem eq_of_isSequence_text {t : Term} (h : IsSequence (.text value :: ks) t rest)
    (ht : t = .token s .string) : value = s := by
  cases h with
  | one h => exact (cases_of_isRow_text h).2 s ht
  | several h hlength =>
    cases h with
    | last h => exact absurd hlength (by simp)
    | cons hfirst hothers =>
      obtain ⟨hitems, hvalue⟩ := cases_of_isRow_text hfirst
      rw [Term.sequence, List.flatMap_cons, hitems] at ht
      split at ht
      · rename_i item heq
        exact hvalue s ((List.cons.inj heq).1.trans ht)
      · cases ht

theorem eq_of_isTerm_text (h : IsTerm (.text value :: ks) (.token s .string) rest) : value = s := by
  cases h with
  | plain h => exact eq_of_isSequence_text h rfl

/-! ## Attributes that bind a text -/

/-- An attribute that binds a text asks for the characters of the text, its key and its
parentheses. -/
theorem length_of_isAttribute (h : IsAttribute ks (key, .text s) rest) :
    s.toList.length + 2 + size rest ≤ size ks := by
  cases h with
  | valued _ h =>
    cases h with
    | text =>
      simp only [size_cons, TokenKind.size]
      omega
    | name =>
      simp only [size_cons, TokenKind.size]
      omega

theorem length_of_mem {bindings : List (String × AttributeValue)}
    (h : AreSeparated IsAttribute ks bindings rest) (hmem : (key, .text s) ∈ bindings) :
    s.toList.length + 2 + size rest ≤ size ks := by
  induction h with
  | last h =>
    cases List.mem_singleton.1 hmem
    exact length_of_isAttribute h
  | cons hfirst hothers ih =>
    have hrest := (hothers.spends IsAttribute.spends).size_le
    rcases List.mem_cons.1 hmem with rfl | hmem
    · have := length_of_isAttribute hfirst
      rw [size_cons] at this
      omega
    · have hsize := (hfirst.spends.tail (by simp)).size_le
      have := ih hmem
      omega

/-- An attribute of a key and a text in parentheses that a mark follows binds the key to the
text. -/
theorem eq_of_isAttribute_text {binding : String × AttributeValue} {mark : Punctuation}
    (h : IsAttribute (.ident key :: .punctuation .leftParen :: .text value :: ks) binding
      (.punctuation mark :: rest)) (hmark : mark ≠ .leftParen) :
    binding = (key, .text value) ∧ ks = .punctuation .rightParen :: .punctuation mark :: rest := by
  cases h with
  | bare => exact absurd rfl hmark
  | valued _ h =>
    cases h with
    | text => exact ⟨rfl, rfl⟩
    | positions h =>
      obtain ⟨-, _, _, hposition⟩ := h.exists_first
      cases hposition
    | relation h =>
      obtain ⟨-, _, _, hpair⟩ := h.exists_first
      cases hpair

/-- If the first attribute of a list binds a key to a text and the list binds the key to a text,
then they are the same text, unless the list has another attribute for it. -/
theorem eq_or_length_le {a : Attributes}
    (h : AreAttributes (.punctuation .leftBracket :: .ident key :: .punctuation .leftParen ::
      .text value :: ks) a [.finish]) (ha : a.get? key = some (.text s)) :
    value = s ∧ 2 ≤ size ks ∨ s.toList.length + 3 ≤ size ks := by
  cases h with
  | list h hbinds =>
    have hlookup := (hbinds key).symm.trans ha
    cases h with
    | last hfirst =>
      obtain ⟨rfl, rfl⟩ := eq_of_isAttribute_text hfirst nofun
      rw [List.reverse_singleton, OrderedMap.lookup_cons_eq_ite, if_pos rfl] at hlookup
      cases hlookup
      exact .inl ⟨rfl, Nat.le_refl _⟩
    | cons hfirst hothers =>
      obtain ⟨rfl, rfl⟩ := eq_of_isAttribute_text hfirst nofun
      simp only [size_cons, TokenKind.size]
      rw [List.reverse_cons, List.lookup_append] at hlookup
      rcases Option.or_eq_some_iff.1 hlookup with hlater | ⟨-, hlookup⟩
      · have hmem := List.mem_reverse.1 (OrderedMap.mem_of_lookup_eq_some hlater)
        have hlength := length_of_mem hothers hmem
        rw [size_cons] at hlength
        exact .inr (by simp only [TokenKind.size] at hlength; omega)
      · rw [OrderedMap.lookup_cons_eq_ite, if_pos rfl] at hlookup
        cases hlookup
        exact .inl ⟨rfl, by omega⟩

/-! ## Reading back -/

/-- Behind the bracket, the key and the parenthesis, the tokens of shown attributes are those of a
text. -/
theorem exists_tokens_of_shown (hkey : IsIdentifier key) {ts : List Token}
    (hts : tokenize (Attributes.ofText key s).shown = .ok ts) :
    ∃ value others, kinds ts = .punctuation .leftBracket :: .ident key :: .punctuation .leftParen ::
        .text value :: others ∧ value.toList.length + size others < s.toList.length + 3 ∧
      (s.toList.length + 3 ≤ value.toList.length + size others + 1 → AreVerbatim value.toList) := by
  rw [tokenize, toList_shown_ofText] at hts
  obtain ⟨_, _, hts, hbracket⟩ :=
    Scan.exists_tokens_behind ⟨rfl, by decide⟩ (fun p => ⟨_, rfl⟩) hts
  have hfollows : Scan.Follows ('(' :: '"' :: (s.toList ++ '"' :: ')' :: [']'])) := rfl
  obtain ⟨c, cs, hlist, hstart, hname⟩ := Scan.exists_token_of_isIdentifier hkey hfollows
  rw [hlist] at hts
  obtain ⟨_, _, hts, hident⟩ := Scan.exists_tokens_behind hstart hname hts
  obtain ⟨_, _, hts, hparen⟩ :=
    Scan.exists_tokens_behind ⟨rfl, by decide⟩ (fun p => ⟨_, rfl⟩) hts
  obtain ⟨value, others, htext, hlt, hverbatim⟩ := Scan.exists_text_of_tokens hts
  simp only [List.length_append, List.length_cons, List.length_nil] at hlt hverbatim
  refine ⟨value, others, ?_, hlt, hverbatim⟩
  rw [hbracket, hident, hparen, htext]

theorem parse_shown_token_iff (s : String) :
    Term.parse (Term.token s .string).shown = .ok (.token s .string) ↔ AreVerbatim s.toList := by
  constructor
  · intro h
    obtain ⟨ts, rest, hts, -, -⟩ := Term.parse_eq_ok_iff_takes.1 h
    have hterm := (Term.parse_eq_ok_iff hts _).1 h
    rw [tokenize, toList_shown_token] at hts
    obtain ⟨value, others, hkinds, -, hverbatim⟩ := Scan.exists_text_of_tokens hts
    rw [hkinds] at hterm
    cases eq_of_isTerm_text hterm
    exact hverbatim (by simp)
  · rintro ⟨hquote, hslash⟩
    exact Term.parse_shown (.text hquote hslash)

theorem isRead_iff {text : String} {ts : List Token} (h : tokenize text = .ok ts) (a : Attributes) :
    a.IsRead text ↔ AreAttributes (kinds ts) a [.finish] := by
  constructor
  · rintro ⟨ts', rest, hts, hread, hfinish⟩
    cases h.symm.trans hts
    exact hfinish ▸ Parse.reads_attributes.sound hread
  · intro ha
    obtain ⟨rest, hread, hfinish⟩ := Parse.reads_attributes.complete ha (stops_cons.2 rfl) rfl
    exact ⟨ts, rest, h, hread, hfinish⟩

theorem binds_ofText (key s : String) : Binds (Attributes.ofText key s) [(key, .text s)] :=
  binds_ofList [(key, .text s)]

theorem lexes_close :
    Lexes [')', ']'] [.punctuation .rightParen, .punctuation .rightBracket, .finish] :=
  (Scan.lexes_nil.mark ⟨rfl, by decide⟩ rfl).mark ⟨rfl, by decide⟩ rfl

/-- Between the marks of an attribute list, a literal is read as the value of its key. -/
theorem isRead_of_lexes (hkey : IsIdentifier key) {literal : List Char}
    (hliteral : Lexes (literal ++ [')', ']']) [.text s, .punctuation .rightParen,
      .punctuation .rightBracket, .finish])
    {text : String} (htext : text.toList = '[' :: (key.toList ++ '(' :: (literal ++ [')', ']']))) :
    (Attributes.ofText key s).IsRead text := by
  have hvalue : Lexes ('(' :: (literal ++ [')', ']'])) _ := hliteral.mark ⟨rfl, by decide⟩ rfl
  have hlist : Lexes ('[' :: (key.toList ++ '(' :: (literal ++ [')', ']']))) _ :=
    (hvalue.identifier hkey rfl).mark ⟨rfl, by decide⟩ rfl
  obtain ⟨ts, hts, hkinds⟩ := hlist .start
  rw [← htext] at hts
  refine (isRead_iff hts _).2 ?_
  rw [hkinds]
  exact .list (.last (.valued key (.text s _))) (binds_ofText key s)

theorem isRead_shown_iff (hkey : IsIdentifier key) (s : String) :
    (Attributes.ofText key s).IsRead (Attributes.ofText key s).shown ↔ AreVerbatim s.toList := by
  constructor
  · rintro ⟨ts, rest, hts, hread⟩
    have ha := (isRead_iff hts _).1 ⟨ts, rest, hts, hread⟩
    obtain ⟨value, others, hkinds, hlt, hverbatim⟩ := exists_tokens_of_shown hkey hts
    rw [hkinds] at ha
    have hget : (Attributes.ofText key s).get? key = some (.text s) := by
      simp [Attributes.ofText]
    -- The first attribute has read the text, or a later one binds it, for which there is no room.
    rcases eq_or_length_le ha hget with ⟨rfl, hsize⟩ | hsize
    · exact hverbatim (by omega)
    · omega
  · rintro ⟨hquote, hslash⟩
    have htext := lexes_close.text hquote hslash
    rw [String.ofList_toList] at htext
    have hliteral : Lexes ('"' :: (s.toList ++ ['"']) ++ [')', ']']) [.text s,
        .punctuation .rightParen, .punctuation .rightBracket, .finish] := by
      simpa using htext
    refine isRead_of_lexes hkey hliteral ?_
    simpa using toList_shown_ofText key s

/-- The string literal of a text is read back from what is shown of it exactly if the text has
neither a quotation mark nor a backslash in it, and so are the attributes that bind a key to it. -/
theorem reads_back_iff (s : String) (hkey : IsIdentifier key) :
    (Term.parse (Term.token s .string).shown = .ok (.token s .string) ↔ AreVerbatim s.toList) ∧
      ((Attributes.ofText key s).IsRead (Attributes.ofText key s).shown ↔ AreVerbatim s.toList) :=
  ⟨parse_shown_token_iff s, isRead_shown_iff hkey s⟩

theorem isIdentifier_smtlib : IsIdentifier "smtlib" :=
  Scan.exists_tokenize (by cbv)

theorem reads_back_smtlib : IsIdentifier "smtlib" ∧ AreVerbatim "(+ #1 #2)".toList ∧
    Term.parse (Term.token "(+ #1 #2)" .string).shown = .ok (.token "(+ #1 #2)" .string) ∧
    (Attributes.ofText "smtlib" "(+ #1 #2)").IsRead "[smtlib(\"(+ #1 #2)\")]" := by
  have hverbatim : AreVerbatim "(+ #1 #2)".toList := by decide
  obtain ⟨hterm, hattributes⟩ := reads_back_iff "(+ #1 #2)" isIdentifier_smtlib
  exact ⟨isIdentifier_smtlib, hverbatim, hterm.2 hverbatim, hattributes.2 hverbatim⟩

/-- A text with a quotation mark in it is shown as what is no term, and one with a backslash and a
letter as another text. -/
theorem exists_text_not_read_back :
    (∀ t, Term.parse (Term.token "a\"b" .string).shown ≠ .ok t) ∧
      Term.parse (Term.token "a\\nb" .string).shown = .ok (.token "a\nb" .string) ∧
      ¬(Attributes.ofText "smtlib" "a\"b").IsRead (Attributes.ofText "smtlib" "a\"b").shown ∧
      (Attributes.ofText "smtlib" "a\nb").IsRead (Attributes.ofText "smtlib" "a\\nb").shown := by
  refine ⟨fun t ht => ?_, ?_, ?_, ?_⟩
  · obtain ⟨ts, _, hts, -⟩ := Term.parse_eq_ok_iff_takes.1 ht
    have herror : (tokenize (Term.token "a\"b" .string).shown).toOption = none := by cbv
    rw [hts] at herror
    cases herror
  · have htokens : (Scan.tokens (.start (Term.token "a\\nb" .string).shown.toList)).toOption.map
        kinds = some [.text "a\nb", .finish] := by cbv
    obtain ⟨ts, hts, hkinds⟩ := Scan.exists_tokenize htokens
    refine (Term.parse_eq_ok_iff hts _).2 ?_
    rw [hkinds]
    exact .plain (.one (.one (.single (.text _ _))))
  · exact mt (isRead_shown_iff isIdentifier_smtlib _).1 (by decide)
  · have htokens : (Scan.tokens (.start
        (Attributes.ofText "smtlib" "a\\nb").shown.toList)).toOption.map kinds =
        some [.punctuation .leftBracket, .ident "smtlib", .punctuation .leftParen, .text "a\nb",
          .punctuation .rightParen, .punctuation .rightBracket, .finish] := by cbv
    obtain ⟨ts, hts, hkinds⟩ := Scan.exists_tokenize htokens
    refine (isRead_iff hts _).2 ?_
    rw [hkinds]
    exact .list (.last (.valued "smtlib" (.text _ _))) (binds_ofText _ _)

/-! ## A literal for every text -/

/-- The characters of a text with a backslash in front of every quotation mark and backslash. -/
def escaped : List Char → List Char
  | [] => []
  | c :: cs => if c = '"' ∨ c = '\\' then '\\' :: c :: escaped cs else c :: escaped cs

/-- The literal of a text that is read as the text. -/
def literal (s : String) : List Char :=
  '"' :: (escaped s.toList ++ ['"'])

theorem textBody_escaped (start : Position) (cs rest : List Char) (p : Position) :
    ∃ q, Scan.textBody start p (escaped cs ++ '"' :: rest) = .ok (cs, ⟨q, rest⟩) := by
  induction cs generalizing p with
  | nil => exact ⟨p.step '"', rfl⟩
  | cons c cs ih =>
    rw [escaped]
    split
    · rename_i hc
      obtain ⟨q, hq⟩ := ih ((p.step '\\').step c)
      refine ⟨q, ?_⟩
      have hescape : Scan.escape? c = some c := by
        rcases hc with rfl | rfl <;> rfl
      rw [List.cons_append, List.cons_append, Scan.textBody, hescape]
      exact Except.bind_eq_ok.2 ⟨_, hq, rfl⟩
    · rename_i hc
      obtain ⟨hquote, hslash⟩ := not_or.1 hc
      obtain ⟨q, hq⟩ := ih (p.step c)
      refine ⟨q, ?_⟩
      rw [List.cons_append, Scan.textBody]
      · exact Except.bind_eq_ok.2 ⟨_, hq, rfl⟩
      · exact hquote
      · rintro rfl -
        exact hslash rfl
      · rintro _ _ rfl -
        exact hslash rfl

theorem lexes_literal {cs : List Char} (h : Lexes cs rest) (s : String) :
    Lexes (literal s ++ cs) (.text s :: rest) := by
  have hlist : literal s ++ cs = '"' :: (escaped s.toList ++ '"' :: cs) := by
    simp [literal]
  rw [hlist]
  refine h.token ⟨rfl, by decide⟩ fun p => ?_
  obtain ⟨q, hq⟩ := textBody_escaped p s.toList cs (p.step '"')
  refine ⟨q, ?_⟩
  have htoken : Scan.token p '"' (escaped s.toList ++ '"' :: cs) =
      Scan.textBody p (p.step '"') (escaped s.toList ++ '"' :: cs) >>=
        fun read => .ok (.text (String.ofList read.1), read.2) := rfl
  rw [htoken, hq]
  exact congrArg (fun name => Except.ok (TokenKind.text name, (⟨q, cs⟩ : Cursor)))
    String.ofList_toList

/-- Every text has a literal, as a term and as the value of an attribute. -/
theorem reads_literal (s : String) (hkey : IsIdentifier key) :
    Term.parse (String.ofList (literal s)) = .ok (.token s .string) ∧
      (Attributes.ofText key s).IsRead
        ("[" ++ key ++ "(" ++ String.ofList (literal s) ++ ")]") := by
  constructor
  · obtain ⟨ts, hts, hkinds⟩ := lexes_literal Scan.lexes_nil s .start
    rw [List.append_nil] at hts
    have htokenize : tokenize (String.ofList (literal s)) = .ok ts := by
      rw [tokenize, String.toList_ofList]
      exact hts
    refine (Term.parse_eq_ok_iff htokenize _).2 ?_
    rw [hkinds]
    exact .plain (.one (.one (.single (.text s _))))
  · refine isRead_of_lexes hkey (lexes_literal lexes_close s) ?_
    simp [String.toList_append]

end TextLiterals

end RewriteSemantics
