/-
# The modules of two texts behind each other

Where the end of a text is looked at in the grammar of modules, the tokens of another text of
modules serve as well: they start with a keyword that nothing before them goes on with. So two texts
with a line break between them write the modules of the first and then those of the second, and it
makes no difference whether a text is read behind the built-in modules or together with them.
-/
import RewriteSemantics.Proofs.Definition.Builtin
import RewriteSemantics.Proofs.Definition.Parser
import RewriteSemantics.Proofs.Token.Concatenation

namespace RewriteSemantics

open Token (kinds)

namespace Grammar

/-- Some tokens with others in the place of the end of the text. -/
def continued (tail ks : List TokenKind) : List TokenKind :=
  ks.flatMap fun k => if k = .finish then tail else [k]

variable {tail : List TokenKind}

@[simp] theorem continued_nil (tail : List TokenKind) : continued tail [] = [] :=
  rfl

theorem continued_finish (tail : List TokenKind) : continued tail [.finish] = tail :=
  List.append_nil tail

@[simp] theorem continued_cons {k : TokenKind} (hk : k ≠ .finish) (tail ks : List TokenKind) :
    continued tail (k :: ks) = k :: continued tail ks := by
  rw [continued, List.flatMap_cons, if_neg hk]
  rfl

@[simp] theorem continued_ellipsis (isOpen : Bool) (tail ks : List TokenKind) :
    continued tail (ellipsis isOpen ++ ks) = ellipsis isOpen ++ continued tail ks := by
  cases isOpen with
  | false => rfl
  | true => exact continued_cons (by simp) tail ks

/-- In the tokens of a text only the last is replaced. -/
theorem IsText.continued_eq {ks : List TokenKind} (h : IsText ks) (tail : List TokenKind) :
    continued tail ks = ks.dropLast ++ tail := by
  obtain ⟨front, rfl, hfront⟩ := h
  rw [List.dropLast_concat]
  induction front with
  | nil => exact continued_finish tail
  | cons k front ih =>
    rw [List.mem_cons, not_or] at hfront
    rw [List.cons_append, continued_cons (Ne.symm hfront.1), ih hfront.2]
    rfl

/-! ## Terms -/

/-- There is a first token, and it does not open the arguments of a label. -/
def StartsAnew (ks : List TokenKind) : Prop :=
  ∃ k ∈ ks.head?, k ≠ .punctuation .leftParen

theorem StartsAnew.head?_continued_ne (htail : StartsAnew tail) {ks : List TokenKind}
    (hks : ks.head? ≠ some (.punctuation .leftParen)) :
    (continued tail ks).head? ≠ some (.punctuation .leftParen) := by
  cases ks with
  | nil => exact hks
  | cons k ks =>
    by_cases hk : k = .finish
    · obtain ⟨first, hfirst, hne⟩ := htail
      obtain ⟨more, rfl⟩ := List.head?_eq_some_iff.1 hfirst
      rw [continued, List.flatMap_cons, if_pos hk]
      exact fun heq => hne (Option.some.inj heq)
    · rw [continued_cons hk]
      exact hks

mutual

theorem IsTerm.continued (htail : StartsAnew tail) {ks rest : List TokenKind} {t : Term} :
    IsTerm ks t rest → IsTerm (continued tail ks) t (continued tail rest)
  | .plain h => .plain (h.continued htail)
  | .rewrite hlhs hrhs => .rewrite (by simpa using hlhs.continued htail) (hrhs.continued htail)

theorem IsSequence.continued (htail : StartsAnew tail) {ks rest : List TokenKind} {t : Term} :
    IsSequence ks t rest → IsSequence (continued tail ks) t (continued tail rest)
  | .one h => .one (h.continued htail)
  | .several h hlength => .several (h.continued htail) hlength

theorem IsSteps.continued (htail : StartsAnew tail) {ks rest : List TokenKind} {items : List Term} :
    IsSteps ks items rest → IsSteps (continued tail ks) items (continued tail rest)
  | .last h => .last (h.continued htail)
  | .cons hfirst hothers => .cons (by simpa using hfirst.continued htail) (hothers.continued htail)

theorem IsRow.continued (htail : StartsAnew tail) {ks rest : List TokenKind} {t : Term} :
    IsRow ks t rest → IsRow (continued tail ks) t (continued tail rest)
  | .one h => .one (h.continued htail)
  | .several h hlength => .several (h.continued htail) hlength

theorem AreCasts.continued (htail : StartsAnew tail) {ks rest : List TokenKind}
    {items : List Term} :
    AreCasts ks items rest → AreCasts (continued tail ks) items (continued tail rest)
  | .last h => .last (h.continued htail)
  | .cons hfirst hothers => .cons (hfirst.continued htail) (hothers.continued htail)

theorem IsCast.continued (htail : StartsAnew tail) {ks rest : List TokenKind} {t : Term} :
    IsCast ks t rest → IsCast (continued tail ks) t (continued tail rest)
  | .single h => .single (h.continued htail)
  | .cast h hsort => .cast (by simpa using h.continued htail) hsort

theorem IsSingle.continued (htail : StartsAnew tail) {ks rest : List TokenKind} {t : Term} :
    IsSingle ks t rest → IsSingle (continued tail ks) t (continued tail rest)
  | .group h => by
    rw [continued_cons (by simp)]
    exact .group (by simpa using h.continued htail)
  | .int value _ => by
    rw [continued_cons (by simp)]
    exact .int value _
  | .text value _ => by
    rw [continued_cons (by simp)]
    exact .text value _
  | .true _ => by
    rw [continued_cons (by simp)]
    exact .true _
  | .false _ => by
    rw [continued_cons (by simp)]
    exact .false _
  | .nothing _ => by
    rw [continued_cons (by simp)]
    exact .nothing _
  -- A name is a term by itself if no arguments follow it, so this is where the tail matters.
  | .named hname hrest => by
    rw [continued_cons (by simp)]
    exact .named hname (htail.head?_continued_ne hrest)
  | .constant hlabel hname hrest => by
    rw [continued_cons hlabel.ne_finish]
    exact .constant hlabel hname (htail.head?_continued_ne hrest)
  | .unapplied _ hlabel => by
    rw [continued_cons hlabel.ne_finish, continued_cons (by simp), continued_cons (by simp)]
    exact .unapplied _ hlabel
  | .application hlabel hargs => by
    rw [continued_cons hlabel.ne_finish, continued_cons (by simp)]
    exact .application hlabel (by simpa using hargs.continued htail)
  | .cell ha hbody hks => by
    rw [hks, continued_cons (by simp), continued_ellipsis]
    exact .cell ha (by simpa using hbody.continued htail) rfl
  | .emptyCell ha hopen hks => by
    rw [hks, continued_cons (by simp)]
    exact .emptyCell ha hopen (by simp [List.append_assoc])

theorem AreArguments.continued (htail : StartsAnew tail) {ks rest : List TokenKind}
    {args : List Term} :
    AreArguments ks args rest → AreArguments (continued tail ks) args (continued tail rest)
  | .last h => .last (h.continued htail)
  | .cons hfirst hothers => .cons (by simpa using hfirst.continued htail) (hothers.continued htail)

end

/-! ## Attributes and productions -/

variable {ks rest : List TokenKind}

theorem AreSeparated.continued {α : Type} {Is : List TokenKind → α → List TokenKind → Prop}
    {as : List α} (h : AreSeparated Is ks as rest)
    (hitem : ∀ {ks a rest}, Is ks a rest → Is (continued tail ks) a (continued tail rest)) :
    AreSeparated Is (continued tail ks) as (continued tail rest) := by
  induction h with
  | last h => exact .last (hitem h)
  | cons hfirst _ ih => exact .cons (by simpa using hitem hfirst) ih

theorem IsPosition.continued {n : Nat} (h : IsPosition ks n rest) :
    IsPosition (continued tail ks) n (continued tail rest) := by
  cases h with
  | number _ hn => simpa using .number (continued tail rest) hn

theorem IsPair.continued {pair : Nat × Nat} (h : IsPair ks pair rest) :
    IsPair (continued tail ks) pair (continued tail rest) := by
  cases h with
  | numbers _ ha hb => simpa using .numbers (continued tail rest) ha hb

theorem IsValue.continued {value : AttributeValue} (h : IsValue ks value rest) :
    IsValue (continued tail ks) value (continued tail rest) := by
  cases h with
  | nothing => exact .nothing _
  | text value => simpa using .text value (continued tail rest)
  | true => simpa using .true (continued tail rest)
  | false => simpa using .false (continued tail rest)
  | name _ htrue hfalse => simpa using .name (continued tail rest) htrue hfalse
  | positions h => exact .positions (h.continued IsPosition.continued)
  | relation h => exact .relation (h.continued IsPair.continued)

theorem IsAttribute.continued {binding : String × AttributeValue}
    (h : IsAttribute ks binding rest) :
    IsAttribute (continued tail ks) binding (continued tail rest) := by
  cases h with
  | bare key => simpa using .bare key (continued tail rest)
  | valued key h => simpa using .valued key (by simpa using h.continued)

theorem AreAttributes.continued {a : Attributes} (h : AreAttributes ks a rest) :
    AreAttributes (continued tail ks) a (continued tail rest) := by
  cases h with
  | absent => exact .absent _
  | list h ha => simpa using .list (by simpa using h.continued IsAttribute.continued) ha

theorem IsSort.continued {s : SortName} (h : IsSort ks s rest) :
    IsSort (continued tail ks) s (continued tail rest) := by
  cases h with
  | name _ h => simpa using .name (continued tail rest) h

theorem AreParameters.continued {params : List SortName} (h : AreParameters ks params rest) :
    AreParameters (continued tail ks) params (continued tail rest) := by
  cases h with
  | absent => exact .absent _
  | empty => simpa using .empty (continued tail rest)
  | list h => simpa using .list (by simpa using h.continued IsSort.continued)

theorem IsProduction.continued {sort : SortName} {p : Production}
    (h : IsProduction sort ks p rest) :
    IsProduction sort (continued tail ks) p (continued tail rest) := by
  cases h with
  | subsort _ hname => simpa using .subsort (continued tail rest) hname
  | named hname hparams => simpa using .named hname hparams.continued
  | quoted label hparams => simpa using .quoted label hparams.continued

/-! ## Sentences and modules -/

theorem IsRuleLabel.continued {label : Option String} (h : IsRuleLabel ks label rest) :
    IsRuleLabel (continued tail ks) label (continued tail rest) := by
  cases h with
  | absent => exact .absent _
  | name label => simpa using .name label (continued tail rest)

section

variable (htail : StartsAnew tail)

include htail

theorem IsCondition.continued {word : Keyword} {c : Option Term} (h : IsCondition word ks c rest) :
    IsCondition word (continued tail ks) c (continued tail rest) := by
  cases h with
  | absent => exact .absent _
  | present h => simpa using .present (h.continued htail)

theorem IsSentence.continued {s : Sentence} (h : IsSentence ks s rest) :
    IsSentence (continued tail ks) s (continued tail rest) := by
  cases h with
  | sort hsort ha => simpa using .sort hsort.continued ha.continued
  | production hsort hp ha =>
    simpa using .production (by simpa using hsort.continued) hp.continued ha.continued
  | rule hlabel hbody hrequires hensures htrailing ha =>
    simpa using .rule hlabel.continued (hbody.continued htail) (hrequires.continued htail)
      (hensures.continued htail) htrailing.continued ha
  | context hbody hrequires ha =>
    simpa using .context (hbody.continued htail) (hrequires.continued htail) ha.continued
  | configuration hbody ha => simpa using .configuration (hbody.continued htail) ha.continued

theorem IsBody.continued {imports : List String} {sentences : List Sentence}
    (h : IsBody ks imports sentences rest) :
    IsBody (continued tail ks) imports sentences (continued tail rest) := by
  induction h with
  | nil => exact .nil _
  | imports name _ ih => simpa using .imports name ih
  | sentence hs _ ih => exact .sentence (hs.continued htail) ih

theorem IsModule.continued {m : Module} (h : IsModule ks m rest) :
    IsModule (continued tail ks) m (continued tail rest) := by
  cases h with
  | mk name hbody ha => simpa using .mk name (by simpa using hbody.continued htail) ha.continued

end

/-- Modules start with a keyword, and so does the end of the text. -/
theorem AreModules.startsAnew {ms : List Module} (h : AreModules ks ms) : StartsAnew ks := by
  cases h with
  | nil => exact ⟨_, rfl, by simp⟩
  | cons hfirst =>
    cases hfirst
    exact ⟨_, rfl, by simp⟩

/-- Modules in the place of the end of others are behind them. -/
theorem AreModules.continued {ms ms' : List Module} (h : AreModules ks ms)
    (h' : AreModules tail ms') : AreModules (continued tail ks) (ms ++ ms') := by
  induction h with
  | nil =>
    rw [continued_finish]
    exact h'
  | cons hfirst _ ih => exact .cons (hfirst.continued h'.startsAnew) ih

end Grammar

/-! ## Texts -/

/-- The definition of a text that is read behind the text of the built-in modules. -/
def Compiler.parseBehindBuiltin (text main : String) : Except CompileError Definition := do
  let modules ← (Module.parseAll (Builtin.text ++ "\n" ++ text)).mapError .parse
  (Definition.ofModules main modules ∅).mapError .definition

namespace Module

variable {a b : String} {ms ms' : List Module}

theorem parseAll_append_lineBreak (ha : parseAll a = .ok ms) (hb : parseAll b = .ok ms') :
    parseAll (a ++ "\n" ++ b) = .ok (ms ++ ms') := by
  obtain ⟨ts, hts, -⟩ := Except.bind_eq_ok.1 ha
  obtain ⟨us, hus, -⟩ := Except.bind_eq_ok.1 hb
  obtain ⟨vs, hvs, hkinds⟩ := tokenize_append_lineBreak hts hus
  have hfirst := (parseAll_eq_ok_iff hts ms).1 ha
  have hsecond := (parseAll_eq_ok_iff hus ms').1 hb
  rw [parseAll_eq_ok_iff hvs, hkinds, ← (isText_of_tokenize hts).continued_eq]
  exact hfirst.continued hsecond

/-- Two texts of modules with a line break between them have the modules of both. So a text of
modules may be read behind the built-in modules or together with them. -/
theorem parseAll_compositional (ha : parseAll a = .ok ms) (hb : parseAll b = .ok ms') :
    parseAll (a ++ "\n" ++ b) = .ok (ms ++ ms') ∧
      parseAll (Builtin.text ++ "\n" ++ b) = .ok (Builtin.terms :: Builtin.programs :: ms') ∧
      ∀ main, Compiler.parseWithBuiltin b main = Compiler.parseBehindBuiltin b main := by
  have hbuiltin := parseAll_append_lineBreak Builtin.parseAll_text hb
  refine ⟨parseAll_append_lineBreak ha hb, hbuiltin, fun main => ?_⟩
  rw [Compiler.parseWithBuiltin, Compiler.parseBehindBuiltin, Builtin.parseAll_text, hb, hbuiltin]
  rfl

/-- The comment that the first text leaves open does not reach into the second. -/
theorem parseAll_compositional_openComment :
    parseAll "module A endmodule // open" = .ok [⟨"A", [], [], ∅⟩] ∧
      parseAll "module B imports A endmodule" = .ok [⟨"B", ["A"], [], ∅⟩] ∧
      parseAll ("module A endmodule // open" ++ "\n" ++ "module B imports A endmodule") =
        .ok [⟨"A", [], [], ∅⟩, ⟨"B", ["A"], [], ∅⟩] := by
  have ha : parseAll "module A endmodule // open" = .ok [⟨"A", [], [], ∅⟩] := by cbv
  have hb : parseAll "module B imports A endmodule" = .ok [⟨"B", ["A"], [], ∅⟩] := by cbv
  exact ⟨ha, hb, (parseAll_compositional ha hb).1⟩

end Module

end RewriteSemantics
