/-
# The grammar of modules

Which tokens write which attributes, sentences and modules. The relations have the form of those for
terms: some tokens write a value and are followed by others. An optional part may be missing
whatever comes next. What comes next never has to be looked at, since every part starts with a
keyword or a mark that no part before it could go on with.
-/
import RewriteSemantics.Definition.Parser
import RewriteSemantics.Proofs.Grammar.Term

namespace RewriteSemantics.Grammar

open Parse (isSortName)

/-- Phrases of one kind with commas between them, at least one. -/
inductive AreSeparated {α : Type} (Is : List TokenKind → α → List TokenKind → Prop) :
    List TokenKind → List α → List TokenKind → Prop where
  | last {ks rest : List TokenKind} {a : α} (h : Is ks a rest) : AreSeparated Is ks [a] rest
  | cons {ks mid rest : List TokenKind} {a : α} {others : List α}
      (hfirst : Is ks a (.punctuation .comma :: mid)) (hothers : AreSeparated Is mid others rest) :
      AreSeparated Is ks (a :: others) rest

theorem AreSeparated.exists_first {α : Type} {Is : List TokenKind → α → List TokenKind → Prop}
    {ks rest : List TokenKind} {as : List α} (h : AreSeparated Is ks as rest) :
    as ≠ [] ∧ ∃ a mid, Is ks a mid := by
  cases h with
  | last h => exact ⟨List.cons_ne_nil _ _, _, _, h⟩
  | cons hfirst _ => exact ⟨List.cons_ne_nil _ _, _, _, hfirst⟩

/-! ## Attributes -/

/-- A number that fits into 32 bits. -/
inductive IsPosition : List TokenKind → Nat → List TokenKind → Prop where
  | number {n : Nat} (rest : List TokenKind) (h : n < 4294967296) :
      IsPosition (.int n :: rest) n rest

/-- Two numbers that fit into 32 bits. -/
inductive IsPair : List TokenKind → Nat × Nat → List TokenKind → Prop where
  | numbers {a b : Nat} (rest : List TokenKind) (ha : a < 4294967296) (hb : b < 4294967296) :
      IsPair (.int a :: .int b :: rest) (a, b) rest

/-- The value of an attribute. -/
inductive IsValue : List TokenKind → AttributeValue → List TokenKind → Prop where
  | nothing (rest : List TokenKind) : IsValue rest .marker rest
  | text (value : String) (rest : List TokenKind) : IsValue (.text value :: rest) (.text value) rest
  | true (rest : List TokenKind) : IsValue (.ident "true" :: rest) (.bool true) rest
  | false (rest : List TokenKind) : IsValue (.ident "false" :: rest) (.bool false) rest
  | name {name : String} (rest : List TokenKind) (htrue : name ≠ "true") (hfalse : name ≠ "false") :
      IsValue (.ident name :: rest) (.text name) rest
  | positions {ks rest : List TokenKind} {values : List Nat}
      (h : AreSeparated IsPosition ks values rest) : IsValue ks (.positions values) rest
  | relation {ks rest : List TokenKind} {pairs : List (Nat × Nat)}
      (h : AreSeparated IsPair ks pairs rest) : IsValue ks (.relation pairs) rest

/-- An attribute: a key, which may have a value in parentheses. -/
inductive IsAttribute : List TokenKind → String × AttributeValue → List TokenKind → Prop where
  | bare (key : String) (rest : List TokenKind) :
      IsAttribute (.ident key :: rest) (key, .marker) rest
  | valued (key : String) {ks rest : List TokenKind} {value : AttributeValue}
      (h : IsValue ks value (.punctuation .rightParen :: rest)) :
      IsAttribute (.ident key :: .punctuation .leftParen :: ks) (key, value) rest

/-- A list of attributes in brackets, or none. -/
inductive AreAttributes : List TokenKind → Attributes → List TokenKind → Prop where
  | absent (rest : List TokenKind) : AreAttributes rest ∅ rest
  | list {ks rest : List TokenKind} {bindings : List (String × AttributeValue)} {a : Attributes}
      (h : AreSeparated IsAttribute ks bindings (.punctuation .rightBracket :: rest))
      (ha : Binds a bindings) : AreAttributes (.punctuation .leftBracket :: ks) a rest

/-! ## Productions -/

/-- A sort: a name that is the name of one. -/
inductive IsSort : List TokenKind → SortName → List TokenKind → Prop where
  | name {name : String} (rest : List TokenKind) (h : isSortName name = true) :
      IsSort (.ident name :: rest) ⟨name⟩ rest

/-- The parameters of a label in parentheses, or none. -/
inductive AreParameters : List TokenKind → List SortName → List TokenKind → Prop where
  | absent (rest : List TokenKind) : AreParameters rest [] rest
  | empty (rest : List TokenKind) :
      AreParameters (.punctuation .leftParen :: .punctuation .rightParen :: rest) [] rest
  | list {ks rest : List TokenKind} {params : List SortName}
      (h : AreSeparated IsSort ks params (.punctuation .rightParen :: rest)) :
      AreParameters (.punctuation .leftParen :: ks) params rest

/-- A production of a sort, without its attributes. -/
inductive IsProduction (sort : SortName) : List TokenKind → Production → List TokenKind → Prop where
  | subsort {name : String} (rest : List TokenKind) (hname : isSortName name = true) :
      IsProduction sort (.ident name :: rest) (.subsort sort ⟨name⟩) rest
  | named {name : String} {ks rest : List TokenKind} {params : List SortName}
      (hname : isSortName name = false) (hparams : AreParameters ks params rest) :
      IsProduction sort (.ident name :: ks) (.labelled sort name params) rest
  | quoted (label : String) {ks rest : List TokenKind} {params : List SortName}
      (hparams : AreParameters ks params rest) :
      IsProduction sort (.quoted label :: ks) (.labelled sort label params) rest

/-! ## Rules -/

/-- The label of a rule, a name in brackets before a colon, or none. -/
inductive IsRuleLabel : List TokenKind → Option String → List TokenKind → Prop where
  | absent (rest : List TokenKind) : IsRuleLabel rest none rest
  | name (label : String) (rest : List TokenKind) :
      IsRuleLabel (.punctuation .leftBracket :: .ident label :: .punctuation .rightBracket ::
        .punctuation .colon :: rest) (some label) rest

/-- A keyword and a term, or nothing. -/
inductive IsCondition (word : Keyword) : List TokenKind → Option Term → List TokenKind → Prop where
  | absent (rest : List TokenKind) : IsCondition word rest none rest
  | present {ks rest : List TokenKind} {t : Term} (h : IsTerm ks t rest) :
      IsCondition word (.keyword word :: ks) (some t) rest

/-- The attributes of a rule are those behind it, and its label unless one of them is a label. -/
def AreRuleAttributes (label : Option String) (trailing a : Attributes) : Prop :=
  ∀ key, a.get? key =
    (trailing.get? key).or (if key = Attributes.label then label.map .text else none)

/-! ## Sentences and modules -/

/-- A sentence. -/
inductive IsSentence : List TokenKind → Sentence → List TokenKind → Prop where
  | sort {ks mid rest : List TokenKind} {s : SortName} {a : Attributes} (hsort : IsSort ks s mid)
      (ha : AreAttributes mid a rest) : IsSentence (.keyword .sort :: ks) (.sort ⟨s, a⟩) rest
  | production {ks mid end_ rest : List TokenKind} {s : SortName} {p : Production} {a : Attributes}
      (hsort : IsSort ks s (.punctuation .definedAs :: mid)) (hp : IsProduction s mid p end_)
      (ha : AreAttributes end_ a rest) :
      IsSentence (.keyword .sort :: ks) (.production { p with attributes := a }) rest
  | rule {ks before behind mid end_ rest : List TokenKind} {label : Option String} {body : Term}
      {requires ensures : Option Term} {trailing a : Attributes}
      (hlabel : IsRuleLabel ks label before) (hbody : IsTerm before body behind)
      (hrequires : IsCondition .requires behind requires mid)
      (hensures : IsCondition .ensures mid ensures end_)
      (htrailing : AreAttributes end_ trailing rest)
      (ha : AreRuleAttributes label trailing a) :
      IsSentence (.keyword .rule :: ks) (.rule ⟨body, requires, ensures, a⟩) rest
  | context {ks behind end_ rest : List TokenKind} {body : Term} {requires : Option Term}
      {a : Attributes} (hbody : IsTerm ks body behind)
      (hrequires : IsCondition .requires behind requires end_) (ha : AreAttributes end_ a rest) :
      IsSentence (.keyword .context :: ks) (.context ⟨body, requires, a⟩) rest
  | configuration {ks end_ rest : List TokenKind} {body : Term} {a : Attributes}
      (hbody : IsTerm ks body end_) (ha : AreAttributes end_ a rest) :
      IsSentence (.keyword .configuration :: ks) (.configuration ⟨body, a⟩) rest

/-- Imports and sentences in any order. -/
inductive IsBody : List TokenKind → List String → List Sentence → List TokenKind → Prop where
  | nil (rest : List TokenKind) : IsBody rest [] [] rest
  | imports (name : String) {ks rest : List TokenKind} {imports : List String}
      {sentences : List Sentence} (h : IsBody ks imports sentences rest) :
      IsBody (.keyword .imports :: .ident name :: ks) (name :: imports) sentences rest
  | sentence {ks mid rest : List TokenKind} {s : Sentence} {imports : List String}
      {sentences : List Sentence} (hs : IsSentence ks s mid)
      (h : IsBody mid imports sentences rest) :
      IsBody ks imports (s :: sentences) rest

/-- A module. -/
inductive IsModule : List TokenKind → Module → List TokenKind → Prop where
  | mk (name : String) {ks mid rest : List TokenKind} {imports : List String}
      {sentences : List Sentence} {a : Attributes}
      (hbody : IsBody ks imports sentences (.keyword .endModule :: mid))
      (ha : AreAttributes mid a rest) :
      IsModule (.keyword .module :: .ident name :: ks) ⟨name, imports, sentences, a⟩ rest

/-- Modules one behind the other, up to the end of the text. -/
inductive AreModules : List TokenKind → List Module → Prop where
  | nil : AreModules [.finish] []
  | cons {ks mid : List TokenKind} {m : Module} {others : List Module} (hfirst : IsModule ks m mid)
      (hothers : AreModules mid others) : AreModules ks (m :: others)

/-! ## Spent tokens -/

variable {ks rest : List TokenKind}

theorem AreSeparated.spends {α : Type} {Is : List TokenKind → α → List TokenKind → Prop}
    (hitem : ∀ {ks a rest}, Is ks a rest → Spends ks rest) {as : List α}
    (h : AreSeparated Is ks as rest) : Spends ks rest := by
  induction h with
  | last h => exact hitem h
  | cons hfirst _ ih => exact ((hitem hfirst).tail (by simp)).trans ih

theorem IsPosition.spends {n : Nat} (h : IsPosition ks n rest) : Spends ks rest := by
  cases h with
  | number => exact .one (by simp)

theorem IsPair.spends {pair : Nat × Nat} (h : IsPair ks pair rest) : Spends ks rest := by
  cases h with
  | numbers => exact (Spends.one (by simp)).cons (by simp)

theorem IsValue.spends {value : AttributeValue} (h : IsValue ks value rest) : Spends ks rest := by
  cases h with
  | nothing => exact Spends.refl _
  | positions h => exact h.spends IsPosition.spends
  | relation h => exact h.spends IsPair.spends
  | _ => exact .one (by simp)

theorem IsAttribute.spends {binding : String × AttributeValue} (h : IsAttribute ks binding rest) :
    Spends ks rest := by
  cases h with
  | bare => exact .one (by simp)
  | valued _ h => exact ((h.spends.tail (by simp)).cons (by simp)).cons (by simp)

theorem AreAttributes.spends {a : Attributes} (h : AreAttributes ks a rest) : Spends ks rest := by
  cases h with
  | absent => exact Spends.refl _
  | list h => exact ((h.spends IsAttribute.spends).tail (by simp)).cons (by simp)

theorem IsSort.spends {s : SortName} (h : IsSort ks s rest) : Spends ks rest := by
  cases h with
  | name => exact .one (by simp)

theorem AreParameters.spends {params : List SortName} (h : AreParameters ks params rest) :
    Spends ks rest := by
  cases h with
  | absent => exact Spends.refl _
  | empty => exact (Spends.one (by simp)).cons (by simp)
  | list h => exact ((h.spends IsSort.spends).tail (by simp)).cons (by simp)

theorem IsProduction.spends {sort : SortName} {p : Production} (h : IsProduction sort ks p rest) :
    Spends ks rest := by
  cases h with
  | subsort => exact .one (by simp)
  | named _ hparams => exact hparams.spends.cons (by simp)
  | quoted _ hparams => exact hparams.spends.cons (by simp)

theorem IsRuleLabel.spends {label : Option String} (h : IsRuleLabel ks label rest) :
    Spends ks rest := by
  cases h with
  | absent => exact Spends.refl _
  | name => exact (((Spends.one (by simp)).cons (by simp)).cons (by simp)).cons (by simp)

theorem IsCondition.spends {word : Keyword} {c : Option Term} (h : IsCondition word ks c rest) :
    Spends ks rest := by
  cases h with
  | absent => exact Spends.refl _
  | present h => exact h.spends.cons (by simp)

theorem IsSentence.spends {s : Sentence} (h : IsSentence ks s rest) : Spends ks rest := by
  cases h with
  | sort hsort ha => exact (hsort.spends.trans ha.spends).cons (by simp)
  | production hsort hp ha =>
    exact ((hsort.spends.tail (by simp)).trans (hp.spends.trans ha.spends)).cons (by simp)
  | rule hlabel hbody hrequires hensures htrailing =>
    refine (hlabel.spends.trans (hbody.spends.trans ?_)).cons (by simp)
    exact hrequires.spends.trans (hensures.spends.trans htrailing.spends)
  | context hbody hrequires ha =>
    exact (hbody.spends.trans (hrequires.spends.trans ha.spends)).cons (by simp)
  | configuration hbody ha => exact (hbody.spends.trans ha.spends).cons (by simp)

theorem IsBody.spends {imports : List String} {sentences : List Sentence}
    (h : IsBody ks imports sentences rest) : Spends ks rest := by
  induction h with
  | nil rest => exact Spends.refl _
  | imports _ _ ih => exact (ih.cons (by simp)).cons (by simp)
  | sentence hs _ ih => exact hs.spends.trans ih

theorem IsModule.spends {m : Module} (h : IsModule ks m rest) : Spends ks rest := by
  cases h with
  | mk _ hbody ha =>
    have hinside := (hbody.spends.tail (by simp)).trans ha.spends
    exact (hinside.cons (by simp)).cons (by simp)

end RewriteSemantics.Grammar
