/-
# The grammar of terms

Which tokens write which term. `IsTerm ks t rest` says that the tokens `ks` write the term `t` and
are followed by the tokens `rest`, and each kind of phrase has a relation of this form. The
relations say what may stand where and not how it is found: a phrase may end wherever one of its
rules lets it end, whatever comes next, and a cast may have been built up from either end.

What follows is looked at in two places only. A name or a quoted label before an opening parenthesis
has its arguments there, and an ellipsis directly behind an opening tag is the one on the left.
-/
import RewriteSemantics.Proofs.Grammar.Tokens
import RewriteSemantics.Term.Parser

namespace RewriteSemantics.Grammar

open Parse (isVariableName isSortName)

/-! ## Labels and cells -/

/-- The names that stand for literals. -/
def literalNames : List String :=
  ["true", "false", ".K"]

/-- A token stands for a label: a name other than those of literals, or a quoted label. -/
inductive IsLabel : TokenKind → String → Prop where
  | name {name : String} (h : name ∉ literalNames) : IsLabel (.ident name) name
  | quoted (label : String) : IsLabel (.quoted label) label

/-- The tokens for an open side of a cell: an ellipsis, or nothing on a closed side. -/
def ellipsis : Bool → List TokenKind
  | true => [.punctuation .ellipsis]
  | false => []

/-- The attributes of a cell hold the members of its tag as texts. -/
def AreMembers (members : List (String × String)) (a : Attributes) : Prop :=
  Binds a (members.map fun (key, value) => (key, .text value))

/-! ## Terms -/

mutual

/-- A term: a sequence, or a rewrite of one sequence to another. -/
inductive IsTerm : List TokenKind → Term → List TokenKind → Prop where
  | plain {ks rest : List TokenKind} {t : Term} (h : IsSequence ks t rest) : IsTerm ks t rest
  | rewrite {ks mid rest : List TokenKind} {lhs rhs : Term}
      (hlhs : IsSequence ks lhs (.punctuation .arrow :: mid)) (hrhs : IsSequence mid rhs rest) :
      IsTerm ks (.rewrite lhs rhs) rest

/-- A sequence: a row, or several in sequence. -/
inductive IsSequence : List TokenKind → Term → List TokenKind → Prop where
  | one {ks rest : List TokenKind} {t : Term} (h : IsRow ks t rest) : IsSequence ks t rest
  | several {ks rest : List TokenKind} {items : List Term} (h : IsSteps ks items rest)
      (hlength : 2 ≤ items.length) : IsSequence ks (.sequence items) rest

/-- Rows with `~>` between them, at least one. -/
inductive IsSteps : List TokenKind → List Term → List TokenKind → Prop where
  | last {ks rest : List TokenKind} {t : Term} (h : IsRow ks t rest) : IsSteps ks [t] rest
  | cons {ks mid rest : List TokenKind} {t : Term} {items : List Term}
      (hfirst : IsRow ks t (.punctuation .followedBy :: mid)) (hothers : IsSteps mid items rest) :
      IsSteps ks (t :: items) rest

/-- A row: a cast, or several side by side. -/
inductive IsRow : List TokenKind → Term → List TokenKind → Prop where
  | one {ks rest : List TokenKind} {t : Term} (h : IsCast ks t rest) : IsRow ks t rest
  | several {ks rest : List TokenKind} {items : List Term} (h : AreCasts ks items rest)
      (hlength : 2 ≤ items.length) : IsRow ks (.bag items) rest

/-- Casts one behind the other, at least one. -/
inductive AreCasts : List TokenKind → List Term → List TokenKind → Prop where
  | last {ks rest : List TokenKind} {t : Term} (h : IsCast ks t rest) : AreCasts ks [t] rest
  | cons {ks mid rest : List TokenKind} {t : Term} {items : List Term}
      (hfirst : IsCast ks t mid) (hothers : AreCasts mid items rest) :
      AreCasts ks (t :: items) rest

/-- A cast: a single term, or a cast with one more sort behind it. -/
inductive IsCast : List TokenKind → Term → List TokenKind → Prop where
  | single {ks rest : List TokenKind} {t : Term} (h : IsSingle ks t rest) : IsCast ks t rest
  | cast {ks rest : List TokenKind} {t : Term} {sort : String}
      (h : IsCast ks t (.punctuation .colon :: .ident sort :: rest))
      (hsort : isSortName sort = true) : IsCast ks (.app (Label.cast ⟨sort⟩) [t]) rest

/-- A single term. -/
inductive IsSingle : List TokenKind → Term → List TokenKind → Prop where
  | group {ks rest : List TokenKind} {t : Term}
      (h : IsTerm ks t (.punctuation .rightParen :: rest)) :
      IsSingle (.punctuation .leftParen :: ks) t rest
  | int (value : Int) (rest : List TokenKind) : IsSingle (.int value :: rest) (.int value) rest
  | text (value : String) (rest : List TokenKind) :
      IsSingle (.text value :: rest) (.token value .string) rest
  | true (rest : List TokenKind) : IsSingle (.ident "true" :: rest) (.bool true) rest
  | false (rest : List TokenKind) : IsSingle (.ident "false" :: rest) (.bool false) rest
  | nothing (rest : List TokenKind) : IsSingle (.ident ".K" :: rest) (.seq []) rest
  | named {name : String} {rest : List TokenKind} (hname : isVariableName name = true)
      (hrest : rest.head? ≠ some (.punctuation .leftParen)) :
      IsSingle (.ident name :: rest) (.ofName name) rest
  | constant {k : TokenKind} {label : String} {rest : List TokenKind} (hlabel : IsLabel k label)
      (hname : ∀ name, k = .ident name → isVariableName name = false)
      (hrest : rest.head? ≠ some (.punctuation .leftParen)) :
      IsSingle (k :: rest) (.app label []) rest
  | unapplied {k : TokenKind} {label : String} (rest : List TokenKind) (hlabel : IsLabel k label) :
      IsSingle (k :: .punctuation .leftParen :: .punctuation .rightParen :: rest)
        (.app label []) rest
  | application {k : TokenKind} {label : String} {ks rest : List TokenKind} {args : List Term}
      (hlabel : IsLabel k label)
      (hargs : AreArguments ks args (.punctuation .rightParen :: rest)) :
      IsSingle (k :: .punctuation .leftParen :: ks) (.app label args) rest
  | cell {name : String} {members : List (String × String)} {a : Attributes}
      {leftOpen rightOpen : Bool} {ks inner rest : List TokenKind} {body : Term}
      (ha : AreMembers members a)
      (hbody : IsTerm inner body (ellipsis rightOpen ++ .cellClose name :: rest))
      (hks : ks = ellipsis leftOpen ++ inner) :
      IsSingle (.cellOpen name members :: ks) (.cell ⟨name, a, leftOpen, rightOpen⟩ body) rest
  | emptyCell {name : String} {members : List (String × String)} {a : Attributes}
      {leftOpen rightOpen : Bool} {ks rest : List TokenKind}
      (ha : AreMembers members a) (hopen : rightOpen = true → leftOpen = true)
      (hks : ks = ellipsis leftOpen ++ ellipsis rightOpen ++ .cellClose name :: rest) :
      IsSingle (.cellOpen name members :: ks) (.cell ⟨name, a, leftOpen, rightOpen⟩ (.bag [])) rest

/-- Terms with commas between them, at least one. -/
inductive AreArguments : List TokenKind → List Term → List TokenKind → Prop where
  | last {ks rest : List TokenKind} {t : Term} (h : IsTerm ks t rest) : AreArguments ks [t] rest
  | cons {ks mid rest : List TokenKind} {t : Term} {args : List Term}
      (hfirst : IsTerm ks t (.punctuation .comma :: mid)) (hothers : AreArguments mid args rest) :
      AreArguments ks (t :: args) rest

end

variable {ks rest : List TokenKind} {t : Term} {items args : List Term}

/-! ## First tokens -/

/-- The first token is one that a term can start with. -/
def StartsTerm (ks : List TokenKind) : Prop :=
  ∃ k ∈ ks.head?, k.startsTerm = true

theorem IsLabel.startsTerm {k : TokenKind} {label : String} (h : IsLabel k label) :
    k.startsTerm = true := by
  cases h with
  | name _ => rfl
  | quoted _ => rfl

theorem IsSingle.startsTerm (h : IsSingle ks t rest) : StartsTerm ks := by
  cases h with
  | constant hlabel _ _ => exact ⟨_, rfl, hlabel.startsTerm⟩
  | unapplied _ hlabel => exact ⟨_, rfl, hlabel.startsTerm⟩
  | application hlabel _ => exact ⟨_, rfl, hlabel.startsTerm⟩
  | _ => exact ⟨_, rfl, rfl⟩

theorem IsCast.startsTerm {ks rest : List TokenKind} {t : Term} :
    IsCast ks t rest → StartsTerm ks
  | .single h => h.startsTerm
  | .cast h _ => h.startsTerm

theorem AreCasts.startsTerm (h : AreCasts ks items rest) : StartsTerm ks := by
  cases h with
  | last h => exact h.startsTerm
  | cons hfirst _ => exact hfirst.startsTerm

theorem IsRow.startsTerm (h : IsRow ks t rest) : StartsTerm ks := by
  cases h with
  | one h => exact h.startsTerm
  | several h _ => exact h.startsTerm

theorem IsSteps.startsTerm (h : IsSteps ks items rest) : StartsTerm ks := by
  cases h with
  | last h => exact h.startsTerm
  | cons hfirst _ => exact hfirst.startsTerm

theorem IsSequence.startsTerm (h : IsSequence ks t rest) : StartsTerm ks := by
  cases h with
  | one h => exact h.startsTerm
  | several h _ => exact h.startsTerm

theorem IsTerm.startsTerm (h : IsTerm ks t rest) : StartsTerm ks := by
  cases h with
  | plain h => exact h.startsTerm
  | rewrite hlhs _ => exact hlhs.startsTerm

theorem AreArguments.startsTerm (h : AreArguments ks args rest) : StartsTerm ks := by
  cases h with
  | last h => exact h.startsTerm
  | cons hfirst _ => exact hfirst.startsTerm

/-! ## Spent tokens -/

theorem IsLabel.ne_finish {k : TokenKind} {label : String} (h : IsLabel k label) :
    k ≠ .finish := by
  cases h with
  | name _ => nofun
  | quoted _ => nofun

theorem spends_ellipsis {leftOpen : Bool} (h : Spends ks rest) :
    Spends (ellipsis leftOpen ++ ks) rest := by
  cases leftOpen with
  | false => exact h
  | true => exact h.cons (by simp)

mutual

theorem IsTerm.spends {ks rest : List TokenKind} {t : Term} : IsTerm ks t rest → Spends ks rest
  | .plain h => h.spends
  | .rewrite hlhs hrhs => (hlhs.spends.tail (by simp)).trans hrhs.spends

theorem IsSequence.spends {ks rest : List TokenKind} {t : Term} :
    IsSequence ks t rest → Spends ks rest
  | .one h => h.spends
  | .several h _ => h.spends

theorem IsSteps.spends {ks rest : List TokenKind} {items : List Term} :
    IsSteps ks items rest → Spends ks rest
  | .last h => h.spends
  | .cons hfirst hothers => (hfirst.spends.tail (by simp)).trans hothers.spends

theorem IsRow.spends {ks rest : List TokenKind} {t : Term} : IsRow ks t rest → Spends ks rest
  | .one h => h.spends
  | .several h _ => h.spends

theorem AreCasts.spends {ks rest : List TokenKind} {items : List Term} :
    AreCasts ks items rest → Spends ks rest
  | .last h => h.spends
  | .cons hfirst hothers => hfirst.spends.trans hothers.spends

theorem IsCast.spends {ks rest : List TokenKind} {t : Term} : IsCast ks t rest → Spends ks rest
  | .single h => h.spends
  | .cast h _ => (h.spends.tail (by simp)).tail (by simp)

theorem IsSingle.spends {ks rest : List TokenKind} {t : Term} :
    IsSingle ks t rest → Spends ks rest
  | .group h => (h.spends.tail (by simp)).cons (by simp)
  | .int _ _ => .one (by simp)
  | .text _ _ => .one (by simp)
  | .true _ => .one (by simp)
  | .false _ => .one (by simp)
  | .nothing _ => .one (by simp)
  | .named _ _ => .one (by simp)
  | .constant hlabel _ _ => .one hlabel.ne_finish
  | .unapplied _ hlabel =>
    ((Spends.one (by simp)).cons (by simp)).cons hlabel.ne_finish
  | .application hlabel hargs =>
    ((hargs.spends.tail (by simp)).cons (by simp)).cons hlabel.ne_finish
  | .cell _ hbody hks => by
    rw [hks]
    exact (spends_ellipsis (hbody.spends.trans (spends_ellipsis (.one (by simp))))).cons (by simp)
  | .emptyCell _ _ hks => by
    rw [hks, List.append_assoc]
    exact (spends_ellipsis (spends_ellipsis (.one (by simp)))).cons (by simp)

theorem AreArguments.spends {ks rest : List TokenKind} {args : List Term} :
    AreArguments ks args rest → Spends ks rest
  | .last h => h.spends
  | .cons hfirst hothers => (hfirst.spends.tail (by simp)).trans hothers.spends

end

end RewriteSemantics.Grammar
