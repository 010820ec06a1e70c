/-
# Sentences as they are read

The readers of sentences take exactly what the grammar of sentences writes. A sentence ends before a
keyword that starts or ends something or before the end of the text; no reader of its parts goes on
with any of these.
-/
import RewriteSemantics.Proofs.Attribute.Parser
import RewriteSemantics.Proofs.Term.Completeness

namespace RewriteSemantics

open Grammar
open Token (kinds kinds_eq_cons)

/-! ## What may follow -/

namespace TokenKind

/-- The reader of a condition goes on with a token. -/
def continuesCondition (word : Keyword) (k : TokenKind) : Bool :=
  k = .keyword word || k.continuesTerm

/-- Some reader of a part of a sentence may go on with a token. -/
def continuesSentence : TokenKind → Bool
  | .keyword word => word = .requires || word = .ensures
  | .finish => false
  | _ => true

end TokenKind

namespace Grammar

variable {ks rest : List TokenKind} {goesOn : TokenKind → Bool}

theorem Stops.term {word : Keyword} (h : Stops (TokenKind.continuesCondition word) ks) :
    Stops TokenKind.continuesTerm ks :=
  h.mono fun _ hk => Bool.or_eq_true_iff.2 (.inr hk)

/-- Behind a sentence stands a keyword or the end of the text. -/
theorem Stops.of_sentence (h : Stops TokenKind.continuesSentence ks)
    (hword : ∀ word, word ≠ .requires → word ≠ .ensures → goesOn (.keyword word) = false)
    (hfinish : goesOn .finish = false) : Stops goesOn ks := by
  refine h.mono fun k hk => ?_
  cases k with
  | keyword word =>
    by_contra hends
    rw [TokenKind.continuesSentence, Bool.or_eq_true, decide_eq_true_iff, decide_eq_true_iff,
      not_or] at hends
    exact Bool.false_ne_true ((hword word hends.1 hends.2).symm.trans hk)
  | finish => exact absurd (hfinish.symm.trans hk) Bool.false_ne_true
  | _ => rfl

theorem AreAttributes.stops {a : Attributes} (h : AreAttributes ks a rest)
    (hbracket : goesOn (.punctuation .leftBracket) = false) (hrest : Stops goesOn rest) :
    Stops goesOn ks := by
  cases h with
  | absent => exact hrest
  | list => exact stops_cons.2 hbracket

theorem IsCondition.stops {word : Keyword} {c : Option Term} (h : IsCondition word ks c rest)
    (hword : goesOn (.keyword word) = false) (hrest : Stops goesOn rest) : Stops goesOn ks := by
  cases h with
  | absent => exact hrest
  | present => exact stops_cons.2 hword

end Grammar

namespace Attributes

theorem get?_merge (left right : Attributes) (key : String) :
    (left.merge right).get? key = (right.get? key).or (left.get? key) := by
  rw [merge, OrderedMap.get?_insertAll, OrderedMap.lookup_reverse_entries]

end Attributes

namespace Parse

variable {ts rest : List Token} {ks left : List TokenKind}

/-! ## Productions -/

theorem reads_sort : Reads (fun ts => Takes (sort ts)) IsSort fun _ => false where
  sound {ts s rest} h := by
    obtain ⟨hname, _, rfl⟩ := takes_sort_iff.1 h
    exact .name _ hname
  complete {ks s left} h _ ts hts := by
    cases h with
    | name _ hname =>
      obtain ⟨sp, rest, rfl, hrest⟩ := kinds_eq_cons hts
      exact ⟨rest, takes_sort_iff.2 ⟨hname, sp, rfl⟩, hrest⟩

theorem takes_someSorts_iff {params : List SortName} :
    Takes (someSorts ts) params rest ↔ TakesSeparated (fun ts => Takes (sort ts))
      (fun ts => Takes (someSorts ts)) .rightParen ts params rest := by
  rw [someSorts]
  exact takes_separated_iff sort someSorts nofun

theorem reads_someSorts : Reads (fun ts => Takes (someSorts ts))
    (fun ks params rest => AreSeparated IsSort ks params (.punctuation .rightParen :: rest))
    fun _ => false :=
  reads_separated takes_someSorts_iff reads_sort rfl rfl

theorem reads_parameters : Reads (fun ts => MayTake (parameters ts)) AreParameters
    (fun k => k = .punctuation .leftParen) where
  sound {ts params rest} h := by
    obtain ⟨_, heq⟩ := h
    rw [parameters.eq_def] at heq
    split at heq
    · cases heq
      exact .empty _
    · obtain ⟨⟨sorts, rest, hrest⟩, hsorts, heq⟩ := Except.bind_eq_ok.1 heq
      cases heq
      exact .list (reads_someSorts.sound ⟨_, hsorts⟩)
    · cases heq
      exact .absent _
  complete {ks params left} h hleft ts hts := by
    cases h with
    | absent =>
      refine ⟨ts, ⟨Nat.le_refl _, ?_⟩, hts⟩
      rw [parameters.eq_def]
      split
      · exact absurd (congrArg List.head? hts).symm (hleft.head?_ne (decide_eq_true rfl))
      · exact absurd (congrArg List.head? hts).symm (hleft.head?_ne (decide_eq_true rfl))
      · rfl
    | empty =>
      obtain ⟨s, behind, rfl, hbehind⟩ := kinds_eq_cons hts
      obtain ⟨s', rest, rfl, hrest⟩ := kinds_eq_cons hbehind
      exact ⟨rest, ⟨Nat.le_succ_of_le (Nat.le_succ _), rfl⟩, hrest⟩
    | list h =>
      obtain ⟨s, more, rfl, hmore⟩ := kinds_eq_cons hts
      obtain ⟨rest, ⟨hlt, hsorts⟩, hrest⟩ := reads_someSorts.complete h (stops_of_false _) hmore
      -- The first sort is not a closing parenthesis.
      obtain ⟨-, _, _, hfirst⟩ := h.exists_first
      cases hfirst
      obtain ⟨_, behind, rfl, -⟩ := kinds_eq_cons hmore
      exact ⟨rest, ⟨Nat.le_succ_of_le (Nat.le_of_lt hlt), Except.bind_eq_ok.2 ⟨_, hsorts, rfl⟩⟩,
        hrest⟩

theorem mayTake_labelled_iff {sort : SortName} {label : String} {p : Production} :
    MayTake (labelled sort label ts) p rest ↔
      ∃ params, MayTake (parameters ts) params rest ∧ p = .labelled sort label params := by
  rw [labelled]
  constructor
  · rintro ⟨_, heq⟩
    obtain ⟨⟨params, rest, hrest⟩, hparams, heq⟩ := Except.bind_eq_ok.1 heq
    cases heq
    exact ⟨params, ⟨_, hparams⟩, rfl⟩
  · rintro ⟨params, ⟨hrest, hparams⟩, rfl⟩
    exact ⟨hrest, Except.bind_eq_ok.2 ⟨_, hparams, rfl⟩⟩

theorem reads_alternative (sort : SortName) : Reads (fun ts => Takes (alternative sort ts))
    (IsProduction sort) (fun k => k = .punctuation .leftParen) where
  sound {ts p rest} h := by
    obtain ⟨_, heq⟩ := h
    rw [alternative.eq_def] at heq
    split at heq
    · split at heq
      · rename_i hname
        cases heq
        exact .subsort _ hname
      · rename_i hname
        obtain ⟨⟨p, rest, hrest⟩, hp, heq⟩ := Except.bind_eq_ok.1 heq
        cases heq
        obtain ⟨params, hparams, rfl⟩ := mayTake_labelled_iff.1 ⟨_, hp⟩
        exact .named (Bool.not_eq_true _ ▸ hname) (reads_parameters.sound hparams)
    · obtain ⟨⟨p, rest, hrest⟩, hp, heq⟩ := Except.bind_eq_ok.1 heq
      cases heq
      obtain ⟨params, hparams, rfl⟩ := mayTake_labelled_iff.1 ⟨_, hp⟩
      exact .quoted _ (reads_parameters.sound hparams)
    · cases heq
  complete {ks p left} h hleft ts hts := by
    cases h with
    | subsort _ hname =>
      obtain ⟨s, rest, rfl, hrest⟩ := kinds_eq_cons hts
      exact ⟨rest, ⟨Nat.lt_succ_self _, if_pos hname⟩, hrest⟩
    | named hname hparams =>
      obtain ⟨s, more, rfl, hmore⟩ := kinds_eq_cons hts
      obtain ⟨rest, hparams, hrest⟩ := reads_parameters.complete hparams hleft hmore
      obtain ⟨hle, hp⟩ := mayTake_labelled_iff.2 ⟨_, hparams, rfl⟩
      refine ⟨rest, ⟨Nat.lt_succ_of_le hle, ?_⟩, hrest⟩
      rw [alternative, if_neg (Bool.eq_false_iff.1 hname)]
      exact Except.bind_eq_ok.2 ⟨_, hp, rfl⟩
    | quoted label hparams =>
      obtain ⟨s, more, rfl, hmore⟩ := kinds_eq_cons hts
      obtain ⟨rest, hparams, hrest⟩ := reads_parameters.complete hparams hleft hmore
      obtain ⟨hle, hp⟩ := mayTake_labelled_iff.2 ⟨_, hparams, rfl⟩
      exact ⟨rest, ⟨Nat.lt_succ_of_le hle, Except.bind_eq_ok.2 ⟨_, hp, rfl⟩⟩, hrest⟩

/-! ## Conditions and labels -/

theorem mayTake_condition_iff {word : Keyword} {c : Option Term} :
    MayTake (condition word ts) c rest ↔
      (∃ s more t, ts = ⟨.keyword word, s⟩ :: more ∧ Takes (term more) t rest ∧ c = some t) ∨
        (kinds ts).head? ≠ some (.keyword word) ∧ c = none ∧ rest = ts := by
  rw [condition]
  rcases skip_cases (.keyword word) ts with ⟨s, more, hmore, rfl, hskip⟩ | ⟨hhead, hskip⟩
  · rw [hskip]
    constructor
    · rintro ⟨_, heq⟩
      obtain ⟨⟨t, rest, hrest⟩, ht, heq⟩ := Except.bind_eq_ok.1 heq
      cases heq
      exact .inl ⟨s, more, t, rfl, ⟨_, ht⟩, rfl⟩
    · rintro (⟨_, _, t, heq, ⟨hrest, ht⟩, rfl⟩ | ⟨hhead, -, -⟩)
      · cases heq
        exact ⟨Nat.le_succ_of_le (Nat.le_of_lt hrest), Except.bind_eq_ok.2 ⟨_, ht, rfl⟩⟩
      · exact absurd rfl hhead
  · rw [hskip]
    constructor
    · rintro ⟨_, heq⟩
      cases heq
      exact .inr ⟨hhead, rfl, rfl⟩
    · rintro (⟨s, more, t, rfl, -, -⟩ | ⟨-, rfl, rfl⟩)
      · exact absurd rfl hhead
      · exact ⟨Nat.le_refl _, rfl⟩

theorem reads_condition (word : Keyword) : Reads (fun ts => MayTake (condition word ts))
    (IsCondition word) (TokenKind.continuesCondition word) where
  sound {ts c rest} h := by
    rcases mayTake_condition_iff.1 h with ⟨s, more, t, rfl, ht, rfl⟩ | ⟨-, rfl, rfl⟩
    · exact .present (reads_term.sound ht)
    · exact .absent _
  complete {ks c left} h hleft ts hts := by
    cases h with
    | absent =>
      refine ⟨ts, mayTake_condition_iff.2 (.inr ⟨?_, rfl, rfl⟩), hts⟩
      rw [hts]
      exact hleft.head?_ne (Bool.or_eq_true_iff.2 (.inl (decide_eq_true rfl)))
    | present h =>
      obtain ⟨s, more, rfl, hmore⟩ := kinds_eq_cons hts
      obtain ⟨rest, ht, hrest⟩ := reads_term.complete h hleft.term hmore
      exact ⟨rest, mayTake_condition_iff.2 (.inl ⟨s, more, _, rfl, ht, rfl⟩), hrest⟩

/-- The attributes of a rule that are known from its label. -/
def labelAttributes : Option String → Attributes
  | some label => (∅ : Attributes).insert Attributes.label (.text label)
  | none => ∅

theorem get?_labelAttributes (label : Option String) (key : String) :
    (labelAttributes label).get? key =
      if key = Attributes.label then label.map .text else none := by
  cases label with
  | none => simp [labelAttributes]
  | some label => rw [labelAttributes, OrderedMap.get?_insert, OrderedMap.get?_empty]; rfl

theorem areRuleAttributes_iff {label : Option String} {trailing a : Attributes} :
    AreRuleAttributes label trailing a ↔ a = (labelAttributes label).merge trailing := by
  constructor
  · intro h
    refine OrderedMap.ext_get? fun key => ?_
    rw [h, Attributes.get?_merge, get?_labelAttributes]
  · rintro rfl key
    rw [Attributes.get?_merge, get?_labelAttributes]

theorem reads_ruleLabel : Reads (fun ts => MayTake (ruleLabel ts))
    (fun ks a rest => ∃ label, IsRuleLabel ks label rest ∧ a = labelAttributes label)
    (fun k => k = .punctuation .leftBracket) where
  sound {ts a rest} h := by
    obtain ⟨_, heq⟩ := h
    rw [ruleLabel.eq_def] at heq
    split at heq
    · obtain ⟨⟨label, rest, hrest⟩, hlabel, heq⟩ := Except.bind_eq_ok.1 heq
      obtain ⟨⟨_, rest', hrest'⟩, hbracket, heq⟩ := Except.bind_eq_ok.1 heq
      obtain ⟨⟨_, rest'', hrest''⟩, hcolon, heq⟩ := Except.bind_eq_ok.1 heq
      cases heq
      obtain ⟨_, rfl⟩ := takes_ident_iff.1 ⟨_, hlabel⟩
      obtain ⟨_, rfl⟩ := takes_expect_iff.1 ⟨_, hbracket⟩
      obtain ⟨_, rfl⟩ := takes_expect_iff.1 ⟨_, hcolon⟩
      exact ⟨some label, .name label _, rfl⟩
    · cases heq
      exact ⟨none, .absent _, rfl⟩
  complete {ks a left} h hleft ts hts := by
    obtain ⟨label, h, rfl⟩ := h
    cases h with
    | absent =>
      refine ⟨ts, ⟨Nat.le_refl _, ?_⟩, hts⟩
      rw [ruleLabel.eq_def]
      split
      · exact absurd (congrArg List.head? hts).symm (hleft.head?_ne (decide_eq_true rfl))
      · rfl
    | name label =>
      obtain ⟨_, more, rfl, hmore⟩ := kinds_eq_cons hts
      obtain ⟨s, behind, rfl, hbehind⟩ := kinds_eq_cons hmore
      obtain ⟨s', behind', rfl, hbehind'⟩ := kinds_eq_cons hbehind
      obtain ⟨s'', rest, rfl, hrest⟩ := kinds_eq_cons hbehind'
      obtain ⟨_, hlabel⟩ := takes_ident_iff.2 ⟨s, rfl⟩
      obtain ⟨_, hbracket⟩ := takes_expect_iff.2 ⟨s', rfl⟩
      obtain ⟨_, hcolon⟩ := takes_expect_iff.2 ⟨s'', rfl⟩
      refine ⟨rest, ⟨by simp only [List.length_cons]; omega, ?_⟩, hrest⟩
      refine Except.bind_eq_ok.2 ⟨_, hlabel, Except.bind_eq_ok.2 ⟨_, hbracket, ?_⟩⟩
      exact Except.bind_eq_ok.2 ⟨_, hcolon, rfl⟩

/-! ## Rules, contexts and configurations -/

theorem takes_rule_iff {r : Rule} : Takes (rule ts) r rest ↔
    ∃ label before body behind requires mid ensures end_ trailing,
      MayTake (ruleLabel ts) label before ∧ Takes (term before) body behind ∧
      MayTake (condition .requires behind) requires mid ∧
      MayTake (condition .ensures mid) ensures end_ ∧ MayTake (attributes end_) trailing rest ∧
      r = ⟨body, requires, ensures, label.merge trailing⟩ := by
  rw [rule]
  constructor
  · rintro ⟨_, heq⟩
    obtain ⟨⟨label, before, _⟩, hlabel, heq⟩ := Except.bind_eq_ok.1 heq
    obtain ⟨⟨body, behind, _⟩, hbody, heq⟩ := Except.bind_eq_ok.1 heq
    obtain ⟨⟨requires, mid, _⟩, hrequires, heq⟩ := Except.bind_eq_ok.1 heq
    obtain ⟨⟨ensures, end_, _⟩, hensures, heq⟩ := Except.bind_eq_ok.1 heq
    obtain ⟨⟨trailing, rest, _⟩, htrailing, heq⟩ := Except.bind_eq_ok.1 heq
    cases heq
    exact ⟨label, before, body, behind, requires, mid, ensures, end_, trailing, ⟨_, hlabel⟩,
      ⟨_, hbody⟩, ⟨_, hrequires⟩, ⟨_, hensures⟩, ⟨_, htrailing⟩, rfl⟩
  · rintro ⟨label, before, body, behind, requires, mid, ensures, end_, trailing, ⟨hbefore, hlabel⟩,
      ⟨hbehind, hbody⟩, ⟨hmid, hrequires⟩, ⟨hend, hensures⟩, ⟨hrest, htrailing⟩, rfl⟩
    refine ⟨by omega, Except.bind_eq_ok.2 ⟨_, hlabel, Except.bind_eq_ok.2 ⟨_, hbody, ?_⟩⟩⟩
    refine Except.bind_eq_ok.2 ⟨_, hrequires, Except.bind_eq_ok.2 ⟨_, hensures, ?_⟩⟩
    exact Except.bind_eq_ok.2 ⟨_, htrailing, rfl⟩

theorem takes_context_iff {c : Context} : Takes (context ts) c rest ↔
    ∃ body behind requires end_ a, Takes (term ts) body behind ∧
      MayTake (condition .requires behind) requires end_ ∧ MayTake (attributes end_) a rest ∧
      c = ⟨body, requires, a⟩ := by
  rw [context]
  constructor
  · rintro ⟨_, heq⟩
    obtain ⟨⟨body, behind, _⟩, hbody, heq⟩ := Except.bind_eq_ok.1 heq
    obtain ⟨⟨requires, end_, _⟩, hrequires, heq⟩ := Except.bind_eq_ok.1 heq
    obtain ⟨⟨a, rest, _⟩, ha, heq⟩ := Except.bind_eq_ok.1 heq
    cases heq
    exact ⟨body, behind, requires, end_, a, ⟨_, hbody⟩, ⟨_, hrequires⟩, ⟨_, ha⟩, rfl⟩
  · rintro ⟨body, behind, requires, end_, a, ⟨hbehind, hbody⟩, ⟨hend, hrequires⟩, ⟨hrest, ha⟩, rfl⟩
    refine ⟨by omega, Except.bind_eq_ok.2 ⟨_, hbody, Except.bind_eq_ok.2 ⟨_, hrequires, ?_⟩⟩⟩
    exact Except.bind_eq_ok.2 ⟨_, ha, rfl⟩

theorem takes_configuration_iff {c : Configuration} : Takes (configuration ts) c rest ↔
    ∃ body end_ a,
      Takes (term ts) body end_ ∧ MayTake (attributes end_) a rest ∧ c = ⟨body, a⟩ := by
  rw [configuration]
  constructor
  · rintro ⟨_, heq⟩
    obtain ⟨⟨body, end_, _⟩, hbody, heq⟩ := Except.bind_eq_ok.1 heq
    obtain ⟨⟨a, rest, _⟩, ha, heq⟩ := Except.bind_eq_ok.1 heq
    cases heq
    exact ⟨body, end_, a, ⟨_, hbody⟩, ⟨_, ha⟩, rfl⟩
  · rintro ⟨body, end_, a, ⟨hend, hbody⟩, ⟨hrest, ha⟩, rfl⟩
    exact ⟨by omega, Except.bind_eq_ok.2 ⟨_, hbody, Except.bind_eq_ok.2 ⟨_, ha, rfl⟩⟩⟩

theorem takes_sortSentence_iff {s : Sentence} : Takes (sortSentence ts) s rest ↔
    (∃ sort sp mid p end_ a, Takes (Parse.sort ts) sort (⟨.punctuation .definedAs, sp⟩ :: mid) ∧
        Takes (alternative sort mid) p end_ ∧ MayTake (attributes end_) a rest ∧
        s = .production { p with attributes := a }) ∨
      ∃ sort mid a, Takes (Parse.sort ts) sort mid ∧
        (kinds mid).head? ≠ some (.punctuation .definedAs) ∧ MayTake (attributes mid) a rest ∧
        s = .sort ⟨sort, a⟩ := by
  rw [sortSentence]
  constructor
  · rintro ⟨_, heq⟩
    obtain ⟨⟨sort, mid, _⟩, hsort, heq⟩ := Except.bind_eq_ok.1 heq
    dsimp only at heq
    split at heq
    · obtain ⟨⟨p, end_, _⟩, hp, heq⟩ := Except.bind_eq_ok.1 heq
      obtain ⟨⟨a, rest, _⟩, ha, heq⟩ := Except.bind_eq_ok.1 heq
      cases heq
      exact .inl ⟨sort, _, _, p, end_, a, ⟨_, hsort⟩, ⟨_, hp⟩, ⟨_, ha⟩, rfl⟩
    · rename_i hnone
      obtain ⟨⟨a, rest, _⟩, ha, heq⟩ := Except.bind_eq_ok.1 heq
      cases heq
      refine .inr ⟨sort, mid, a, ⟨_, hsort⟩, fun hhead => ?_, ⟨_, ha⟩, rfl⟩
      obtain ⟨s, more, rfl⟩ := Token.head?_kinds_eq_some hhead
      exact hnone s more _ rfl HEq.rfl
  · rintro (⟨sort, sp, mid, p, end_, a, ⟨hmid, hsort⟩, ⟨hend, hp⟩, ⟨hrest, ha⟩, rfl⟩ |
      ⟨sort, mid, a, ⟨hmid, hsort⟩, hhead, ⟨hrest, ha⟩, rfl⟩)
    · rw [List.length_cons] at hmid
      refine ⟨by omega, Except.bind_eq_ok.2 ⟨_, hsort, Except.bind_eq_ok.2 ⟨_, hp, ?_⟩⟩⟩
      exact Except.bind_eq_ok.2 ⟨_, ha, rfl⟩
    · refine ⟨by omega, Except.bind_eq_ok.2 ⟨_, hsort, ?_⟩⟩
      dsimp only
      split
      · exact absurd rfl hhead
      · exact Except.bind_eq_ok.2 ⟨_, ha, rfl⟩

/-! ## Sentences -/

theorem stops_mark (mark : Punctuation) (h : Stops TokenKind.continuesSentence left) :
    Stops (fun k => k = .punctuation mark) left :=
  h.of_sentence (fun _ _ _ => rfl) rfl

theorem stops_condition {word : Keyword} (hword : word = .requires ∨ word = .ensures)
    (h : Stops TokenKind.continuesSentence left) :
    Stops (TokenKind.continuesCondition word) left := by
  refine h.of_sentence (fun word' hrequires hensures => ?_) rfl
  refine Bool.or_eq_false_iff.2 ⟨decide_eq_false fun heq => ?_, rfl⟩
  cases heq
  exact hword.elim hrequires hensures

theorem reads_sortSentence : Reads (fun ts => Takes (sortSentence ts))
    (fun ks s rest => IsSentence (.keyword .sort :: ks) s rest) TokenKind.continuesSentence where
  sound {ts s rest} h := by
    rcases takes_sortSentence_iff.1 h with ⟨sort, sp, mid, p, end_, a, hsort, hp, ha, rfl⟩ |
      ⟨sort, mid, a, hsort, -, ha, rfl⟩
    · exact .production (reads_sort.sound hsort) ((reads_alternative sort).sound hp)
        (reads_attributes.sound ha)
    · exact .sort (reads_sort.sound hsort) (reads_attributes.sound ha)
  complete {ks s left} h hleft ts hts := by
    cases h with
    | sort hsort ha =>
      obtain ⟨mid, hsort, hmid⟩ := reads_sort.complete hsort (stops_of_false _) hts
      have hdefined := ha.stops rfl (stops_mark .definedAs hleft)
      obtain ⟨rest, htake, hrest⟩ := reads_attributes.complete ha (stops_mark _ hleft) hmid
      refine ⟨rest, takes_sortSentence_iff.2 (.inr ⟨_, mid, _, hsort, ?_, htake, rfl⟩), hrest⟩
      rw [hmid]
      exact hdefined.head?_ne (decide_eq_true rfl)
    | production hsort hp ha =>
      obtain ⟨behind, hsort, hbehind⟩ := reads_sort.complete hsort (stops_of_false _) hts
      obtain ⟨sp, mid, rfl, hmid⟩ := kinds_eq_cons hbehind
      have hparen := ha.stops rfl (stops_mark .leftParen hleft)
      obtain ⟨end_, hp, hend⟩ := (reads_alternative _).complete hp hparen hmid
      obtain ⟨rest, ha, hrest⟩ := reads_attributes.complete ha (stops_mark _ hleft) hend
      exact ⟨rest, takes_sortSentence_iff.2 (.inl ⟨_, sp, mid, _, end_, _, hsort, hp, ha, rfl⟩),
        hrest⟩

theorem reads_rule : Reads (fun ts => Takes (rule ts))
    (fun ks r rest => IsSentence (.keyword .rule :: ks) (.rule r) rest)
    TokenKind.continuesSentence where
  sound {ts r rest} h := by
    obtain ⟨_, before, body, behind, requires, mid, ensures, end_, trailing, hlabel, hbody,
      hrequires, hensures, htrailing, rfl⟩ := takes_rule_iff.1 h
    obtain ⟨label, hwritten, rfl⟩ := reads_ruleLabel.sound hlabel
    exact .rule hwritten (reads_term.sound hbody) ((reads_condition .requires).sound hrequires)
      ((reads_condition .ensures).sound hensures) (reads_attributes.sound htrailing)
      (areRuleAttributes_iff.2 rfl)
  complete {ks r left} h hleft ts hts := by
    cases h with
    | rule hlabel hbody hrequires hensures htrailing ha =>
      have hend := htrailing.stops rfl (stops_condition (.inr rfl) hleft)
      have hmid := hensures.stops rfl (htrailing.stops rfl (stops_condition (.inl rfl) hleft))
      have hbehind := hrequires.stops rfl hmid.term
      have hbefore := hbody.startsTerm.head?_ne (k := .punctuation .leftBracket) rfl
      obtain ⟨before, hlabel, hts⟩ :=
        reads_ruleLabel.complete ⟨_, hlabel, rfl⟩ (stops_of_head?_ne hbefore) hts
      obtain ⟨behind, hbody, hts⟩ := reads_term.complete hbody hbehind hts
      obtain ⟨mid, hrequires, hts⟩ := (reads_condition .requires).complete hrequires hmid hts
      obtain ⟨end_, hensures, hts⟩ := (reads_condition .ensures).complete hensures hend hts
      obtain ⟨rest, htrailing, hrest⟩ :=
        reads_attributes.complete htrailing (stops_mark _ hleft) hts
      exact ⟨rest, takes_rule_iff.2 ⟨_, before, _, behind, _, mid, _, end_, _, hlabel, hbody,
        hrequires, hensures, htrailing, by rw [areRuleAttributes_iff.1 ha]⟩, hrest⟩

theorem reads_context : Reads (fun ts => Takes (context ts))
    (fun ks c rest => IsSentence (.keyword .context :: ks) (.context c) rest)
    TokenKind.continuesSentence where
  sound {ts c rest} h := by
    obtain ⟨body, behind, requires, end_, a, hbody, hrequires, ha, rfl⟩ := takes_context_iff.1 h
    exact .context (reads_term.sound hbody) ((reads_condition .requires).sound hrequires)
      (reads_attributes.sound ha)
  complete {ks c left} h hleft ts hts := by
    cases h with
    | context hbody hrequires ha =>
      have hend := ha.stops rfl (stops_condition (.inl rfl) hleft)
      obtain ⟨behind, hbody, hts⟩ :=
        reads_term.complete hbody (hrequires.stops rfl hend.term) hts
      obtain ⟨end_, hrequires, hts⟩ := (reads_condition .requires).complete hrequires hend hts
      obtain ⟨rest, ha, hrest⟩ := reads_attributes.complete ha (stops_mark _ hleft) hts
      exact ⟨rest, takes_context_iff.2 ⟨_, behind, _, end_, _, hbody, hrequires, ha, rfl⟩, hrest⟩

theorem reads_configuration : Reads (fun ts => Takes (configuration ts))
    (fun ks c rest => IsSentence (.keyword .configuration :: ks) (.configuration c) rest)
    TokenKind.continuesSentence where
  sound {ts c rest} h := by
    obtain ⟨body, end_, a, hbody, ha, rfl⟩ := takes_configuration_iff.1 h
    exact .configuration (reads_term.sound hbody) (reads_attributes.sound ha)
  complete {ks c left} h hleft ts hts := by
    cases h with
    | configuration hbody ha =>
      have hend := ha.stops rfl (stops_condition (.inl rfl) hleft)
      obtain ⟨end_, hbody, hts⟩ := reads_term.complete hbody hend.term hts
      obtain ⟨rest, ha, hrest⟩ := reads_attributes.complete ha (stops_mark _ hleft) hts
      exact ⟨rest, takes_configuration_iff.2 ⟨_, end_, _, hbody, ha, rfl⟩, hrest⟩

/-- The keyword of a sentence tells its kind, and the reader of that kind reads the rest. -/
theorem takes_sentence_iff {s : Sentence} : Takes (sentence ts) s rest ↔
    ∃ word sp more, ts = ⟨.keyword word, sp⟩ :: more ∧
      (word = .sort ∧ Takes (sortSentence more) s rest ∨
        (∃ r, word = .rule ∧ Takes (rule more) r rest ∧ s = .rule r) ∨
        (∃ c, word = .context ∧ Takes (context more) c rest ∧ s = .context c) ∨
        ∃ c, word = .configuration ∧ Takes (configuration more) c rest ∧ s = .configuration c) := by
  constructor
  · rintro ⟨_, heq⟩
    rw [sentence.eq_def] at heq
    split at heq
    · obtain ⟨⟨s, rest, hrest⟩, hs, heq⟩ := Except.bind_eq_ok.1 heq
      cases heq
      exact ⟨_, _, _, rfl, .inl ⟨rfl, _, hs⟩⟩
    · obtain ⟨⟨r, rest, hrest⟩, hr, heq⟩ := Except.bind_eq_ok.1 heq
      cases heq
      exact ⟨_, _, _, rfl, .inr (.inl ⟨r, rfl, ⟨_, hr⟩, rfl⟩)⟩
    · obtain ⟨⟨c, rest, hrest⟩, hc, heq⟩ := Except.bind_eq_ok.1 heq
      cases heq
      exact ⟨_, _, _, rfl, .inr (.inr (.inl ⟨c, rfl, ⟨_, hc⟩, rfl⟩))⟩
    · obtain ⟨⟨c, rest, hrest⟩, hc, heq⟩ := Except.bind_eq_ok.1 heq
      cases heq
      exact ⟨_, _, _, rfl, .inr (.inr (.inr ⟨c, rfl, ⟨_, hc⟩, rfl⟩))⟩
    · cases heq
  · rintro ⟨word, sp, more, rfl, ⟨rfl, ⟨hrest, hs⟩⟩ | ⟨r, rfl, ⟨hrest, hr⟩, rfl⟩ |
      ⟨c, rfl, ⟨hrest, hc⟩, rfl⟩ | ⟨c, rfl, ⟨hrest, hc⟩, rfl⟩⟩
    · exact ⟨Nat.lt_succ_of_lt hrest, Except.bind_eq_ok.2 ⟨_, hs, rfl⟩⟩
    · exact ⟨Nat.lt_succ_of_lt hrest, Except.bind_eq_ok.2 ⟨_, hr, rfl⟩⟩
    · exact ⟨Nat.lt_succ_of_lt hrest, Except.bind_eq_ok.2 ⟨_, hc, rfl⟩⟩
    · exact ⟨Nat.lt_succ_of_lt hrest, Except.bind_eq_ok.2 ⟨_, hc, rfl⟩⟩

theorem reads_sentence :
    Reads (fun ts => Takes (sentence ts)) IsSentence TokenKind.continuesSentence where
  sound {ts s rest} h := by
    obtain ⟨word, sp, more, rfl, ⟨rfl, hs⟩ | ⟨r, rfl, hr, rfl⟩ | ⟨c, rfl, hc, rfl⟩ |
      ⟨c, rfl, hc, rfl⟩⟩ := takes_sentence_iff.1 h
    · exact reads_sortSentence.sound hs
    · exact reads_rule.sound hr
    · exact reads_context.sound hc
    · exact reads_configuration.sound hc
  complete {ks s left} h hleft ts hts := by
    have hsentence := h
    cases h with
    | sort =>
      obtain ⟨sp, more, rfl, hmore⟩ := kinds_eq_cons hts
      obtain ⟨rest, hs, hrest⟩ := reads_sortSentence.complete hsentence hleft hmore
      exact ⟨rest, takes_sentence_iff.2 ⟨_, sp, more, rfl, .inl ⟨rfl, hs⟩⟩, hrest⟩
    | production =>
      obtain ⟨sp, more, rfl, hmore⟩ := kinds_eq_cons hts
      obtain ⟨rest, hs, hrest⟩ := reads_sortSentence.complete hsentence hleft hmore
      exact ⟨rest, takes_sentence_iff.2 ⟨_, sp, more, rfl, .inl ⟨rfl, hs⟩⟩, hrest⟩
    | rule =>
      obtain ⟨sp, more, rfl, hmore⟩ := kinds_eq_cons hts
      obtain ⟨rest, hr, hrest⟩ := reads_rule.complete hsentence hleft hmore
      exact ⟨rest, takes_sentence_iff.2 ⟨_, sp, more, rfl, .inr (.inl ⟨_, rfl, hr, rfl⟩)⟩, hrest⟩
    | context =>
      obtain ⟨sp, more, rfl, hmore⟩ := kinds_eq_cons hts
      obtain ⟨rest, hc, hrest⟩ := reads_context.complete hsentence hleft hmore
      exact ⟨rest, takes_sentence_iff.2 ⟨_, sp, more, rfl, .inr (.inr (.inl ⟨_, rfl, hc, rfl⟩))⟩,
        hrest⟩
    | configuration =>
      obtain ⟨sp, more, rfl, hmore⟩ := kinds_eq_cons hts
      obtain ⟨rest, hc, hrest⟩ := reads_configuration.complete hsentence hleft hmore
      exact ⟨rest, takes_sentence_iff.2 ⟨_, sp, more, rfl, .inr (.inr (.inr ⟨_, rfl, hc, rfl⟩))⟩,
        hrest⟩

end Parse

end RewriteSemantics
