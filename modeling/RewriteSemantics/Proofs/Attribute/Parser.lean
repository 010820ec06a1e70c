/-
# Attributes as they are read

The readers of attribute lists take exactly what the grammar of attributes writes. Groups of
integers are read before it is known what they are for: what is read is any groups with commas
between them, and positions and pairs are the groups of one and of two numbers that fit.
-/
import RewriteSemantics.Proofs.Grammar.Module
import RewriteSemantics.Proofs.Related
import RewriteSemantics.Proofs.Token.Reading

namespace RewriteSemantics.Parse

open Grammar
open Token (kinds kinds_eq_cons)

variable {α : Type} {ts rest : List Token} {ks left : List TokenKind}

/-! ## Items with commas between them -/

/-- A reader of items and a closing mark takes what is written as items before that mark. -/
theorem reads_separated {item : List Token → α → List Token → Prop}
    {items : List Token → List α → List Token → Prop} {close : Punctuation}
    {writes : List TokenKind → α → List TokenKind → Prop} {goesOn : TokenKind → Bool}
    (hitems : ∀ {ts as rest}, items ts as rest ↔ TakesSeparated item items close ts as rest)
    (hitem : Reads item writes goesOn) (hcomma : goesOn (.punctuation .comma) = false)
    (hclose : goesOn (.punctuation close) = false) :
    Reads items (fun ks as rest => AreSeparated writes ks as (.punctuation close :: rest))
      fun _ => false where
  sound {ts as rest} h := by
    induction as generalizing ts with
    | nil => rcases hitems.1 h with ⟨_, _, _, _, _, _, heq⟩ | ⟨_, _, _, heq⟩ <;> cases heq
    | cons a as ih =>
      rcases hitems.1 h with ⟨first, s, mid, more, hfirst, hmore, heq⟩ | ⟨first, s, hfirst, heq⟩
      · cases heq
        exact .cons (hitem.sound hfirst) (ih hmore)
      · cases heq
        exact .last (hitem.sound hfirst)
  complete {ks as left} h _ ts hts := by
    generalize hend : TokenKind.punctuation close :: left = end_ at h
    induction h generalizing ts with
    | last h =>
      subst hend
      obtain ⟨behind, htake, hbehind⟩ := hitem.complete h (stops_cons.2 hclose) hts
      obtain ⟨s, rest, rfl, hrest⟩ := kinds_eq_cons hbehind
      exact ⟨rest, hitems.2 (.inr ⟨_, s, htake, rfl⟩), hrest⟩
    | cons hfirst _ ih =>
      obtain ⟨behind, htake, hbehind⟩ := hitem.complete hfirst (stops_cons.2 hcomma) hts
      obtain ⟨s, mid, rfl, hmid⟩ := kinds_eq_cons hbehind
      obtain ⟨rest, hrest, hkinds⟩ := ih mid hmid hend
      exact ⟨rest, hitems.2 (.inl ⟨_, s, mid, _, htake, hrest, rfl⟩), hkinds⟩

/-! ## Groups of integers -/

/-- The tokens of some integers one behind the other. -/
def integerKinds (group : List Int) : List TokenKind :=
  group.map .int

/-- A group of integers is written as them, and may be empty. -/
def IsGroup (ks : List TokenKind) (group : List Int) (rest : List TokenKind) : Prop :=
  ks = integerKinds group ++ rest

/-- The reader of groups goes on with a token. -/
def continuesGroups : TokenKind → Bool
  | .int _ => true
  | .punctuation mark => mark = .comma
  | _ => false

theorem integers_spec (ts : List Token) :
    IsGroup (kinds ts) (integers ts).value (kinds (integers ts).rest) ∧
      ∀ value, (kinds (integers ts).rest).head? ≠ some (.int value) := by
  fun_induction integers ts with
  | case1 value s ts ih => exact ⟨congrArg (_ :: ·) ih.1, ih.2⟩
  | case2 ts hnone =>
    refine ⟨rfl, fun value hhead => ?_⟩
    obtain ⟨s, more, rfl⟩ := Token.head?_kinds_eq_some hhead
    exact hnone value s more rfl

theorem integers_eq {group : List Int} (hts : kinds ts = integerKinds group ++ left)
    (hleft : ∀ value, left.head? ≠ some (.int value)) :
    (integers ts).value = group ∧ kinds (integers ts).rest = left := by
  induction group generalizing ts with
  | nil =>
    rw [integers.eq_def]
    split
    · rename_i value s more
      rw [← show kinds _ = left from hts] at hleft
      exact absurd rfl (hleft value)
    · exact ⟨rfl, hts⟩
  | cons value group ih =>
    obtain ⟨s, more, rfl, hmore⟩ := kinds_eq_cons hts
    obtain ⟨hvalue, hrest⟩ := ih hmore
    exact ⟨congrArg (value :: ·) hvalue, hrest⟩

/-- The groups from a place on are the first of them, and those behind the next comma. -/
theorem integerGroups_cases (ts : List Token) :
    (∃ s more, (integers ts).rest = ⟨.punctuation .comma, s⟩ :: more ∧
        (integerGroups ts).value = (integers ts).value :: (integerGroups more).value ∧
        (integerGroups ts).rest = (integerGroups more).rest) ∨
      (kinds (integers ts).rest).head? ≠ some (.punctuation .comma) ∧
        (integerGroups ts).value = [(integers ts).value] ∧
        (integerGroups ts).rest = (integers ts).rest := by
  rw [integerGroups]
  rcases integers ts with ⟨group, rest, h⟩
  dsimp only
  split
  · exact .inl ⟨_, _, rfl, rfl, rfl⟩
  · rename_i hnone
    refine .inr ⟨fun hhead => ?_, rfl, rfl⟩
    obtain ⟨s, more, rfl⟩ := Token.head?_kinds_eq_some hhead
    exact hnone s more _ rfl HEq.rfl

theorem areSeparated_integerGroups (ts : List Token) :
    AreSeparated IsGroup (kinds ts) (integerGroups ts).value (kinds (integerGroups ts).rest) := by
  obtain ⟨hgroup, -⟩ := integers_spec ts
  rcases integerGroups_cases ts with ⟨s, more, hcomma, hvalue, hrest⟩ | ⟨-, hvalue, hrest⟩
  · have hmore : more.length < ts.length := by
      have hle := (integers ts).notLonger
      rwa [hcomma] at hle
    rw [hcomma] at hgroup
    rw [hvalue, hrest]
    exact .cons hgroup (areSeparated_integerGroups more)
  · rw [hvalue, hrest]
    exact .last hgroup
termination_by ts.length

theorem integerGroups_eq {groups : List (List Int)} (h : AreSeparated IsGroup ks groups left)
    (hleft : Stops continuesGroups left) {ts : List Token} (hts : kinds ts = ks) :
    (integerGroups ts).value = groups ∧ kinds (integerGroups ts).rest = left := by
  induction h generalizing ts with
  | last h =>
    obtain ⟨hvalue, hkinds⟩ := integers_eq (hts.trans h) fun value => hleft.head?_ne rfl
    rcases integerGroups_cases ts with ⟨s, more, hcomma, -, -⟩ | ⟨-, hgroups, hrest⟩
    · rw [hcomma] at hkinds
      exact absurd (congrArg List.head? hkinds.symm) (hleft.head?_ne rfl)
    · rw [hgroups, hrest, hvalue]
      exact ⟨rfl, hkinds⟩
  | cons hfirst _ ih =>
    obtain ⟨hvalue, hkinds⟩ := integers_eq (hts.trans hfirst) fun value => nofun
    rcases integerGroups_cases ts with ⟨s, more, hcomma, hgroups, hrest⟩ | ⟨hhead, -, -⟩
    · rw [hcomma, Token.kinds_cons, List.cons.injEq] at hkinds
      obtain ⟨hothers, hkinds⟩ := ih hleft hkinds.2
      rw [hgroups, hrest, hvalue, hothers]
      exact ⟨rfl, hkinds⟩
    · exact absurd (congrArg List.head? hkinds) hhead

/-! ## Positions and relations -/

theorem position?_eq_some {n : Int} {m : Nat} :
    position? n = some m ↔ n = m ∧ m < 4294967296 := by
  rw [position?]
  constructor
  · intro h
    split at h
    · cases h
      omega
    · cases h
  · rintro ⟨rfl, hm⟩
    rw [if_pos (by omega), Int.toNat_natCast]

theorem single?_eq_some {group : List Int} {m : Nat} :
    single? group = some m ↔ group = [(m : Int)] ∧ m < 4294967296 := by
  match group with
  | [] => simp [single?]
  | [n] => simp [single?, position?_eq_some]
  | _ :: _ :: _ => simp [single?]

theorem pair?_eq_some {group : List Int} {pair : Nat × Nat} :
    pair? group = some pair ↔ group = [(pair.1 : Int), (pair.2 : Int)] ∧ pair.1 < 4294967296 ∧
      pair.2 < 4294967296 := by
  match group with
  | [] => simp [pair?]
  | [_] => simp [pair?]
  | [a, b] =>
    simp only [pair?, Option.bind_eq_bind, Option.bind_eq_some_iff, position?_eq_some]
    constructor
    · rintro ⟨_, ⟨rfl, ha⟩, _, ⟨rfl, hb⟩, heq⟩
      cases heq
      exact ⟨rfl, ha, hb⟩
    · rintro ⟨heq, ha, hb⟩
      cases heq
      exact ⟨_, ⟨rfl, ha⟩, _, ⟨rfl, hb⟩, rfl⟩
  | _ :: _ :: _ :: _ => simp [pair?]

/-- Phrases that are other phrases with a meaning are those phrases with their meanings. -/
theorem areSeparated_iff {β : Type} {Is : List TokenKind → α → List TokenKind → Prop}
    {Is' : List TokenKind → β → List TokenKind → Prop} {means : α → β → Prop}
    (hitem : ∀ ks b rest, Is' ks b rest ↔ ∃ a, Is ks a rest ∧ means a b) {bs : List β} :
    AreSeparated Is' ks bs left ↔ ∃ as, AreSeparated Is ks as left ∧ List.Forall₂ means as bs := by
  constructor
  · intro h
    induction h with
    | last h =>
      obtain ⟨a, ha, hmeans⟩ := (hitem ..).1 h
      exact ⟨[a], .last ha, .cons hmeans .nil⟩
    | cons hfirst _ ih =>
      obtain ⟨a, ha, hmeans⟩ := (hitem ..).1 hfirst
      obtain ⟨as, has, hothers⟩ := ih
      exact ⟨a :: as, .cons ha has, .cons hmeans hothers⟩
  · rintro ⟨as, h, hbs⟩
    induction h generalizing bs with
    | last h =>
      cases hbs with
      | cons hmeans hbs =>
        cases hbs
        exact .last ((hitem ..).2 ⟨_, h, hmeans⟩)
    | cons hfirst _ ih =>
      cases hbs with
      | cons hmeans hbs => exact .cons ((hitem ..).2 ⟨_, hfirst, hmeans⟩) (ih hbs)

theorem isPosition_iff (ks : List TokenKind) (n : Nat) (rest : List TokenKind) :
    IsPosition ks n rest ↔ ∃ group, IsGroup ks group rest ∧ single? group = some n := by
  constructor
  · rintro ⟨_, hn⟩
    exact ⟨[(n : Int)], rfl, single?_eq_some.2 ⟨rfl, hn⟩⟩
  · rintro ⟨group, hgroup, hn⟩
    obtain ⟨rfl, hlt⟩ := single?_eq_some.1 hn
    rw [hgroup]
    exact .number rest hlt

theorem isPair_iff (ks : List TokenKind) (pair : Nat × Nat) (rest : List TokenKind) :
    IsPair ks pair rest ↔ ∃ group, IsGroup ks group rest ∧ pair? group = some pair := by
  constructor
  · rintro ⟨_, ha, hb⟩
    exact ⟨[_, _], rfl, pair?_eq_some.2 ⟨rfl, ha, hb⟩⟩
  · rintro ⟨group, hgroup, hpair⟩
    obtain ⟨rfl, ha, hb⟩ := pair?_eq_some.1 hpair
    rw [hgroup]
    exact .numbers rest ha hb

theorem groupsValue?_positions {groups : List (List Int)} {values : List Nat}
    (h : List.Forall₂ (fun group n => single? group = some n) groups values) :
    groupsValue? groups = some (.positions values) := by
  have hall : groups.all (·.length == 1) = true := by
    rw [List.all_eq_true]
    intro group hgroup
    obtain ⟨n, -, hn⟩ := h.exists_of_mem hgroup
    rw [(single?_eq_some.1 hn).1]
    rfl
  rw [groupsValue?, if_pos hall, Option.mapM_eq_some.2 h]
  rfl

theorem groupsValue?_relation {groups : List (List Int)} {pairs : List (Nat × Nat)}
    (hne : groups ≠ [])
    (h : List.Forall₂ (fun group pair => pair? group = some pair) groups pairs) :
    groupsValue? groups = some (.relation pairs) := by
  have hall : ¬groups.all (·.length == 1) = true := by
    obtain ⟨group, hgroup⟩ := List.exists_mem_of_ne_nil groups hne
    obtain ⟨pair, -, hpair⟩ := h.exists_of_mem hgroup
    rw [List.all_eq_true]
    intro hall
    have := hall group hgroup
    rw [(pair?_eq_some.1 hpair).1] at this
    cases this
  rw [groupsValue?, if_neg hall, Option.mapM_eq_some.2 h]
  rfl

/-- Groups of integers stand for positions if they are single numbers, and for a relation if they
are pairs of numbers. -/
theorem forall₂_of_groupsValue? {groups : List (List Int)} {value : AttributeValue}
    (h : groupsValue? groups = some value) :
    (∃ values, List.Forall₂ (fun group n => single? group = some n) groups values ∧
        value = .positions values) ∨
      ∃ pairs, List.Forall₂ (fun group pair => pair? group = some pair) groups pairs ∧
        value = .relation pairs := by
  rw [groupsValue?] at h
  split at h
  · obtain ⟨values, hvalues, rfl⟩ := Option.map_eq_some_iff.1 h
    exact .inl ⟨values, Option.mapM_eq_some.1 hvalues, rfl⟩
  · obtain ⟨pairs, hpairs, rfl⟩ := Option.map_eq_some_iff.1 h
    exact .inr ⟨pairs, Option.mapM_eq_some.1 hpairs, rfl⟩

/-! ## Values -/

variable {key : String} {value : AttributeValue}

theorem isValue_namedValue (name : String) (rest : List TokenKind) :
    IsValue (.ident name :: rest) (namedValue name) rest := by
  rw [namedValue]
  split
  · rename_i htrue
    rw [htrue]
    exact .true rest
  · split
    · rename_i hfalse
      rw [hfalse]
      exact .false rest
    · rename_i htrue hfalse
      exact .name rest htrue hfalse

theorem isValue_of_mayTake (h : MayTake (attributeValue key ts) value rest) :
    IsValue (kinds ts) value (kinds rest) := by
  obtain ⟨_, heq⟩ := h
  rw [attributeValue.eq_def] at heq
  split at heq
  · cases heq
    exact .nothing _
  · cases heq
    exact .text ..
  · cases heq
    exact isValue_namedValue ..
  · dsimp only at heq
    split at heq
    · rename_i hvalue
      cases heq
      rcases forall₂_of_groupsValue? hvalue with ⟨values, hvalues, rfl⟩ | ⟨pairs, hpairs, rfl⟩
      · exact .positions
          ((areSeparated_iff isPosition_iff).2 ⟨_, areSeparated_integerGroups _, hvalues⟩)
      · exact .relation ((areSeparated_iff isPair_iff).2 ⟨_, areSeparated_integerGroups _, hpairs⟩)
    · cases heq
  · cases heq

/-- The value that groups of integers stand for is read, if they start with an integer. -/
theorem exists_mayTake_groups {groups : List (List Int)} {n : Int} {end_ : List TokenKind}
    (h : AreSeparated IsGroup ks groups left) (hvalue : groupsValue? groups = some value)
    (hks : ks = .int n :: end_) (hleft : Stops continuesGroups left) (hts : kinds ts = ks) :
    ∃ rest, MayTake (attributeValue key ts) value rest ∧ kinds rest = left := by
  obtain ⟨hgroups, hrest⟩ := integerGroups_eq h hleft hts
  obtain ⟨s, more, rfl, -⟩ := kinds_eq_cons (hts.trans hks)
  refine ⟨_, ⟨(integerGroups _).notLonger, ?_⟩, hrest⟩
  rw [attributeValue, hgroups, hvalue]

/-- What is written as a value before the closing parenthesis is read as it. -/
theorem exists_mayTake_attributeValue (key : String)
    (h : IsValue ks value (.punctuation .rightParen :: left)) (hts : kinds ts = ks) :
    ∃ rest, MayTake (attributeValue key ts) value rest ∧
      kinds rest = .punctuation .rightParen :: left := by
  cases h with
  | nothing =>
    obtain ⟨s, rest, rfl, hrest⟩ := kinds_eq_cons hts
    exact ⟨_, ⟨Nat.le_refl _, rfl⟩, hts⟩
  | text value =>
    obtain ⟨s, rest, rfl, hrest⟩ := kinds_eq_cons hts
    exact ⟨rest, ⟨Nat.le_succ _, rfl⟩, hrest⟩
  | true =>
    obtain ⟨s, rest, rfl, hrest⟩ := kinds_eq_cons hts
    exact ⟨rest, ⟨Nat.le_succ _, rfl⟩, hrest⟩
  | false =>
    obtain ⟨s, rest, rfl, hrest⟩ := kinds_eq_cons hts
    exact ⟨rest, ⟨Nat.le_succ _, rfl⟩, hrest⟩
  | name _ htrue hfalse =>
    obtain ⟨s, rest, rfl, hrest⟩ := kinds_eq_cons hts
    refine ⟨rest, ⟨Nat.le_succ _, ?_⟩, hrest⟩
    rw [attributeValue, namedValue, if_neg htrue, if_neg hfalse]
    rfl
  | positions h =>
    obtain ⟨groups, hgroups, hvalues⟩ := (areSeparated_iff isPosition_iff).1 h
    obtain ⟨-, _, _, hfirst⟩ := h.exists_first
    cases hfirst
    exact exists_mayTake_groups hgroups (groupsValue?_positions hvalues) rfl (stops_cons.2 rfl) hts
  | relation h =>
    obtain ⟨groups, hgroups, hpairs⟩ := (areSeparated_iff isPair_iff).1 h
    obtain ⟨-, _, _, hfirst⟩ := h.exists_first
    obtain ⟨hne, -⟩ := hgroups.exists_first
    cases hfirst
    exact exists_mayTake_groups hgroups (groupsValue?_relation hne hpairs) rfl (stops_cons.2 rfl)
      hts

/-! ## Lists of attributes -/

theorem takes_keyed_iff : Takes (keyed ts) (key, value) rest ↔
    (∃ s s' s'' more, ts = ⟨.ident key, s⟩ :: ⟨.punctuation .leftParen, s'⟩ :: more ∧
        MayTake (attributeValue key more) value (⟨.punctuation .rightParen, s''⟩ :: rest)) ∨
      (∃ s, ts = ⟨.ident key, s⟩ :: rest) ∧ (kinds rest).head? ≠ some (.punctuation .leftParen) ∧
        value = .marker := by
  rw [keyed]
  constructor
  · rintro ⟨_, heq⟩
    obtain ⟨⟨name, mid, hmid⟩, hident, heq⟩ := Except.bind_eq_ok.1 heq
    obtain ⟨s, rfl⟩ := takes_ident_iff.1 ⟨_, hident⟩
    dsimp only at heq
    split at heq
    · obtain ⟨⟨_, inner, hinner⟩, hvalue, heq⟩ := Except.bind_eq_ok.1 heq
      obtain ⟨⟨_, rest, hrest⟩, hclose, heq⟩ := Except.bind_eq_ok.1 heq
      cases heq
      obtain ⟨s'', rfl⟩ := takes_expect_iff.1 ⟨_, hclose⟩
      exact .inl ⟨s, _, s'', _, rfl, _, hvalue⟩
    · rename_i hnone
      cases heq
      refine .inr ⟨⟨s, rfl⟩, fun hhead => ?_, rfl⟩
      obtain ⟨s, more, rfl⟩ := Token.head?_kinds_eq_some hhead
      exact hnone s more _ rfl HEq.rfl
  · rintro (⟨s, s', s'', more, rfl, hinner, hvalue⟩ | ⟨⟨s, rfl⟩, hhead, rfl⟩)
    · obtain ⟨_, hident⟩ := takes_ident_iff.2 ⟨s, rfl⟩
      obtain ⟨_, hclose⟩ := takes_expect_iff.2 ⟨s'', rfl⟩
      refine ⟨Nat.lt_succ_of_lt (Nat.lt_succ_of_lt hinner), Except.bind_eq_ok.2 ⟨_, hident, ?_⟩⟩
      exact Except.bind_eq_ok.2 ⟨_, hvalue, Except.bind_eq_ok.2 ⟨_, hclose, rfl⟩⟩
    · obtain ⟨_, hident⟩ := takes_ident_iff.2 ⟨s, rfl⟩
      refine ⟨Nat.lt_succ_self _, Except.bind_eq_ok.2 ⟨_, hident, ?_⟩⟩
      dsimp only
      split
      · exact absurd rfl hhead
      · rfl

theorem reads_keyed : Reads (fun ts => Takes (keyed ts)) IsAttribute
    (fun k => k = .punctuation .leftParen) where
  sound {ts binding rest} h := by
    obtain ⟨key, value⟩ := binding
    rcases takes_keyed_iff.1 h with ⟨_, _, _, more, rfl, hvalue⟩ | ⟨⟨_, rfl⟩, -, rfl⟩
    · exact .valued key (isValue_of_mayTake hvalue)
    · exact .bare key _
  complete {ks binding left} h hleft ts hts := by
    cases h with
    | bare key =>
      obtain ⟨s, rest, rfl, hrest⟩ := kinds_eq_cons hts
      refine ⟨rest, takes_keyed_iff.2 (.inr ⟨⟨s, rfl⟩, ?_, rfl⟩), hrest⟩
      rw [hrest]
      exact hleft.head?_ne (decide_eq_true rfl)
    | valued key h =>
      obtain ⟨s, behind, rfl, hbehind⟩ := kinds_eq_cons hts
      obtain ⟨s', more, rfl, hmore⟩ := kinds_eq_cons hbehind
      obtain ⟨mid, hvalue, hmid⟩ := exists_mayTake_attributeValue key h hmore
      obtain ⟨s'', rest, rfl, hrest⟩ := kinds_eq_cons hmid
      exact ⟨rest, takes_keyed_iff.2 (.inl ⟨s, s', s'', more, rfl, hvalue⟩), hrest⟩

theorem takes_someAttributes_iff {bindings : List (String × AttributeValue)} :
    Takes (someAttributes ts) bindings rest ↔ TakesSeparated (fun ts => Takes (keyed ts))
      (fun ts => Takes (someAttributes ts)) .rightBracket ts bindings rest := by
  rw [someAttributes]
  exact takes_separated_iff keyed someAttributes nofun

theorem mayTake_attributes_iff {a : Attributes} : MayTake (attributes ts) a rest ↔
    (∃ s more bindings, ts = ⟨.punctuation .leftBracket, s⟩ :: more ∧
        Takes (someAttributes more) bindings rest ∧ a = .ofList bindings) ∨
      (kinds ts).head? ≠ some (.punctuation .leftBracket) ∧ a = ∅ ∧ rest = ts := by
  rw [attributes.eq_def]
  constructor
  · rintro ⟨_, heq⟩
    split at heq
    · obtain ⟨⟨bindings, rest, hrest⟩, hlist, heq⟩ := Except.bind_eq_ok.1 heq
      cases heq
      exact .inl ⟨_, _, bindings, rfl, ⟨_, hlist⟩, rfl⟩
    · rename_i hnone
      cases heq
      refine .inr ⟨fun hhead => ?_, rfl, rfl⟩
      obtain ⟨s, more, rfl⟩ := Token.head?_kinds_eq_some hhead
      exact hnone s more rfl
  · rintro (⟨s, more, bindings, rfl, ⟨hrest, hlist⟩, rfl⟩ | ⟨hhead, rfl, rfl⟩)
    · exact ⟨Nat.le_succ_of_le (Nat.le_of_lt hrest), Except.bind_eq_ok.2 ⟨_, hlist, rfl⟩⟩
    · refine ⟨Nat.le_refl _, ?_⟩
      split
      · exact absurd rfl hhead
      · rfl

theorem reads_attributes : Reads (fun ts => MayTake (attributes ts)) AreAttributes
    (fun k => k = .punctuation .leftBracket) where
  sound {ts a rest} h := by
    rcases mayTake_attributes_iff.1 h with ⟨s, more, bindings, rfl, hlist, rfl⟩ | ⟨-, rfl, rfl⟩
    · refine .list ((reads_separated takes_someAttributes_iff reads_keyed rfl rfl).sound hlist) ?_
      exact binds_ofList bindings
    · exact .absent _
  complete {ks a left} h hleft ts hts := by
    cases h with
    | absent =>
      refine ⟨ts, mayTake_attributes_iff.2 (.inr ⟨?_, rfl, rfl⟩), hts⟩
      rw [hts]
      exact hleft.head?_ne (decide_eq_true rfl)
    | list h ha =>
      obtain ⟨s, more, rfl, hmore⟩ := kinds_eq_cons hts
      obtain ⟨rest, hlist, hrest⟩ :=
        (reads_separated takes_someAttributes_iff reads_keyed rfl rfl).complete h
          (stops_of_false _) hmore
      exact ⟨rest, mayTake_attributes_iff.2 (.inl ⟨s, more, _, rfl, hlist, ha.eq_ofList⟩), hrest⟩

end RewriteSemantics.Parse
