/-
# What the readers of terms take

One statement for each reader of the grammar of terms: what it takes in terms of what the readers it
calls take. A reader that goes on for as long as it can also says that the next token is not one it
could have gone on with.
-/
import RewriteSemantics.Proofs.Grammar.Term
import RewriteSemantics.Proofs.Token.Reading

namespace RewriteSemantics.Parse

open Grammar (ellipsis)
open Token (kinds head?_kinds_eq_some)

variable {ts behind rest : List Token} {t body : Term} {items args : List Term}

/-! ## Rewrites and sequences -/

theorem takes_term_iff : Takes (term ts) t rest ↔
    (∃ lhs s mid rhs, Takes (sequence ts) lhs (⟨.punctuation .arrow, s⟩ :: mid) ∧
        Takes (sequence mid) rhs rest ∧ t = .rewrite lhs rhs) ∨
      Takes (sequence ts) t rest ∧ (kinds rest).head? ≠ some (.punctuation .arrow) := by
  rw [term]
  constructor
  · rintro ⟨_, heq⟩
    obtain ⟨⟨lhs, mid, hmid⟩, hlhs, heq⟩ := Except.bind_eq_ok.1 heq
    dsimp only at heq
    split at heq
    · obtain ⟨⟨rhs, rest, hrest⟩, hrhs, heq⟩ := Except.bind_eq_ok.1 heq
      cases heq
      exact .inl ⟨lhs, _, _, rhs, ⟨_, hlhs⟩, ⟨_, hrhs⟩, rfl⟩
    · rename_i hnone
      cases heq
      refine .inr ⟨⟨_, hlhs⟩, fun hhead => ?_⟩
      obtain ⟨s, more, rfl⟩ := head?_kinds_eq_some hhead
      exact hnone s more _ rfl HEq.rfl
  · rintro (⟨lhs, s, mid, rhs, ⟨hmid, hlhs⟩, ⟨hrest, hrhs⟩, rfl⟩ | ⟨⟨hrest, hlhs⟩, hhead⟩)
    · refine ⟨Nat.lt_trans hrest (Nat.lt_of_succ_lt hmid), Except.bind_eq_ok.2 ⟨_, hlhs, ?_⟩⟩
      exact Except.bind_eq_ok.2 ⟨_, hrhs, rfl⟩
    · refine ⟨hrest, Except.bind_eq_ok.2 ⟨_, hlhs, ?_⟩⟩
      dsimp only
      split
      · exact absurd rfl hhead
      · rfl

theorem takes_sequence_iff :
    Takes (sequence ts) t rest ↔
      ∃ items, Takes (sequenceItems ts) items rest ∧ t = sequenceOf items := by
  rw [sequence]
  constructor
  · rintro ⟨_, heq⟩
    obtain ⟨⟨items, rest, hrest⟩, hitems, heq⟩ := Except.bind_eq_ok.1 heq
    cases heq
    exact ⟨items, ⟨_, hitems⟩, rfl⟩
  · rintro ⟨items, ⟨hrest, hitems⟩, rfl⟩
    exact ⟨hrest, Except.bind_eq_ok.2 ⟨_, hitems, rfl⟩⟩

theorem takes_sequenceItems_iff : Takes (sequenceItems ts) items rest ↔
    (∃ first s mid others,
        Takes (juxtaposition ts) first (⟨.punctuation .followedBy, s⟩ :: mid) ∧
        Takes (sequenceItems mid) others rest ∧ items = first :: others) ∨
      ∃ first, Takes (juxtaposition ts) first rest ∧
        (kinds rest).head? ≠ some (.punctuation .followedBy) ∧ items = [first] := by
  rw [sequenceItems]
  constructor
  · rintro ⟨_, heq⟩
    obtain ⟨⟨first, mid, hmid⟩, hfirst, heq⟩ := Except.bind_eq_ok.1 heq
    dsimp only at heq
    split at heq
    · obtain ⟨⟨others, rest, hrest⟩, hothers, heq⟩ := Except.bind_eq_ok.1 heq
      cases heq
      exact .inl ⟨first, _, _, others, ⟨_, hfirst⟩, ⟨_, hothers⟩, rfl⟩
    · rename_i hnone
      cases heq
      refine .inr ⟨first, ⟨_, hfirst⟩, fun hhead => ?_, rfl⟩
      obtain ⟨s, more, rfl⟩ := head?_kinds_eq_some hhead
      exact hnone s more _ rfl HEq.rfl
  · rintro (⟨first, s, mid, others, ⟨hmid, hfirst⟩, ⟨hrest, hothers⟩, rfl⟩ |
      ⟨first, ⟨hrest, hfirst⟩, hhead, rfl⟩)
    · refine ⟨Nat.lt_trans hrest (Nat.lt_of_succ_lt hmid), Except.bind_eq_ok.2 ⟨_, hfirst, ?_⟩⟩
      exact Except.bind_eq_ok.2 ⟨_, hothers, rfl⟩
    · refine ⟨hrest, Except.bind_eq_ok.2 ⟨_, hfirst, ?_⟩⟩
      dsimp only
      split
      · exact absurd rfl hhead
      · rfl

/-! ## Rows and casts -/

theorem takes_juxtaposition_iff :
    Takes (juxtaposition ts) t rest ↔
      ∃ items, Takes (juxtaposed ts) items rest ∧ t = bagOf items := by
  rw [juxtaposition]
  constructor
  · rintro ⟨_, heq⟩
    obtain ⟨⟨items, rest, hrest⟩, hitems, heq⟩ := Except.bind_eq_ok.1 heq
    cases heq
    exact ⟨items, ⟨_, hitems⟩, rfl⟩
  · rintro ⟨items, ⟨hrest, hitems⟩, rfl⟩
    exact ⟨hrest, Except.bind_eq_ok.2 ⟨_, hitems, rfl⟩⟩

theorem takes_juxtaposed_iff : Takes (juxtaposed ts) items rest ↔
    (∃ first mid others, Takes (cast ts) first mid ∧ startsTerm mid = true ∧
        Takes (juxtaposed mid) others rest ∧ items = first :: others) ∨
      ∃ first, Takes (cast ts) first rest ∧ startsTerm rest = false ∧ items = [first] := by
  rw [juxtaposed]
  constructor
  · rintro ⟨_, heq⟩
    obtain ⟨⟨first, mid, hmid⟩, hfirst, heq⟩ := Except.bind_eq_ok.1 heq
    dsimp only at heq
    split at heq
    · rename_i hstart
      obtain ⟨⟨others, rest, hrest⟩, hothers, heq⟩ := Except.bind_eq_ok.1 heq
      cases heq
      exact .inl ⟨first, mid, others, ⟨_, hfirst⟩, hstart, ⟨_, hothers⟩, rfl⟩
    · rename_i hstart
      cases heq
      exact .inr ⟨first, ⟨_, hfirst⟩, Bool.not_eq_true _ ▸ hstart, rfl⟩
  · rintro (⟨first, mid, others, ⟨hmid, hfirst⟩, hstart, ⟨hrest, hothers⟩, rfl⟩ |
      ⟨first, ⟨hrest, hfirst⟩, hstart, rfl⟩)
    · refine ⟨Nat.lt_trans hrest hmid, Except.bind_eq_ok.2 ⟨_, hfirst, ?_⟩⟩
      dsimp only
      rw [if_pos hstart]
      exact Except.bind_eq_ok.2 ⟨_, hothers, rfl⟩
    · refine ⟨hrest, Except.bind_eq_ok.2 ⟨_, hfirst, ?_⟩⟩
      dsimp only
      rw [if_neg (Bool.eq_false_iff.1 hstart)]

theorem takes_cast_iff : Takes (cast ts) t rest ↔
    ∃ u mid sorts, Takes (primary ts) u mid ∧ MayTake (annotations mid) sorts rest ∧
      t = castTo u sorts := by
  rw [cast]
  constructor
  · rintro ⟨_, heq⟩
    obtain ⟨⟨u, mid, hmid⟩, hprimary, heq⟩ := Except.bind_eq_ok.1 heq
    obtain ⟨⟨sorts, rest, hrest⟩, hsorts, heq⟩ := Except.bind_eq_ok.1 heq
    cases heq
    exact ⟨u, mid, sorts, ⟨_, hprimary⟩, ⟨_, hsorts⟩, rfl⟩
  · rintro ⟨u, mid, sorts, ⟨hmid, hprimary⟩, ⟨hrest, hsorts⟩, rfl⟩
    refine ⟨Nat.lt_of_le_of_lt hrest hmid, Except.bind_eq_ok.2 ⟨_, hprimary, ?_⟩⟩
    exact Except.bind_eq_ok.2 ⟨_, hsorts, rfl⟩

theorem mayTake_annotations_iff {sorts : List SortName} : MayTake (annotations ts) sorts rest ↔
    (∃ s s' more sort others,
        ts = ⟨.punctuation .colon, s⟩ :: ⟨.ident sort, s'⟩ :: more ∧ isSortName sort = true ∧
        MayTake (annotations more) others rest ∧ sorts = ⟨sort⟩ :: others) ∨
      (kinds ts).head? ≠ some (.punctuation .colon) ∧ sorts = [] ∧ rest = ts := by
  rw [annotations.eq_def]
  constructor
  · rintro ⟨_, heq⟩
    split at heq
    · obtain ⟨⟨sort, mid, hmid⟩, hsort, heq⟩ := Except.bind_eq_ok.1 heq
      obtain ⟨⟨others, rest, hrest⟩, hothers, heq⟩ := Except.bind_eq_ok.1 heq
      cases heq
      obtain ⟨hname, s', rfl⟩ := takes_sort_iff.1 ⟨_, hsort⟩
      exact .inl ⟨_, s', mid, sort.name, others, rfl, hname, ⟨_, hothers⟩, rfl⟩
    · rename_i hnone
      cases heq
      refine .inr ⟨fun hhead => ?_, rfl, rfl⟩
      obtain ⟨s, more, rfl⟩ := head?_kinds_eq_some hhead
      exact hnone s more rfl
  · rintro (⟨s, s', more, sort, others, rfl, hname, ⟨hrest, hothers⟩, rfl⟩ | ⟨hhead, rfl, rfl⟩)
    · obtain ⟨_, hsort⟩ := takes_sort_iff.2 ⟨hname, s', rfl⟩
      refine ⟨Nat.le_succ_of_le (Nat.le_succ_of_le hrest), Except.bind_eq_ok.2 ⟨_, hsort, ?_⟩⟩
      exact Except.bind_eq_ok.2 ⟨_, hothers, rfl⟩
    · refine ⟨Nat.le_refl _, ?_⟩
      split
      · exact absurd rfl hhead
      · rfl

/-! ## Single terms -/

theorem takes_primary_group_iff {k : Token} (hk : headOf k.kind behind = .group) :
    Takes (primary (k :: behind)) t rest ↔
      ∃ s, Takes (term behind) t (⟨.punctuation .rightParen, s⟩ :: rest) := by
  rw [primary, hk]
  constructor
  · rintro ⟨_, heq⟩
    obtain ⟨⟨inner, mid, hmid⟩, hinner, heq⟩ := Except.bind_eq_ok.1 heq
    obtain ⟨⟨_, rest, hrest⟩, hclose, heq⟩ := Except.bind_eq_ok.1 heq
    cases heq
    obtain ⟨s, rfl⟩ := takes_expect_iff.1 ⟨_, hclose⟩
    exact ⟨s, _, hinner⟩
  · rintro ⟨s, hmid, hinner⟩
    obtain ⟨_, hclose⟩ := takes_expect_iff.2 ⟨s, rfl⟩
    refine ⟨Nat.lt_succ_of_lt (Nat.lt_of_succ_lt hmid), Except.bind_eq_ok.2 ⟨_, hinner, ?_⟩⟩
    exact Except.bind_eq_ok.2 ⟨_, hclose, rfl⟩

theorem takes_primary_leaf_iff {k : Token} {leaf : Term} (hk : headOf k.kind behind = .leaf leaf) :
    Takes (primary (k :: behind)) t rest ↔ t = leaf ∧ rest = behind := by
  rw [primary, hk]
  constructor
  · rintro ⟨_, heq⟩
    cases heq
    exact ⟨rfl, rfl⟩
  · rintro ⟨rfl, rfl⟩
    exact ⟨Nat.lt_succ_self _, rfl⟩

theorem takes_primary_label_iff {k : Token} {label : String}
    (hk : headOf k.kind behind = .label label) : Takes (primary (k :: behind)) t rest ↔
      (∃ s more args, behind = ⟨.punctuation .leftParen, s⟩ :: more ∧
          Takes (arguments more) args rest ∧ t = .app label args) ∨
        (kinds behind).head? ≠ some (.punctuation .leftParen) ∧ t = .app label [] ∧
          rest = behind := by
  rw [primary, hk]
  dsimp only
  constructor
  · rintro ⟨_, heq⟩
    split at heq
    · obtain ⟨⟨args, rest, hrest⟩, hargs, heq⟩ := Except.bind_eq_ok.1 heq
      cases heq
      exact .inl ⟨_, _, args, rfl, ⟨_, hargs⟩, rfl⟩
    · rename_i hnone
      cases heq
      refine .inr ⟨fun hhead => ?_, rfl, rfl⟩
      obtain ⟨s, more, rfl⟩ := head?_kinds_eq_some hhead
      exact hnone s more rfl
  · rintro (⟨s, more, args, rfl, ⟨hrest, hargs⟩, rfl⟩ | ⟨hhead, rfl, rfl⟩)
    · exact ⟨Nat.lt_succ_of_lt (Nat.lt_succ_of_lt hrest), Except.bind_eq_ok.2 ⟨_, hargs, rfl⟩⟩
    · refine ⟨Nat.lt_succ_self _, ?_⟩
      split
      · exact absurd rfl hhead
      · rfl

theorem not_takes_primary_nothing {k : Token} (hk : headOf k.kind behind = .nothing) :
    ¬Takes (primary (k :: behind)) t rest := by
  rw [primary, hk]
  rintro ⟨_, heq⟩
  cases heq

/-! ## Cells -/

/-- The end of a cell is its closing tag, behind an ellipsis if the cell is open to the right. -/
theorem kinds_of_takes_closeCell {name : String} {members : List (String × String)}
    {leftOpen : Bool} (h : Takes (closeCell name members leftOpen body ts) t rest) :
    ∃ rightOpen, kinds ts = ellipsis rightOpen ++ .cellClose name :: kinds rest ∧
      t = .cell ⟨name, cellAttributes members, leftOpen, rightOpen⟩ body := by
  obtain ⟨_, heq⟩ := h
  rw [closeCell] at heq
  rcases skip_cases (.punctuation .ellipsis) ts with ⟨s, mid, _, rfl, hskip⟩ | ⟨-, hskip⟩
  · rw [hskip] at heq
    dsimp only at heq
    split at heq
    · split at heq
      · rename_i hname
        cases heq
        exact ⟨true, by rw [hname]; rfl, rfl⟩
      · cases heq
    · cases heq
  · rw [hskip] at heq
    dsimp only at heq
    split at heq
    · split at heq
      · rename_i hname
        cases heq
        exact ⟨false, by rw [hname]; rfl, rfl⟩
      · cases heq
    · cases heq

theorem exists_takes_closeCell {name : String} {rightOpen : Bool} {left : List TokenKind}
    (h : kinds ts = ellipsis rightOpen ++ .cellClose name :: left)
    (members : List (String × String)) (leftOpen : Bool) (body : Term) :
    ∃ rest, Takes (closeCell name members leftOpen body ts)
      (.cell ⟨name, cellAttributes members, leftOpen, rightOpen⟩ body) rest ∧
        kinds rest = left := by
  cases rightOpen with
  | true =>
    obtain ⟨s, mid, rfl, hmid⟩ := Token.kinds_eq_cons h
    obtain ⟨s', rest, rfl, hrest⟩ := Token.kinds_eq_cons hmid
    refine ⟨rest, ⟨Nat.lt_succ_of_lt (Nat.lt_succ_self _), ?_⟩, hrest⟩
    rw [closeCell, skip_cons]
    exact if_pos rfl
  | false =>
    obtain ⟨s, rest, rfl, hrest⟩ := Token.kinds_eq_cons h
    refine ⟨rest, ⟨Nat.lt_succ_self _, ?_⟩, hrest⟩
    rw [closeCell, skip_eq_absent (by simp)]
    exact if_pos rfl

theorem takes_primary_cell_iff {k : Token} {name : String} {members : List (String × String)}
    (hk : headOf k.kind behind = .cell name members) : Takes (primary (k :: behind)) t rest ↔
      ∃ inner leftOpen, (∃ h, skip (.punctuation .ellipsis) behind = ⟨leftOpen, inner, h⟩) ∧
        ((∃ body mid, startsTerm inner = true ∧ Takes (term inner) body mid ∧
            Takes (closeCell name members leftOpen body mid) t rest) ∨
          startsTerm inner = false ∧
            Takes (closeCell name members leftOpen (.bag []) inner) t rest) := by
  rw [primary, hk]
  rcases hskip : skip (.punctuation .ellipsis) behind with ⟨leftOpen, inner, hinner⟩
  dsimp only
  constructor
  · rintro ⟨_, heq⟩
    refine ⟨inner, leftOpen, ⟨hinner, rfl⟩, ?_⟩
    split at heq
    · rename_i hstart
      obtain ⟨⟨body, mid, hmid⟩, hbody, heq⟩ := Except.bind_eq_ok.1 heq
      obtain ⟨⟨cell, rest, hrest⟩, hcell, heq⟩ := Except.bind_eq_ok.1 heq
      cases heq
      exact .inl ⟨body, mid, hstart, ⟨_, hbody⟩, ⟨_, hcell⟩⟩
    · rename_i hstart
      obtain ⟨⟨cell, rest, hrest⟩, hcell, heq⟩ := Except.bind_eq_ok.1 heq
      cases heq
      exact .inr ⟨Bool.not_eq_true _ ▸ hstart, ⟨_, hcell⟩⟩
  · rintro ⟨_, _, ⟨_, heq⟩, h⟩
    cases heq
    rcases h with ⟨body, mid, hstart, ⟨hmid, hbody⟩, ⟨hrest, hcell⟩⟩ | ⟨hstart, ⟨hrest, hcell⟩⟩
    · refine ⟨Nat.lt_succ_of_lt (Nat.lt_of_lt_of_le (Nat.lt_trans hrest hmid) hinner), ?_⟩
      rw [if_pos hstart]
      exact Except.bind_eq_ok.2 ⟨_, hbody, Except.bind_eq_ok.2 ⟨_, hcell, rfl⟩⟩
    · refine ⟨Nat.lt_succ_of_lt (Nat.lt_of_lt_of_le hrest hinner), ?_⟩
      rw [if_neg (Bool.eq_false_iff.1 hstart)]
      exact Except.bind_eq_ok.2 ⟨_, hcell, rfl⟩

/-! ## Arguments -/

theorem takes_arguments_iff : Takes (arguments ts) args rest ↔
    (∃ s, ts = ⟨.punctuation .rightParen, s⟩ :: rest ∧ args = []) ∨
      (kinds ts).head? ≠ some (.punctuation .rightParen) ∧ Takes (someArguments ts) args rest := by
  rw [arguments.eq_def]
  constructor
  · rintro ⟨_, heq⟩
    split at heq
    · cases heq
      exact .inl ⟨_, rfl, rfl⟩
    · rename_i hnone
      refine .inr ⟨fun hhead => ?_, ⟨_, heq⟩⟩
      obtain ⟨s, more, rfl⟩ := head?_kinds_eq_some hhead
      exact hnone s more rfl
  · rintro (⟨s, rfl, rfl⟩ | ⟨hhead, hrest, hargs⟩)
    · exact ⟨Nat.lt_succ_self _, rfl⟩
    · refine ⟨hrest, ?_⟩
      split
      · exact absurd rfl hhead
      · exact hargs

theorem takes_someArguments_iff : Takes (someArguments ts) args rest ↔
    TakesSeparated (fun ts => Takes (term ts)) (fun ts => Takes (someArguments ts)) .rightParen ts
      args rest := by
  rw [someArguments]
  exact takes_separated_iff term someArguments nofun

end RewriteSemantics.Parse
