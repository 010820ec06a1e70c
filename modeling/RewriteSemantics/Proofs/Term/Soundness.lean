/-
# What is read is written

Every term that a reader takes is written by the tokens it took, by the grammar of terms. The
induction is the recursion of the readers.
-/
import RewriteSemantics.Proofs.Term.Reading

namespace RewriteSemantics

open Grammar
open Token (kinds)

namespace Grammar

variable {ks rest : List TokenKind} {items : List Term}

theorem IsSteps.isSequence (h : IsSteps ks items rest) :
    IsSequence ks (Parse.sequenceOf items) rest := by
  cases h with
  | last hrow => exact .one hrow
  | cons hfirst hothers =>
    cases hothers with
    | last h => exact .several (.cons hfirst (.last h)) (Nat.le_add_left ..)
    | cons h h' => exact .several (.cons hfirst (.cons h h')) (Nat.le_add_left ..)

theorem AreCasts.isRow (h : AreCasts ks items rest) : IsRow ks (Parse.bagOf items) rest := by
  cases h with
  | last hcast => exact .one hcast
  | cons hfirst hothers =>
    cases hothers with
    | last h => exact .several (.cons hfirst (.last h)) (Nat.le_add_left ..)
    | cons h h' => exact .several (.cons hfirst (.cons h h')) (Nat.le_add_left ..)

theorem areMembers_iff {members : List (String × String)} {a : Attributes} :
    AreMembers members a ↔ a = Parse.cellAttributes members :=
  ⟨Binds.eq_ofList, fun h => h ▸ binds_ofList _⟩

end Grammar

namespace Parse

variable {k : TokenKind} {behind : List Token}

/-! ## What a token starts -/

theorem eq_leftParen_of_headOf (h : headOf k behind = .group) : k = .punctuation .leftParen := by
  unfold headOf at h
  split at h
  · rfl
  all_goals first | cases h | skip
  unfold headOfName at h
  split_ifs at h

theorem eq_cellOpen_of_headOf {name : String} {members : List (String × String)}
    (h : headOf k behind = .cell name members) : k = .cellOpen name members := by
  unfold headOf at h
  split at h
  · cases h
  · cases h
    rfl
  all_goals first | cases h | skip
  unfold headOfName at h
  split_ifs at h

theorem isSingle_of_headOf {t : Term} (h : headOf k behind = .leaf t) :
    IsSingle (k :: kinds behind) t (kinds behind) := by
  unfold headOf at h
  split at h
  · cases h
  · cases h
  · cases h
    exact .int ..
  · cases h
    exact .text ..
  · unfold headOfName at h
    split_ifs at h with htrue hfalse hnothing hvariable
    · cases h
      subst htrue
      exact .true _
    · cases h
      subst hfalse
      exact .false _
    · cases h
      subst hnothing
      exact .nothing _
    · cases h
      rw [Bool.and_eq_true, Bool.not_eq_true'] at hvariable
      exact .named hvariable.1 ((at?_eq_false_iff (by simp)).1 hvariable.2)
  · cases h
  · cases h

/-- What starts with a label is written by a label. A name that could be that of a variable is a
label only before an opening parenthesis. -/
theorem isLabel_of_headOf {label : String} (h : headOf k behind = .label label) :
    IsLabel k label ∧ ((kinds behind).head? ≠ some (.punctuation .leftParen) →
      ∀ name, k = .ident name → isVariableName name = false) := by
  unfold headOf at h
  split at h
  · cases h
  · cases h
  · cases h
  · cases h
  · unfold headOfName at h
    split_ifs at h with htrue hfalse hnothing hvariable
    cases h
    refine ⟨.name ?_, ?_⟩
    · simp [literalNames, htrue, hfalse, hnothing]
    · rintro hbehind _ ⟨⟩
      rwa [(at?_eq_false_iff (by simp)).2 hbehind, Bool.not_false, Bool.and_true,
        Bool.not_eq_true] at hvariable
  · cases h
    exact ⟨.quoted _, by simp⟩
  · cases h

/-! ## The grammar -/

theorem isCast_of_mayTake {ts rest : List Token} {sorts : List SortName}
    (h : MayTake (annotations ts) sorts rest) {ks : List TokenKind} {t : Term}
    (ht : IsCast ks t (kinds ts)) : IsCast ks (castTo t sorts) (kinds rest) := by
  induction sorts generalizing ts t with
  | nil =>
    rcases mayTake_annotations_iff.1 h with ⟨_, _, _, _, _, _, _, _, hsorts⟩ | ⟨_, _, rfl⟩
    · cases hsorts
    · exact ht
  | cons s sorts ih =>
    rcases mayTake_annotations_iff.1 h with ⟨_, _, more, sort, _, rfl, hsort, hothers, hsorts⟩ |
      ⟨_, hsorts, _⟩
    · cases hsorts
      exact ih hothers (ht.cast hsort)
    · cases hsorts

/-- A cell whose contents are taken and whose closing tag is taken is written as one. -/
theorem isSingle_of_takes_closeCell {name : String} {members : List (String × String)}
    {leftOpen : Bool} {inner ts rest : List Token} {body t : Term}
    (hbody : IsTerm (kinds inner) body (kinds ts))
    (h : Takes (closeCell name members leftOpen body ts) t rest) :
    IsSingle (.cellOpen name members :: (ellipsis leftOpen ++ kinds inner)) t (kinds rest) := by
  obtain ⟨rightOpen, hts, rfl⟩ := kinds_of_takes_closeCell h
  rw [hts] at hbody
  exact .cell (areMembers_iff.2 rfl) hbody rfl

theorem isSingle_of_takes_closeCell_empty {name : String} {members : List (String × String)}
    {leftOpen : Bool} {ts rest : List Token} {t : Term}
    (hopen : leftOpen = false → (kinds ts).head? ≠ some (.punctuation .ellipsis))
    (h : Takes (closeCell name members leftOpen (.bag []) ts) t rest) :
    IsSingle (.cellOpen name members :: (ellipsis leftOpen ++ kinds ts)) t (kinds rest) := by
  obtain ⟨rightOpen, hts, rfl⟩ := kinds_of_takes_closeCell h
  refine .emptyCell (areMembers_iff.2 rfl) (fun hright => ?_) (by rw [hts, List.append_assoc])
  subst hright
  cases leftOpen with
  | true => rfl
  | false => exact absurd (by rw [hts]; rfl) (hopen rfl)

theorem kinds_of_skip {ts inner : List Token} {leftOpen : Bool} {h : inner.length ≤ ts.length}
    (hskip : skip k ts = ⟨leftOpen, inner, h⟩) :
    leftOpen = true ∧ kinds ts = k :: kinds inner ∨
      leftOpen = false ∧ ts = inner ∧ (kinds ts).head? ≠ some k := by
  rcases skip_cases k ts with ⟨s, mid, _, rfl, heq⟩ | ⟨hhead, heq⟩
  · rw [heq] at hskip
    cases hskip
    exact .inl ⟨rfl, rfl⟩
  · rw [heq] at hskip
    cases hskip
    exact .inr ⟨rfl, rfl, hhead⟩

mutual

theorem isTerm_of_takes {ts rest : List Token} {t : Term} (h : Takes (term ts) t rest) :
    IsTerm (kinds ts) t (kinds rest) := by
  rcases takes_term_iff.1 h with ⟨lhs, s, mid, rhs, hlhs, hrhs, rfl⟩ | ⟨hlhs, -⟩
  · have hmid := Nat.lt_of_succ_lt hlhs.length_lt
    exact .rewrite (isSequence_of_takes hlhs) (isSequence_of_takes hrhs)
  · exact .plain (isSequence_of_takes hlhs)
termination_by (ts.length, 7)

theorem isSequence_of_takes {ts rest : List Token} {t : Term} (h : Takes (sequence ts) t rest) :
    IsSequence (kinds ts) t (kinds rest) := by
  obtain ⟨items, hitems, rfl⟩ := takes_sequence_iff.1 h
  exact (isSteps_of_takes hitems).isSequence
termination_by (ts.length, 6)

theorem isSteps_of_takes {ts rest : List Token} {items : List Term}
    (h : Takes (sequenceItems ts) items rest) : IsSteps (kinds ts) items (kinds rest) := by
  rcases takes_sequenceItems_iff.1 h with ⟨first, s, mid, others, hfirst, hothers, rfl⟩ |
    ⟨first, hfirst, -, rfl⟩
  · have hmid := Nat.lt_of_succ_lt hfirst.length_lt
    exact .cons (isRow_of_takes hfirst) (isSteps_of_takes hothers)
  · exact .last (isRow_of_takes hfirst)
termination_by (ts.length, 5)

theorem isRow_of_takes {ts rest : List Token} {t : Term} (h : Takes (juxtaposition ts) t rest) :
    IsRow (kinds ts) t (kinds rest) := by
  obtain ⟨items, hitems, rfl⟩ := takes_juxtaposition_iff.1 h
  exact (areCasts_of_takes hitems).isRow
termination_by (ts.length, 4)

theorem areCasts_of_takes {ts rest : List Token} {items : List Term}
    (h : Takes (juxtaposed ts) items rest) : AreCasts (kinds ts) items (kinds rest) := by
  rcases takes_juxtaposed_iff.1 h with ⟨first, mid, others, hfirst, -, hothers, rfl⟩ |
    ⟨first, hfirst, -, rfl⟩
  · have hmid := hfirst.length_lt
    exact .cons (isCast_of_takes hfirst) (areCasts_of_takes hothers)
  · exact .last (isCast_of_takes hfirst)
termination_by (ts.length, 3)

theorem isCast_of_takes {ts rest : List Token} {t : Term} (h : Takes (cast ts) t rest) :
    IsCast (kinds ts) t (kinds rest) := by
  obtain ⟨u, mid, sorts, hu, hsorts, rfl⟩ := takes_cast_iff.1 h
  exact isCast_of_mayTake hsorts (.single (isSingle_of_takes hu))
termination_by (ts.length, 2)

theorem isSingle_of_takes {ts rest : List Token} {t : Term} (h : Takes (primary ts) t rest) :
    IsSingle (kinds ts) t (kinds rest) := by
  match ts with
  | [] =>
    rw [primary] at h
    obtain ⟨_, heq⟩ := h
    cases heq
  | k :: behind =>
    rw [Token.kinds_cons]
    cases hk : headOf k.kind behind with
    | group =>
      obtain ⟨s, hinner⟩ := (takes_primary_group_iff hk).1 h
      rw [eq_leftParen_of_headOf hk]
      exact .group (isTerm_of_takes hinner)
    | cell name members =>
      rw [eq_cellOpen_of_headOf hk]
      obtain ⟨inner, leftOpen, ⟨hlength, hskip⟩, hcell⟩ := (takes_primary_cell_iff hk).1 h
      have hinner := Nat.lt_succ_of_le hlength
      rcases kinds_of_skip hskip with ⟨rfl, hbehind⟩ | ⟨rfl, rfl, hhead⟩
      · rw [hbehind]
        rcases hcell with ⟨body, mid, -, hbody, hclose⟩ | ⟨-, hclose⟩
        · exact isSingle_of_takes_closeCell (isTerm_of_takes hbody) hclose
        · exact isSingle_of_takes_closeCell_empty (by nofun) hclose
      · rcases hcell with ⟨body, mid, -, hbody, hclose⟩ | ⟨-, hclose⟩
        · exact isSingle_of_takes_closeCell (isTerm_of_takes hbody) hclose
        · exact isSingle_of_takes_closeCell_empty (fun _ => hhead) hclose
    | leaf leaf =>
      obtain ⟨rfl, rfl⟩ := (takes_primary_leaf_iff hk).1 h
      exact isSingle_of_headOf hk
    | label label =>
      obtain ⟨hlabel, hname⟩ := isLabel_of_headOf hk
      rcases (takes_primary_label_iff hk).1 h with ⟨s, more, args, rfl, hargs, rfl⟩ |
        ⟨hhead, rfl, rfl⟩
      · rcases takes_arguments_iff.1 hargs with ⟨s', rfl, rfl⟩ | ⟨-, hargs⟩
        · exact .unapplied _ hlabel
        · exact .application hlabel (areArguments_of_takes hargs)
      · exact .constant hlabel (hname hhead) hhead
    | nothing => exact absurd h (not_takes_primary_nothing hk)
termination_by (ts.length, 1)

theorem areArguments_of_takes {ts rest : List Token} {args : List Term}
    (h : Takes (someArguments ts) args rest) :
    AreArguments (kinds ts) args (.punctuation .rightParen :: kinds rest) := by
  rcases takes_someArguments_iff.1 h with ⟨first, s, mid, others, hfirst, hothers, rfl⟩ |
    ⟨first, s, hfirst, rfl⟩
  · have hmid := Nat.lt_of_succ_lt hfirst.length_lt
    exact .cons (isTerm_of_takes hfirst) (areArguments_of_takes hothers)
  · exact .last (isTerm_of_takes hfirst)
termination_by (ts.length, 8)

end

end Parse

end RewriteSemantics
