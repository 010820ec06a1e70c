/-
# What is written is read

The readers take every term that the grammar writes. They go on for as long as they can, so what
follows a phrase must not be a token its reader would go on with; this is the only thing that has to
be known of it. The induction is on the way a term is written.
-/
import Mathlib
import RewriteSemantics.Proofs.Term.Soundness
import RewriteSemantics.Proofs.Token.Scan

namespace RewriteSemantics

open Grammar
open Token (kinds kinds_eq_cons)

/-! ## What may follow -/

namespace TokenKind

/-- The reader of a cast goes on with a token. -/
def continuesCast (k : TokenKind) : Bool :=
  k = .punctuation .colon

/-- The reader of a row goes on with a token. -/
def continuesRow (k : TokenKind) : Bool :=
  k.startsTerm || k.continuesCast

/-- The reader of a sequence goes on with a token. -/
def continuesSequence (k : TokenKind) : Bool :=
  k = .punctuation .followedBy || k.continuesRow

/-- The reader of a term goes on with a token. -/
def continuesTerm (k : TokenKind) : Bool :=
  k = .punctuation .arrow || k.continuesSequence

end TokenKind

namespace Grammar

variable {ks : List TokenKind} {goesOn goesOn' : TokenKind → Bool}

theorem Stops.mono (h : Stops goesOn ks) (hle : ∀ k, goesOn' k = true → goesOn k = true) :
    Stops goesOn' ks := by
  intro k hk
  rw [← Bool.not_eq_true]
  exact fun hgoes => Bool.false_ne_true ((h k hk).symm.trans (hle k hgoes))

theorem Stops.sequence (h : Stops TokenKind.continuesTerm ks) :
    Stops TokenKind.continuesSequence ks :=
  h.mono fun _ hk => Bool.or_eq_true_iff.2 (.inr hk)

theorem Stops.row (h : Stops TokenKind.continuesSequence ks) : Stops TokenKind.continuesRow ks :=
  h.mono fun _ hk => Bool.or_eq_true_iff.2 (.inr hk)

theorem Stops.cast (h : Stops TokenKind.continuesRow ks) : Stops TokenKind.continuesCast ks :=
  h.mono fun _ hk => Bool.or_eq_true_iff.2 (.inr hk)

theorem Stops.startsTerm (h : Stops TokenKind.continuesRow ks) : Stops TokenKind.startsTerm ks :=
  h.mono fun _ hk => Bool.or_eq_true_iff.2 (.inl hk)

/-- A token that starts a term is not one that casts go on with. -/
theorem StartsTerm.stops_cast (h : StartsTerm ks) : Stops TokenKind.continuesCast ks := by
  obtain ⟨k, hk, hstarts⟩ := h
  intro k' hk'
  cases Option.mem_unique hk hk'
  exact decide_eq_false fun hcolon => by rw [hcolon] at hstarts; cases hstarts

theorem StartsTerm.head?_ne (h : StartsTerm ks) {k : TokenKind} (hk : k.startsTerm = false) :
    ks.head? ≠ some k := by
  obtain ⟨k', hk', hstarts⟩ := h
  rintro hhead
  cases Option.mem_unique hk' hhead
  exact Bool.false_ne_true (hk.symm.trans hstarts)

theorem stops_startsTerm_ellipsis (rightOpen : Bool) (name : String) (ks : List TokenKind) :
    Stops TokenKind.startsTerm (ellipsis rightOpen ++ .cellClose name :: ks) := by
  cases rightOpen with
  | true => exact stops_cons.2 rfl
  | false => exact stops_cons.2 rfl

theorem head?_ellipsis_ne {leftOpen rightOpen : Bool} (hopen : rightOpen = true → leftOpen = true)
    (name : String) (ks : List TokenKind) (hleft : leftOpen = false) :
    (ellipsis rightOpen ++ .cellClose name :: ks).head? ≠ some (.punctuation .ellipsis) := by
  cases rightOpen with
  | true => exact absurd ((hopen rfl).symm.trans hleft) nofun
  | false => nofun

theorem stops_continuesTerm_ellipsis (rightOpen : Bool) (name : String) (ks : List TokenKind) :
    Stops TokenKind.continuesTerm (ellipsis rightOpen ++ .cellClose name :: ks) := by
  cases rightOpen with
  | true => exact stops_cons.2 rfl
  | false => exact stops_cons.2 rfl

end Grammar

namespace Parse

theorem startsTerm_iff {ts : List Token} : startsTerm ts = true ↔ StartsTerm (kinds ts) := by
  rw [← Bool.not_eq_false, startsTerm_eq_false_iff]
  simp [Stops, StartsTerm]

/-! ## What a token starts -/

theorem notMem_literalNames {name : String} (h : isVariableName name = true) :
    name ∉ literalNames := by
  intro hmem
  simp only [literalNames, List.mem_cons, List.not_mem_nil, or_false] at hmem
  rcases hmem with rfl | rfl | rfl <;> exact absurd h (by decide)

theorem headOfName_eq {name : String} (h : name ∉ literalNames) (behind : List Token) :
    headOfName name behind =
      if isVariableName name && !at? (.punctuation .leftParen) behind then .leaf (.ofName name)
      else .label name := by
  simp only [literalNames, List.mem_cons, List.not_mem_nil, or_false, not_or] at h
  rw [headOfName, if_neg h.1, if_neg h.2.1, if_neg h.2.2]

theorem headOf_variable {name : String} {behind : List Token} (hname : isVariableName name = true)
    (hbehind : (kinds behind).head? ≠ some (.punctuation .leftParen)) :
    headOf (.ident name) behind = .leaf (.ofName name) := by
  refine (headOfName_eq (notMem_literalNames hname) behind).trans ?_
  rw [hname, (at?_eq_false_iff (by simp)).2 hbehind]
  rfl

/-- A label is read as one where arguments follow and where it cannot be a variable. -/
theorem headOf_label {k : TokenKind} {label : String} {behind : List Token} (h : IsLabel k label)
    (hk : (kinds behind).head? = some (.punctuation .leftParen) ∨
      ∀ name, k = .ident name → isVariableName name = false) :
    headOf k behind = .label label := by
  cases h with
  | name hliteral =>
    refine (headOfName_eq hliteral behind).trans (if_neg ?_)
    rw [Bool.and_eq_true, Bool.not_eq_true']
    rintro ⟨hname, hbehind⟩
    rcases hk with hk | hk
    · exact (at?_eq_false_iff (by simp)).1 hbehind hk
    · exact absurd ((hk _ rfl).symm.trans hname) Bool.false_ne_true
  | quoted => rfl

/-! ## Annotations -/

/-- The tokens of annotations with some sorts. -/
def annotationKinds (sorts : List SortName) : List TokenKind :=
  sorts.flatMap fun s => [.punctuation .colon, .ident s.name]

theorem castTo_append (t : Term) (sorts : List SortName) (s : SortName) :
    castTo t (sorts ++ [s]) = .app (Label.cast s) [castTo t sorts] :=
  List.foldl_append

/-- Annotations are taken where no other one follows them. -/
theorem exists_mayTake_annotations {sorts : List SortName} {left : List TokenKind}
    (hsorts : ∀ s ∈ sorts, isSortName s.name = true) (hleft : Stops TokenKind.continuesCast left)
    {ts : List Token} (hts : kinds ts = annotationKinds sorts ++ left) :
    ∃ rest, MayTake (annotations ts) sorts rest ∧ kinds rest = left := by
  induction sorts generalizing ts with
  | nil =>
    refine ⟨ts, mayTake_annotations_iff.2 (.inr ⟨?_, rfl, rfl⟩), hts⟩
    rw [hts]
    exact hleft.head?_ne rfl
  | cons s sorts ih =>
    obtain ⟨_, behind, rfl, hbehind⟩ := kinds_eq_cons hts
    obtain ⟨_, more, rfl, hmore⟩ := kinds_eq_cons hbehind
    obtain ⟨hs, hsorts⟩ := List.forall_mem_cons.1 hsorts
    obtain ⟨rest, hrest, hkinds⟩ := ih hsorts hmore
    exact ⟨rest, mayTake_annotations_iff.2 (.inl ⟨_, _, more, s.name, sorts, rfl, hs, hrest, rfl⟩),
      hkinds⟩

/-- A single term is taken, and annotations that make it a cast come next. -/
def TakesAnnotated (ts : List Token) (t : Term) (left : List TokenKind) : Prop :=
  ∃ u mid sorts, Takes (primary ts) u mid ∧ kinds mid = annotationKinds sorts ++ left ∧
    (∀ s ∈ sorts, isSortName s.name = true) ∧ t = castTo u sorts

theorem TakesAnnotated.exists_takes_cast {ts : List Token} {t : Term} {left : List TokenKind}
    (h : TakesAnnotated ts t left) (hleft : Stops TokenKind.continuesCast left) :
    ∃ rest, Takes (cast ts) t rest ∧ kinds rest = left := by
  obtain ⟨u, mid, sorts, htake, hmid, hsorts, rfl⟩ := h
  obtain ⟨rest, hrest, hkinds⟩ := exists_mayTake_annotations hsorts hleft hmid
  exact ⟨rest, takes_cast_iff.2 ⟨u, mid, sorts, htake, hrest, rfl⟩, hkinds⟩

/-! ## Cells, sequences and rows -/

/-- An ellipsis on the left is skipped. Where there is none, none comes first. -/
theorem exists_skip_ellipsis {leftOpen : Bool} {inner : List TokenKind} {ts : List Token}
    (hts : kinds ts = ellipsis leftOpen ++ inner)
    (hinner : leftOpen = false → inner.head? ≠ some (.punctuation .ellipsis)) :
    ∃ rest, (∃ h, skip (.punctuation .ellipsis) ts = ⟨leftOpen, rest, h⟩) ∧ kinds rest = inner := by
  cases leftOpen with
  | true =>
    obtain ⟨s, rest, rfl, hrest⟩ := kinds_eq_cons hts
    exact ⟨rest, ⟨_, skip_cons _ s rest⟩, hrest⟩
  | false =>
    refine ⟨ts, ⟨_, skip_eq_absent ?_⟩, hts⟩
    rw [hts]
    exact hinner rfl

theorem sequenceOf_eq {items : List Term} (h : 2 ≤ items.length) :
    sequenceOf items = .sequence items := by
  match items, h with
  | _ :: _ :: _, _ => rfl

theorem bagOf_eq {items : List Term} (h : 2 ≤ items.length) : bagOf items = .bag items := by
  match items, h with
  | _ :: _ :: _, _ => rfl

theorem exists_takes_cell {k : Token} {name : String} {members : List (String × String)}
    {leftOpen rightOpen : Bool} {inner mid behind : List Token} {body : Term}
    {left : List TokenKind} (hk : k.kind = .cellOpen name members)
    (hskip : ∃ h, skip (.punctuation .ellipsis) behind = ⟨leftOpen, inner, h⟩)
    (hbody : startsTerm inner = true ∧ Takes (term inner) body mid ∨
      startsTerm inner = false ∧ body = .bag [] ∧ mid = inner)
    (hmid : kinds mid = ellipsis rightOpen ++ .cellClose name :: left) :
    ∃ rest, Takes (primary (k :: behind))
      (.cell ⟨name, cellAttributes members, leftOpen, rightOpen⟩ body) rest ∧
        kinds rest = left := by
  obtain ⟨rest, hclose, hrest⟩ := exists_takes_closeCell hmid members leftOpen body
  refine ⟨rest, (takes_primary_cell_iff (by rw [hk]; rfl)).2 ⟨inner, leftOpen, hskip, ?_⟩, hrest⟩
  rcases hbody with ⟨hstarts, hbody⟩ | ⟨hstarts, rfl, rfl⟩
  · exact .inl ⟨body, mid, hstarts, hbody, hclose⟩
  · exact .inr ⟨hstarts, hclose⟩

/-! ## The grammar -/

mutual

theorem exists_takes_term {ks left : List TokenKind} {t : Term} :
    IsTerm ks t left → Stops TokenKind.continuesTerm left → ∀ {ts}, kinds ts = ks →
      ∃ rest, Takes (term ts) t rest ∧ kinds rest = left
  | .plain h, hleft, ts, hts => by
    obtain ⟨rest, hrest, hkinds⟩ := exists_takes_sequence h hleft.sequence hts
    refine ⟨rest, takes_term_iff.2 (.inr ⟨hrest, ?_⟩), hkinds⟩
    rw [hkinds]
    exact hleft.head?_ne rfl
  | .rewrite hlhs hrhs, hleft, ts, hts => by
    obtain ⟨behind, htake, hbehind⟩ := exists_takes_sequence hlhs (stops_cons.2 rfl) hts
    obtain ⟨_, mid, rfl, hmid⟩ := kinds_eq_cons hbehind
    obtain ⟨rest, hrest, hkinds⟩ := exists_takes_sequence hrhs hleft.sequence hmid
    exact ⟨rest, takes_term_iff.2 (.inl ⟨_, _, mid, _, htake, hrest, rfl⟩), hkinds⟩

theorem exists_takes_sequence {ks left : List TokenKind} {t : Term} :
    IsSequence ks t left → Stops TokenKind.continuesSequence left → ∀ {ts}, kinds ts = ks →
      ∃ rest, Takes (sequence ts) t rest ∧ kinds rest = left
  | .one h, hleft, ts, hts => by
    obtain ⟨rest, hrest, hkinds⟩ := exists_takes_juxtaposition h hleft.row hts
    refine ⟨rest, takes_sequence_iff.2 ⟨[_], takes_sequenceItems_iff.2 (.inr ⟨_, hrest, ?_, rfl⟩),
      rfl⟩, hkinds⟩
    rw [hkinds]
    exact hleft.head?_ne rfl
  | .several h hlength, hleft, ts, hts => by
    obtain ⟨rest, hrest, hkinds⟩ := exists_takes_sequenceItems h hleft hts
    exact ⟨rest, takes_sequence_iff.2 ⟨_, hrest, (sequenceOf_eq hlength).symm⟩, hkinds⟩

theorem exists_takes_sequenceItems {ks left : List TokenKind} {items : List Term} :
    IsSteps ks items left → Stops TokenKind.continuesSequence left → ∀ {ts}, kinds ts = ks →
      ∃ rest, Takes (sequenceItems ts) items rest ∧ kinds rest = left
  | .last h, hleft, ts, hts => by
    obtain ⟨rest, hrest, hkinds⟩ := exists_takes_juxtaposition h hleft.row hts
    refine ⟨rest, takes_sequenceItems_iff.2 (.inr ⟨_, hrest, ?_, rfl⟩), hkinds⟩
    rw [hkinds]
    exact hleft.head?_ne rfl
  | .cons hfirst hothers, hleft, ts, hts => by
    obtain ⟨behind, htake, hbehind⟩ := exists_takes_juxtaposition hfirst (stops_cons.2 rfl) hts
    obtain ⟨_, mid, rfl, hmid⟩ := kinds_eq_cons hbehind
    obtain ⟨rest, hrest, hkinds⟩ := exists_takes_sequenceItems hothers hleft hmid
    exact ⟨rest, takes_sequenceItems_iff.2 (.inl ⟨_, _, mid, _, htake, hrest, rfl⟩), hkinds⟩

theorem exists_takes_juxtaposition {ks left : List TokenKind} {t : Term} :
    IsRow ks t left → Stops TokenKind.continuesRow left → ∀ {ts}, kinds ts = ks →
      ∃ rest, Takes (juxtaposition ts) t rest ∧ kinds rest = left
  | .one h, hleft, ts, hts => by
    obtain ⟨rest, hrest, hkinds⟩ := (takesAnnotated h hts).exists_takes_cast hleft.cast
    refine ⟨rest, takes_juxtaposition_iff.2 ⟨[_], takes_juxtaposed_iff.2 (.inr ⟨_, hrest, ?_, rfl⟩),
      rfl⟩, hkinds⟩
    rw [startsTerm_eq_false_iff, hkinds]
    exact hleft.startsTerm
  | .several h hlength, hleft, ts, hts => by
    obtain ⟨rest, hrest, hkinds⟩ := exists_takes_juxtaposed h hleft hts
    exact ⟨rest, takes_juxtaposition_iff.2 ⟨_, hrest, (bagOf_eq hlength).symm⟩, hkinds⟩

theorem exists_takes_juxtaposed {ks left : List TokenKind} {items : List Term} :
    AreCasts ks items left → Stops TokenKind.continuesRow left → ∀ {ts}, kinds ts = ks →
      ∃ rest, Takes (juxtaposed ts) items rest ∧ kinds rest = left
  | .last h, hleft, ts, hts => by
    obtain ⟨rest, hrest, hkinds⟩ := (takesAnnotated h hts).exists_takes_cast hleft.cast
    refine ⟨rest, takes_juxtaposed_iff.2 (.inr ⟨_, hrest, ?_, rfl⟩), hkinds⟩
    rw [startsTerm_eq_false_iff, hkinds]
    exact hleft.startsTerm
  | .cons hfirst hothers, hleft, ts, hts => by
    obtain ⟨mid, htake, hmid⟩ :=
      (takesAnnotated hfirst hts).exists_takes_cast hothers.startsTerm.stops_cast
    obtain ⟨rest, hrest, hkinds⟩ := exists_takes_juxtaposed hothers hleft hmid
    refine ⟨rest, takes_juxtaposed_iff.2 (.inl ⟨_, mid, _, htake, ?_, hrest, rfl⟩), hkinds⟩
    rw [startsTerm_iff, hmid]
    exact hothers.startsTerm

theorem takesAnnotated {ks left : List TokenKind} {t : Term} :
    IsCast ks t left → ∀ {ts}, kinds ts = ks → TakesAnnotated ts t left
  | .single h, ts, hts => by
    obtain ⟨mid, htake, hmid⟩ := exists_takes_primary h hts
    exact ⟨_, mid, [], htake, hmid, nofun, rfl⟩
  | .cast h hsort, ts, hts => by
    obtain ⟨u, mid, sorts, htake, hmid, hsorts, rfl⟩ := takesAnnotated h hts
    refine ⟨u, mid, sorts ++ [⟨_⟩], htake, ?_, ?_, (castTo_append ..).symm⟩
    · rw [hmid, annotationKinds, annotationKinds, List.flatMap_append, List.append_assoc]
      rfl
    · exact List.forall_mem_append.2 ⟨hsorts, List.forall_mem_singleton.2 hsort⟩

theorem exists_takes_primary {ks left : List TokenKind} {t : Term} :
    IsSingle ks t left → ∀ {ts}, kinds ts = ks →
      ∃ rest, Takes (primary ts) t rest ∧ kinds rest = left
  | .group h, ts, hts => by
    obtain ⟨_, behind, rfl, hbehind⟩ := kinds_eq_cons hts
    obtain ⟨mid, htake, hmid⟩ := exists_takes_term h (stops_cons.2 rfl) hbehind
    obtain ⟨_, rest, rfl, hkinds⟩ := kinds_eq_cons hmid
    exact ⟨rest, (takes_primary_group_iff rfl).2 ⟨_, htake⟩, hkinds⟩
  | .int _ _, ts, hts => by
    obtain ⟨_, rest, rfl, hkinds⟩ := kinds_eq_cons hts
    exact ⟨rest, (takes_primary_leaf_iff rfl).2 ⟨rfl, rfl⟩, hkinds⟩
  | .text _ _, ts, hts => by
    obtain ⟨_, rest, rfl, hkinds⟩ := kinds_eq_cons hts
    exact ⟨rest, (takes_primary_leaf_iff rfl).2 ⟨rfl, rfl⟩, hkinds⟩
  | .true _, ts, hts => by
    obtain ⟨_, rest, rfl, hkinds⟩ := kinds_eq_cons hts
    exact ⟨rest, (takes_primary_leaf_iff rfl).2 ⟨rfl, rfl⟩, hkinds⟩
  | .false _, ts, hts => by
    obtain ⟨_, rest, rfl, hkinds⟩ := kinds_eq_cons hts
    exact ⟨rest, (takes_primary_leaf_iff rfl).2 ⟨rfl, rfl⟩, hkinds⟩
  | .nothing _, ts, hts => by
    obtain ⟨_, rest, rfl, hkinds⟩ := kinds_eq_cons hts
    exact ⟨rest, (takes_primary_leaf_iff rfl).2 ⟨rfl, rfl⟩, hkinds⟩
  | .named hname hhead, ts, hts => by
    obtain ⟨_, rest, rfl, hkinds⟩ := kinds_eq_cons hts
    rw [← hkinds] at hhead
    exact ⟨rest, (takes_primary_leaf_iff (headOf_variable hname hhead)).2 ⟨rfl, rfl⟩, hkinds⟩
  | .constant hlabel hname hhead, ts, hts => by
    obtain ⟨_, rest, rfl, hkinds⟩ := kinds_eq_cons hts
    rw [← hkinds] at hhead
    refine ⟨rest, (takes_primary_label_iff (headOf_label hlabel (.inr hname))).2 ?_, hkinds⟩
    exact .inr ⟨hhead, rfl, rfl⟩
  | .unapplied _ hlabel, ts, hts => by
    obtain ⟨_, behind, rfl, hbehind⟩ := kinds_eq_cons hts
    obtain ⟨_, more, rfl, hmore⟩ := kinds_eq_cons hbehind
    obtain ⟨_, rest, rfl, hkinds⟩ := kinds_eq_cons hmore
    refine ⟨rest, (takes_primary_label_iff (headOf_label hlabel (.inl rfl))).2 ?_, hkinds⟩
    exact .inl ⟨_, _, [], rfl, takes_arguments_iff.2 (.inl ⟨_, rfl, rfl⟩), rfl⟩
  | .application hlabel hargs, ts, hts => by
    obtain ⟨_, behind, rfl, hbehind⟩ := kinds_eq_cons hts
    obtain ⟨_, more, rfl, hmore⟩ := kinds_eq_cons hbehind
    obtain ⟨rest, htake, hkinds⟩ := exists_takes_someArguments hargs rfl hmore
    refine ⟨rest, (takes_primary_label_iff (headOf_label hlabel (.inl rfl))).2 ?_, hkinds⟩
    refine .inl ⟨_, more, _, rfl, takes_arguments_iff.2 (.inr ⟨?_, htake⟩), rfl⟩
    rw [hmore]
    exact hargs.startsTerm.head?_ne rfl
  | .cell ha hbody hks, ts, hts => by
    obtain ⟨_, behind, rfl, hbehind⟩ := kinds_eq_cons hts
    obtain ⟨ts, hskip, hinner⟩ := exists_skip_ellipsis (hbehind.trans hks)
      fun _ => hbody.startsTerm.head?_ne rfl
    obtain ⟨mid, htake, hmid⟩ :=
      exists_takes_term hbody (stops_continuesTerm_ellipsis _ _ _) hinner
    rw [areMembers_iff.1 ha]
    refine exists_takes_cell rfl hskip (.inl ⟨?_, htake⟩) hmid
    rw [startsTerm_iff, hinner]
    exact hbody.startsTerm
  | .emptyCell ha hopen hks, ts, hts => by
    obtain ⟨_, behind, rfl, hbehind⟩ := kinds_eq_cons hts
    obtain ⟨ts, hskip, hinner⟩ :=
      exists_skip_ellipsis (hbehind.trans (hks.trans (List.append_assoc ..)))
        (head?_ellipsis_ne hopen _ _)
    rw [areMembers_iff.1 ha]
    refine exists_takes_cell rfl hskip (.inr ⟨?_, rfl, rfl⟩) hinner
    rw [startsTerm_eq_false_iff, hinner]
    exact stops_startsTerm_ellipsis _ _ _

theorem exists_takes_someArguments {ks mid : List TokenKind} {args : List Term} :
    AreArguments ks args mid → ∀ {left}, mid = .punctuation .rightParen :: left →
      ∀ {ts}, kinds ts = ks → ∃ rest, Takes (someArguments ts) args rest ∧ kinds rest = left
  | .last h, left, hmid, ts, hts => by
    have hstops : Stops TokenKind.continuesTerm mid := hmid ▸ stops_cons.2 rfl
    obtain ⟨behind, htake, hbehind⟩ := exists_takes_term h hstops hts
    obtain ⟨_, rest, rfl, hkinds⟩ := kinds_eq_cons (hbehind.trans hmid)
    exact ⟨rest, takes_someArguments_iff.2 (.inr ⟨_, _, htake, rfl⟩), hkinds⟩
  | .cons hfirst hothers, left, hmid, ts, hts => by
    obtain ⟨behind, htake, hbehind⟩ := exists_takes_term hfirst (stops_cons.2 rfl) hts
    obtain ⟨_, more, rfl, hmore⟩ := kinds_eq_cons hbehind
    obtain ⟨rest, hrest, hkinds⟩ := exists_takes_someArguments hothers hmid hmore
    exact ⟨rest, takes_someArguments_iff.2 (.inl ⟨_, _, more, _, htake, hrest, rfl⟩), hkinds⟩

end

theorem reads_term : Reads (fun ts => Takes (term ts)) IsTerm TokenKind.continuesTerm :=
  ⟨isTerm_of_takes, exists_takes_term⟩

end Parse

/-! ## Texts -/

theorem Term.parse_eq_ok_iff_takes {text : String} {t : Term} :
    Term.parse text = .ok t ↔ ∃ ts rest, tokenize text = .ok ts ∧
      Parse.Takes (Parse.term ts) t rest ∧ Parse.expectFinish rest = .ok () := by
  rw [Term.parse]
  constructor
  · intro heq
    obtain ⟨ts, hts, heq⟩ := Except.bind_eq_ok.1 heq
    obtain ⟨⟨_, rest, hrest⟩, hterm, heq⟩ := Except.bind_eq_ok.1 heq
    obtain ⟨_, hfinish, heq⟩ := Except.bind_eq_ok.1 heq
    cases heq
    exact ⟨ts, rest, hts, ⟨_, hterm⟩, hfinish⟩
  · rintro ⟨ts, rest, hts, ⟨hrest, hterm⟩, hfinish⟩
    refine Except.bind_eq_ok.2 ⟨ts, hts, Except.bind_eq_ok.2 ⟨_, hterm, ?_⟩⟩
    exact Except.bind_eq_ok.2 ⟨(), hfinish, rfl⟩

/-- A text is read as a term exactly if the grammar writes the term with all of its tokens. -/
theorem Term.parse_eq_ok_iff {text : String} {ts : List Token} (h : tokenize text = .ok ts)
    (t : Term) : Term.parse text = .ok t ↔ IsTerm (kinds ts) t [.finish] := by
  rw [Term.parse_eq_ok_iff_takes]
  constructor
  · rintro ⟨ts', rest, hts, hterm, hfinish⟩
    cases h.symm.trans hts
    have hterm := Parse.isTerm_of_takes hterm
    have htext := hterm.spends.isText (isText_of_tokenize h)
    rwa [(Parse.expectFinish_eq_ok_iff htext).1 hfinish] at hterm
  · intro hterm
    obtain ⟨rest, hterm, hfinish⟩ := Parse.exists_takes_term hterm (stops_cons.2 rfl) rfl
    refine ⟨ts, rest, h, hterm, ?_⟩
    exact (Parse.expectFinish_eq_ok_iff (hfinish ▸ isText_finish)).2 hfinish

/-- The texts that are read as terms are those whose tokens the grammar writes a term with, and each
of them is read as that term. Every other text of tokens is refused. -/
theorem Term.parse_accepts_exactly {text : String} {ts : List Token} (h : tokenize text = .ok ts) :
    (∀ t, Term.parse text = .ok t ↔ IsTerm (kinds ts) t [.finish]) ∧
      ((¬∃ t, IsTerm (kinds ts) t [.finish]) → ∃ e, Term.parse text = .error e) := by
  refine ⟨Term.parse_eq_ok_iff h, fun hnone => ?_⟩
  cases hparse : Term.parse text with
  | error e => exact ⟨e, rfl⟩
  | ok t => exact absurd ⟨t, (Term.parse_eq_ok_iff h t).1 hparse⟩ hnone

theorem Term.parse_accepts_exactly_annotated_call :
    ∃ ts, tokenize "f(1):Int ~> X" = .ok ts ∧ Term.parse "f(1):Int ~> X" =
      .ok (.seq [.app "#SemanticCastToInt" [.app "f" [.int 1]], .ofName "X"]) := by
  obtain ⟨ts, hts, hkinds⟩ : ∃ ts, tokenize "f(1):Int ~> X" = .ok ts ∧ kinds ts =
      [.ident "f", .punctuation .leftParen, .int 1, .punctuation .rightParen, .punctuation .colon,
        .ident "Int", .punctuation .followedBy, .ident "X", .finish] :=
    Scan.exists_tokenize (by cbv)
  refine ⟨ts, hts, ((Term.parse_accepts_exactly hts).1 _).2 ?_⟩
  rw [hkinds]
  have hcall : IsSingle [.ident "f", .punctuation .leftParen, .int 1, .punctuation .rightParen,
      .punctuation .colon, .ident "Int", .punctuation .followedBy, .ident "X", .finish]
      (.app "f" [.int 1]) _ :=
    .application (.name (by decide)) (.last (.plain (.one (.one (.single (.int 1 _))))))
  have hname : IsSingle [.ident "X", .finish] (.ofName "X") [.finish] :=
    .named (by decide) (by decide)
  exact .plain (.several (.cons (.one (.cast (.single hcall) (by decide)))
    (.last (.one (.single hname)))) (by decide))

end RewriteSemantics
