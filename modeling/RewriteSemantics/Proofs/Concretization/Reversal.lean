/-
# Rules that undo each other

A rule and the rule with its sides exchanged are placed alike: the left-hand side of one body is the
right-hand side of the other. The names of new variables depend on the names a rule has, so the two
rules have to agree on these as far as the new names go.
-/
import RewriteSemantics.Proofs.Concretization.Survival
import RewriteSemantics.Proofs.Term.Images

namespace RewriteSemantics.Concretization

open Layout

/-! ## More names taken -/

/-- A result, with the names taken behind it, is the one that fewer taken names give. -/
def SameResult {α : Type} (taken : OrderedSet String) (x y : α × FreshNames) : Prop :=
  x.1 = y.1 ∧ ∀ n, n ∈ x.2.taken ↔ n ∈ taken ∨ n ∈ y.2.taken

section

variable {α β : Type} {taken : OrderedSet String} {x y : α × FreshNames}

theorem SameResult.subset (h : SameResult taken x y) : ∀ n ∈ y.2.taken, n ∈ x.2.taken :=
  fun n hn => (h.2 n).2 (.inr hn)

/-- A second result behind a first one. -/
theorem SameResult.andThen {x' y' : β × FreshNames} (h : SameResult taken x y)
    (h' : SameResult x.2.taken x' y') (hgrows : ∀ n ∈ y.2.taken, n ∈ y'.2.taken) (n : String) :
    n ∈ x'.2.taken ↔ n ∈ taken ∨ n ∈ y'.2.taken := by
  rw [h'.2, h.2]
  constructor
  · rintro ((hn | hn) | hn)
    · exact .inl hn
    · exact .inr (hgrows n hn)
    · exact .inr hn
  · rintro (hn | hn)
    · exact .inl (.inl hn)
    · exact .inr hn

/-- What has been free of the names stays free of them. -/
theorem SameResult.free {names' : FreshNames} (h : SameResult taken x y)
    (hgrows : ∀ n ∈ names'.taken, n ∈ y.2.taken) {n : String}
    (hn : n ∈ taken → n ∈ names'.taken) (hx : n ∈ x.2.taken) : n ∈ y.2.taken := by
  rcases (h.2 n).1 hx with hx | hx
  · exact hgrows n (hn hx)
  · exact hx

end

/-- The stock with other names. -/
def Fragments.withNames (f : Fragments) (names : FreshNames) : Fragments :=
  { f with names := names }

variable {f : Fragments} {names names' : FreshNames}

theorem dotIf_of_wider (isOpen : Bool) (h : ∀ x ∈ names'.taken, x ∈ names.taken)
    (hfree : ∀ t ∈ (dotIf isOpen (f.withNames names')).1, ∀ x ∈ t.variableNames,
      x ∈ names.taken → x ∈ names'.taken) :
    SameResult names.taken
      ((dotIf isOpen (f.withNames names)).1, (dotIf isOpen (f.withNames names)).2.names)
      ((dotIf isOpen (f.withNames names')).1, (dotIf isOpen (f.withNames names')).2.names) := by
  cases isOpen with
  | false => exact ⟨rfl, fun n => ⟨.inl, fun hn => hn.elim id (h n)⟩⟩
  | true =>
    obtain ⟨heq, htaken⟩ := FreshNames.fresh_of_wider dotStem h
      (hfree _ List.mem_cons_self _ (Term.mem_variableNames_var.2 rfl))
    exact ⟨congrArg (fun name => [Term.ofName name]) heq, htaken⟩

theorem snd_dotIf (isOpen : Bool) (f : Fragments) (names : FreshNames) :
    (dotIf isOpen (f.withNames names)).2 =
      f.withNames (dotIf isOpen (f.withNames names)).2.names := by
  cases isOpen <;> rfl

theorem close_of_wider (tag : CellTag) (body : Term) (h : ∀ x ∈ names'.taken, x ∈ names.taken)
    (hfree : ∀ x ∈ (close tag body (f.withNames names')).1.variableNames,
      x ∈ names.taken → x ∈ names'.taken) :
    SameResult names.taken
      ((close tag body (f.withNames names)).1, (close tag body (f.withNames names)).2.names)
      ((close tag body (f.withNames names')).1, (close tag body (f.withNames names')).2.names) := by
  unfold close at hfree ⊢
  by_cases hclosed : (!tag.leftOpen && !tag.rightOpen) = true
  · simp only [if_pos hclosed]
    exact ⟨rfl, fun n => ⟨.inl, fun hn => hn.elim id (h n)⟩⟩
  · simp only [if_neg hclosed] at hfree ⊢
    simp only [Term.mem_variableNames_cell, Term.mem_variableNames_sequence] at hfree
    have hleft := dotIf_of_wider (f := f) tag.leftOpen h fun t ht x hx =>
      hfree x ⟨t, List.mem_append_left _ (List.mem_append_left _ ht), hx⟩
    rw [snd_dotIf tag.leftOpen f names'] at hfree
    rw [snd_dotIf tag.leftOpen f names, snd_dotIf tag.leftOpen f names']
    have hright := dotIf_of_wider (f := f) tag.rightOpen hleft.subset fun t ht x hx =>
      hleft.free (fun n hn => taken_dotIf tag.leftOpen hn)
        (hfree x ⟨t, List.mem_append_right _ ht, hx⟩)
    have htaken := hleft.andThen hright fun n hn => taken_dotIf tag.rightOpen hn
    refine ⟨?_, htaken⟩
    have heq₁ := hleft.1
    have heq₂ := hright.1
    dsimp only at heq₁ heq₂ ⊢
    rw [heq₁, heq₂]

theorem besideChildren_of_some {name : String} {rest : Term} (names : FreshNames) (missing : Bool)
    (h : f.rest.get? name = some rest) : besideChildren name missing (f.withNames names) =
      ([rest], { f with rest := f.rest.erase name, names := names }) := by
  rw [besideChildren, show (f.withNames names).rest.get? name = some rest from h]
  rfl

theorem besideChildren_of_none {name : String} (names : FreshNames) (missing : Bool)
    (h : f.rest.get? name = none) :
    besideChildren name missing (f.withNames names) = dotIf missing (f.withNames names) := by
  rw [besideChildren, show (f.withNames names).rest.get? name = none from h]

theorem besideChildren_of_wider (name : String) (missing : Bool)
    (h : ∀ x ∈ names'.taken, x ∈ names.taken)
    (hfree : ∀ t ∈ (besideChildren name missing (f.withNames names')).1, ∀ x ∈ t.variableNames,
      x ∈ names.taken → x ∈ names'.taken) :
    SameResult names.taken
      ((besideChildren name missing (f.withNames names)).1,
        (besideChildren name missing (f.withNames names)).2.names)
      ((besideChildren name missing (f.withNames names')).1,
        (besideChildren name missing (f.withNames names')).2.names) := by
  cases hrest : f.rest.get? name with
  | some rest =>
    rw [besideChildren_of_some names missing hrest, besideChildren_of_some names' missing hrest]
    exact ⟨rfl, fun n => ⟨.inl, fun hn => hn.elim id (h n)⟩⟩
  | none =>
    rw [besideChildren_of_none names' missing hrest] at hfree
    rw [besideChildren_of_none names missing hrest, besideChildren_of_none names' missing hrest]
    exact dotIf_of_wider missing h hfree

mutual

/-- A body is placed alike where more names are taken, as long as none of these is the name of a
variable of the body. -/
theorem place_of_wider {f : Fragments} : ∀ (l : Layout) {names names' : FreshNames},
    (∀ x ∈ names'.taken, x ∈ names.taken) →
    (∀ x ∈ (place f l names').1.variableNames, x ∈ names.taken → x ∈ names'.taken) →
      SameResult names.taken (place f l names) (place f l names')
  | .node name ls, names, names', h, hfree => by
    rw [place] at hfree ⊢
    rw [place]
    cases hwritten : f.cells.get? name with
    | some written =>
      obtain ⟨tag, body⟩ := written
      rw [hwritten] at hfree
      exact close_of_wider tag body h hfree
    | none =>
      rw [hwritten] at hfree
      have hfree : ∀ x, (∃ t ∈ (placeAll f ls names').1 ++ (besideChildren name
          (ls.any (!holds f ·)) (f.withNames (placeAll f ls names').2)).1, x ∈ t.variableNames) →
          x ∈ names.taken → x ∈ names'.taken := by
        intro x hx
        refine hfree x ?_
        show x ∈ (Term.closedCell name (contentOf _)).variableNames
        rwa [Term.closedCell, Term.mem_variableNames_cell, mem_variableNames_contentOf]
      -- The children take names first, and what stands beside them chooses among the others.
      have hall := placeAll_of_wider (f := f) ls h fun t ht x hx =>
        hfree x ⟨t, List.mem_append_left _ ht, hx⟩
      have hbeside := besideChildren_of_wider (f := f) name (ls.any (!holds f ·)) hall.subset
        fun t ht x hx => hall.free (fun n hn => taken_placeAll ls hn)
          (hfree x ⟨t, List.mem_append_right _ ht, hx⟩)
      have htaken := hall.andThen hbeside fun n hn => taken_besideChildren name _ hn
      refine ⟨?_, htaken⟩
      have heq₁ := hall.1
      have heq₂ := hbeside.1
      dsimp only at heq₂
      show Term.closedCell name (contentOf ((placeAll f ls names).1 ++ (besideChildren name
        (ls.any (!holds f ·)) (f.withNames (placeAll f ls names).2)).1)) = _
      rw [heq₁, heq₂]
      rfl

/-- Some bodies are placed alike where more names are taken. -/
theorem placeAll_of_wider {f : Fragments} : ∀ (ls : List Layout) {names names' : FreshNames},
    (∀ x ∈ names'.taken, x ∈ names.taken) →
    (∀ t ∈ (placeAll f ls names').1, ∀ x ∈ t.variableNames,
      x ∈ names.taken → x ∈ names'.taken) →
      SameResult names.taken (placeAll f ls names) (placeAll f ls names')
  | [], names, names', h, _ => ⟨rfl, fun n => ⟨.inl, fun hn => hn.elim id (h n)⟩⟩
  | l :: ls, names, names', h, hfree => by
    rw [placeAll] at hfree ⊢
    rw [placeAll]
    split at hfree
    · rename_i hholds
      rw [if_pos hholds, if_pos hholds]
      have hhead := place_of_wider (f := f) l h (hfree _ List.mem_cons_self)
      have htail := placeAll_of_wider (f := f) ls hhead.subset fun t ht x hx =>
        hhead.free (fun n hn => taken_place l hn) (hfree t (List.mem_cons_of_mem _ ht) x hx)
      have htaken := hhead.andThen htail fun n hn => taken_placeAll ls hn
      refine ⟨?_, htaken⟩
      exact congrArg₂ List.cons hhead.1 htail.1
    · rename_i hholds
      rw [if_neg hholds, if_neg hholds]
      exact placeAll_of_wider ls h hfree

end

/-! ## Sides exchanged -/

/-- Two stocks have the same cells, each with a rewrite that is the other way round in the other
stock, and nothing stands beside cells. There are no rewrites inside the sides. -/
structure Fragments.Reversed (f g : Fragments) : Prop where
  rest : ∀ name, f.rest.get? name = none ∧ g.rest.get? name = none
  cells : ∀ name, (f.cells.get? name = none ∧ g.cells.get? name = none) ∨
    ∃ tag a b, f.cells.get? name = some (tag, .rewrite a b) ∧
      g.cells.get? name = some (tag, .rewrite b a) ∧ a.lhs = a.rhs ∧ b.lhs = b.rhs

theorem Fragments.Reversed.symm {f g : Fragments} (h : f.Reversed g) : g.Reversed f := by
  refine ⟨fun name => (h.rest name).symm, fun name => ?_⟩
  rcases h.cells name with hnone | ⟨tag, a, b, hf, hg, ha, hb⟩
  · exact .inl hnone.symm
  · exact .inr ⟨tag, b, a, hg, hf, hb, ha⟩

/-- The same layouts hold content. -/
theorem Fragments.Reversed.holds_eq {f g : Fragments} (h : f.Reversed g) (l : Layout) :
    holds g l = holds f l := by
  have hcontains : g.cells.contains = f.cells.contains := by
    funext name
    rw [OrderedMap.contains, OrderedMap.contains]
    rcases h.cells name with ⟨hf, hg⟩ | ⟨tag, a, b, hf, hg, -⟩
    · rw [hf, hg]
    · rw [hf, hg]
      rfl
  rw [holds, holds, hcontains]

theorem lhs_contentOf (items : List Term) :
    (contentOf items).lhs = contentOf (items.map Term.lhs) := by
  rcases items with _ | ⟨t, _ | ⟨u, rest⟩⟩
  · rfl
  · rfl
  · show Term.lhs (.bag _) = .bag (List.map Term.lhs (t :: u :: rest))
    rw [Term.lhs, Term.lhsAll_eq_map]

theorem rhs_contentOf (items : List Term) :
    (contentOf items).rhs = contentOf (items.map Term.rhs) := by
  rcases items with _ | ⟨t, _ | ⟨u, rest⟩⟩
  · rfl
  · rfl
  · show Term.rhs (.bag _) = .bag (List.map Term.rhs (t :: u :: rest))
    rw [Term.rhs, Term.rhsAll_eq_map]

theorem close_reversed (tag : CellTag) {a : Term} (b : Term) (ha : a.lhs = a.rhs) (f g : Fragments)
    (names : FreshNames) :
    (close tag (.rewrite a b) (f.withNames names)).1.lhs =
        (close tag (.rewrite b a) (g.withNames names)).1.rhs ∧
      (close tag (.rewrite a b) (f.withNames names)).2.names =
        (close tag (.rewrite b a) (g.withNames names)).2.names := by
  obtain ⟨name, attributes, left, right⟩ := tag
  cases left <;> cases right
  · exact ⟨congrArg (Term.cell _) ha, rfl⟩
  · exact ⟨congrArg (fun t => Term.cell _ (.seq [t, _])) ha, rfl⟩
  · exact ⟨congrArg (fun t => Term.cell _ (.seq [_, t])) ha, rfl⟩
  · exact ⟨congrArg (fun t => Term.cell _ (.seq [_, t, _])) ha, rfl⟩

/-- New variables are on both sides. -/
theorem besideChildren_reversed {f g : Fragments} (h : f.Reversed g) (name : String)
    (missing : Bool) (names : FreshNames) :
    (besideChildren name missing (f.withNames names)).1.map Term.lhs =
        (besideChildren name missing (g.withNames names)).1.map Term.rhs ∧
      (besideChildren name missing (f.withNames names)).2.names =
        (besideChildren name missing (g.withNames names)).2.names := by
  obtain ⟨hf, hg⟩ := h.rest name
  rw [besideChildren_of_none names missing hf, besideChildren_of_none names missing hg]
  cases missing <;> exact ⟨rfl, rfl⟩

mutual

/-- What is placed from reversed stocks has its sides exchanged. -/
theorem place_reversed {f g : Fragments} (h : f.Reversed g) : ∀ (l : Layout) (names : FreshNames),
    (place f l names).1.lhs = (place g l names).1.rhs ∧ (place f l names).2 = (place g l names).2
  | .node name ls, names => by
    rw [place, place]
    rcases h.cells name with ⟨hf, hg⟩ | ⟨tag, a, b, hf, hg, ha, -⟩
    · obtain ⟨hall, hnames⟩ := placeAll_reversed h ls names
      obtain ⟨hbeside, hnames'⟩ :=
        besideChildren_reversed h name (ls.any (!holds f ·)) (placeAll g ls names).2
      have hmissing : ls.any (!holds g ·) = ls.any (!holds f ·) := by
        simp only [h.holds_eq]
      rw [hf, hg, hmissing]
      constructor
      · show Term.cell _ (contentOf ((placeAll f ls names).1 ++ (besideChildren name _
          (f.withNames (placeAll f ls names).2)).1)).lhs = Term.cell _ (contentOf _).rhs
        rw [lhs_contentOf, rhs_contentOf, List.map_append, List.map_append, hall, hnames, hbeside]
        rfl
      · show (besideChildren name _ (f.withNames (placeAll f ls names).2)).2.names = _
        rw [hnames, hnames']
        rfl
    · rw [hf, hg]
      exact close_reversed tag b ha f g names

/-- What is placed from reversed stocks along some layouts has its sides exchanged. -/
theorem placeAll_reversed {f g : Fragments} (h : f.Reversed g) :
    ∀ (ls : List Layout) (names : FreshNames),
    (placeAll f ls names).1.map Term.lhs = (placeAll g ls names).1.map Term.rhs ∧
      (placeAll f ls names).2 = (placeAll g ls names).2
  | [], _ => ⟨rfl, rfl⟩
  | l :: ls, names => by
    rw [placeAll, placeAll, h.holds_eq]
    split
    · obtain ⟨hhead, hnames⟩ := place_reversed h l names
      obtain ⟨htail, hnames'⟩ := placeAll_reversed h ls (place g l names).2
      constructor
      · show Term.lhs _ :: List.map Term.lhs (placeAll f ls (place f l names).2).1 = _
        rw [hhead, hnames, htail]
        rfl
      · show (placeAll f ls (place f l names).2).2 = _
        rw [hnames, hnames']
    · exact placeAll_reversed h ls names

end

/-! ## Rules -/

variable {tree : CellTree} {d : Definition}

/-- The only content of a rule with one cell that holds a rewrite. -/
theorem fragmentsOf_rewrite {r : Rule} {tag : CellTag} {a b : Term} {f : Fragments}
    (hbody : r.body = .cell tag (.rewrite a b)) (h : fragmentsOf tree r = .ok f) :
    f = ⟨.insert ∅ tag.name (tag, .rewrite a b), ∅, .avoiding r.variableNames⟩ := by
  rw [fragmentsOf, hbody] at h
  obtain ⟨g, hg, h⟩ := Except.bind_eq_ok.1 h
  obtain ⟨g', hg', hg⟩ := Except.bind_eq_ok.1 hg
  cases hg
  change (if tree.contains tag.name then Fragments.addCell r tag (.rewrite a b) _
    else .error _) = .ok g at hg'
  split at hg'
  · cases hg'
    split at h
    · cases h
    · cases h
      rfl
  · cases hg'

/-- A body that is a cell is headed by no label. -/
theorem isFunctionRule_of_cell {r : Rule} {tag : CellTag} {t : Term}
    (hbody : r.body = .cell tag t) : d.isFunctionRule r = false := by
  rw [Definition.isFunctionRule, hbody]
  rfl

/-- Two rules that are each other's reversal in the same cell are each other's reversal when they
are placed, if the second has no more names than the first and none of the new names of its body is
a name of the first. -/
theorem resolveRule_reversed {configuration : Term} (ht : CellTree.ofTerm configuration = .ok tree)
    {h k h' k' : Rule} {tag : CellTag} {a b : Term} (hbody : h.body = .cell tag (.rewrite a b))
    (kbody : k.body = .cell tag (.rewrite b a)) (ha : a.lhs = a.rhs) (hb : b.lhs = b.rhs)
    (hh' : resolveRule tree d h = .ok h') (hk' : resolveRule tree d k = .ok k')
    (hnames : ∀ x ∈ k.variableNames, x ∈ h.variableNames)
    (hfree : ∀ x ∈ k'.body.variableNames, x ∈ h.variableNames → x ∈ k.variableNames) :
    h'.body.lhs = k'.body.rhs ∧ h'.body.rhs = k'.body.lhs := by
  obtain ⟨l, hl⟩ := CellTree.laidOut_ofTerm ht
  obtain ⟨f, hf, rfl, -⟩ := placed_of_resolveRule hl (isFunctionRule_of_cell hbody) hh'
  obtain ⟨g, hg, rfl, -⟩ := placed_of_resolveRule hl (isFunctionRule_of_cell kbody) hk'
  have hf := fragmentsOf_rewrite hbody hf
  have hg := fragmentsOf_rewrite kbody hg
  have hreversed : f.Reversed g := by
    rw [hf, hg]
    refine ⟨fun _ => ⟨rfl, rfl⟩, fun name => ?_⟩
    rw [OrderedMap.get?_insert, OrderedMap.get?_insert]
    by_cases hname : name = tag.name
    · rw [if_pos hname, if_pos hname]
      exact .inr ⟨tag, a, b, rfl, rfl, ha, hb⟩
    · rw [if_neg hname, if_neg hname]
      exact .inl ⟨rfl, rfl⟩
  have hfnames : f.names = .avoiding h.variableNames := by rw [hf]
  have hgnames : g.names = .avoiding k.variableNames := by rw [hg]
  -- The second rule may as well be placed with the names of the first.
  have hsame : (place g l f.names).1 = (place g l g.names).1 := by
    rw [hgnames] at hfree ⊢
    rw [hfnames]
    exact (place_of_wider l hnames hfree).1
  show (place f l f.names).1.lhs = (place g l g.names).1.rhs ∧
    (place f l f.names).1.rhs = (place g l g.names).1.lhs
  rw [← hsame]
  exact ⟨(place_reversed hreversed l f.names).1, (place_reversed hreversed.symm l f.names).1.symm⟩

end RewriteSemantics.Concretization
