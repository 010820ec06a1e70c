/-
# What concretization keeps

Concretization keeps every content that a rule writes: what cannot be placed is an error. It does
not keep every variable. A variable beside cells goes with the cell around it, so it is kept only if
the walk down the configuration passes that cell, which it does if a content is placed inside it;
and of several variables in one cell only the last is kept.
-/
import Mathlib
import RewriteSemantics.Proofs.Concretization.Content
import RewriteSemantics.Proofs.Concretization.Reading

namespace RewriteSemantics.Concretization

open Layout

variable {tree : CellTree} {d : Definition} {r r' : Rule}

/-! ## Contents and passed cells -/

/-- A passed cell has a content inside it. -/
theorem above_of_passed {f : Fragments} {l : Layout} (hholds : holds f l = true) {outer : String}
    (houter : outer ∈ passed f l) :
    ∃ inner, f.cells.contains inner = true ∧ l.Above outer inner := by
  induction l using Layout.induct with
  | node name ls ih =>
    rw [passed] at houter
    split at houter
    · cases houter
    · rename_i hname
      rcases List.mem_cons.1 houter with rfl | houter
      · obtain ⟨inner, hinner, hwritten⟩ := holds_iff.1 hholds
        rcases List.mem_cons.1 hinner with rfl | hinner
        · exact absurd hwritten hname
        · exact ⟨inner, hwritten, .here hinner⟩
      · obtain ⟨l, hl, hholds, houter⟩ := mem_passedAll.1 houter
        obtain ⟨inner, hwritten, habove⟩ := ih l hl hholds houter
        exact ⟨inner, hwritten, .deeper hl habove⟩

/-- A cell around a placed one is passed. -/
theorem passed_of_above {f : Fragments} {l : Layout} (hnodup : l.names.Nodup)
    {outer inner : String} (habove : l.Above outer inner) (hinner : inner ∈ placed f l) :
    outer ∈ passed f l := by
  induction habove with
  | @here name ls inner hmem =>
    rw [placed] at hinner
    rw [passed]
    split at hinner
    · cases List.mem_singleton.1 hinner
      exact absurd hmem (nodup_node hnodup).1
    · rename_i hname
      rw [if_neg hname]
      exact List.mem_cons_self
  | @deeper name ls l outer inner hl habove ih =>
    obtain ⟨hnotMem, hls⟩ := nodup_node hnodup
    rw [placed] at hinner
    rw [passed]
    split at hinner
    · cases List.mem_singleton.1 hinner
      exact absurd (mem_namesAll.2 ⟨l, hl, habove.inner_mem⟩) hnotMem
    · rename_i hname
      rw [if_neg hname]
      -- The layout that the content is placed into is the one that the outer cell lies in.
      obtain ⟨l', hl', hinner⟩ := mem_placedAll.1 hinner
      obtain rfl := eq_of_mem_names hls hl hl' habove.inner_mem (placed_subset f l' inner hinner)
      have hholds := holds_iff.2 ⟨inner, habove.inner_mem, contains_of_placed hinner⟩
      have houter := ih (nodup_of_mem hls hl) hinner
      exact List.mem_cons_of_mem _ (mem_passedAll.2 ⟨l, hl, hholds, houter⟩)

/-! ## Rules -/

/-- A rule that is placed into a configuration is placed along its layout, with all its contents. -/
theorem placed_of_resolveRule {l : Layout} (hl : tree.LaidOut l)
    (hfunction : d.isFunctionRule r = false) (hr : resolveRule tree d r = .ok r') :
    ∃ f, fragmentsOf tree r = .ok f ∧ r' = { r with body := (place f l f.names).1 } ∧
      ∀ name, f.cells.contains name = true → name ∈ placed f l := by
  rw [resolveRule, hfunction, if_neg (by simp)] at hr
  obtain ⟨f, hf, hr⟩ := Except.bind_eq_ok.1 hr
  obtain ⟨left, hbuild, -, hleaves⟩ := build_eq_place hl.fits hl.nodup f fun _ _ => ⟨rfl, rfl⟩
  rw [← hl.top, hbuild] at hr
  dsimp only at hr
  split at hr
  · rename_i hempty
    cases hr
    refine ⟨f, hf, rfl, fun name hname => ?_⟩
    by_contra hnotPlaced
    obtain ⟨e, he⟩ := OrderedMap.contains_iff.1 hname
    have hleft : left.cells.get? name = some e := by
      rw [hleaves.cells, if_neg hnotPlaced, he]
    rw [OrderedMap.isEmpty, List.isEmpty_iff] at hempty
    have hmem := OrderedMap.mem_entries_of_get? hleft
    rw [hempty] at hmem
    cases hmem
  · cases hr

/-- Whether a variable that a rule writes is kept: it occurs in a content, or in what was written
last beside the cells of a cell inside which the configuration has a cell with content. -/
def Kept (tree : CellTree) (ps : List Piece) (x : String) : Prop :=
  (∃ tag body, .content tag body ∈ ps ∧ x ∈ body.variableNames) ∨
    ∃ parent t, lastBeside parent ps = some t ∧ x ∈ t.variableNames ∧
      ∃ tag body, .content tag body ∈ ps ∧ tree.Inside parent tag.name

theorem mem_variableNames_of_terms {t : Term} (ht : t ∈ r.terms) {x : String}
    (hx : x ∈ t.variableNames) : x ∈ r.variableNames :=
  OrderedSet.mem_ofList.2 (List.mem_flatMap.2 ⟨t, ht, hx⟩)

/-- The variables of a rule that its placed body has. -/
theorem mem_variableNames_of_resolveRule {configuration : Term}
    (ht : CellTree.ofTerm configuration = .ok tree) (hfunction : d.isFunctionRule r = false)
    (hr : resolveRule tree d r = .ok r') {x : String} (hx : x ∈ r.body.variableNames) :
    x ∈ r'.body.variableNames ↔ Kept tree (pieces tree r.body) x := by
  obtain ⟨l, hl⟩ := CellTree.laidOut_ofTerm ht
  obtain ⟨f, hf, rfl, hplaced⟩ := placed_of_resolveRule hl hfunction hr
  obtain ⟨hreads, hcells⟩ := reads_of_fragmentsOf hf
  have htaken : x ∈ f.names.taken := by
    rw [hreads.names]
    exact mem_variableNames_of_terms List.mem_cons_self hx
  have hplacedContent : ∀ tag body, .content tag body ∈ pieces tree r.body →
      f.cells.get? tag.name = some (tag, body) ∧ tag.name ∈ placed f l := by
    intro tag body hpiece
    have hget := hreads.get?_cells.2 ⟨hpiece, rfl⟩
    exact ⟨hget, hplaced _ (OrderedMap.contains_iff.2 ⟨_, hget⟩)⟩
  have hholds : holds f l = true := by
    obtain ⟨e, he⟩ := List.exists_mem_of_ne_nil f.cells.entries fun hnil => by
      rw [OrderedMap.isEmpty, hnil] at hcells
      cases hcells
    have hwritten := OrderedMap.contains_iff.2 ⟨_, OrderedMap.get?_eq_some_iff.2 he⟩
    exact holds_iff.2 ⟨_, placed_subset f l _ (hplaced _ hwritten), hwritten⟩
  rw [mem_variableNames_place l htaken]
  constructor
  · rintro (⟨name, -, e, he, hxe⟩ | ⟨parent, hparent, t, hrest, hxt⟩)
    · exact .inl ⟨e.1, e.2, (hreads.get?_cells.1 he).1, hxe⟩
    · obtain ⟨inner, hinner, habove⟩ := above_of_passed hholds hparent
      obtain ⟨e, he⟩ := OrderedMap.contains_iff.1 hinner
      obtain ⟨hpiece, rfl⟩ := hreads.get?_cells.1 he
      rw [hreads.get?_rest] at hrest
      exact .inr ⟨parent, t, hrest, hxt, e.1, e.2, hpiece, hl.inside_iff.2 habove⟩
  · rintro (⟨tag, body, hpiece, hxe⟩ | ⟨parent, t, hrest, hxt, tag, body, hpiece, hinside⟩)
    · obtain ⟨hget, hmem⟩ := hplacedContent tag body hpiece
      exact .inl ⟨tag.name, hmem, _, hget, hxe⟩
    · obtain ⟨-, hmem⟩ := hplacedContent tag body hpiece
      have hpassed := passed_of_above hl.nodup (hl.inside_iff.1 hinside) hmem
      rw [← hreads.get?_rest] at hrest
      exact .inr ⟨parent, hpassed, t, hrest, hxt⟩

/-- A cell without cells inside stands in the placed body, with its content between new variables at
most. -/
theorem exists_cell_of_resolveRule {configuration : Term}
    (ht : CellTree.ofTerm configuration = .ok tree) (hfunction : d.isFunctionRule r = false)
    (hr : resolveRule tree d r = .ok r') {tag : CellTag} {body : Term}
    (hcell : .cell tag body ∈ r.body.subterms) (hplain : holdsCells body = false) :
    ∃ tag' content, tag'.name = tag.name ∧ tag'.attributes = tag.attributes ∧
      .cell tag' content ∈ r'.body.subterms ∧ body.sequenceItems <:+: content.sequenceItems := by
  obtain ⟨l, hl⟩ := CellTree.laidOut_ofTerm ht
  obtain ⟨f, hf, rfl, hplaced⟩ := placed_of_resolveRule hl hfunction hr
  obtain ⟨hreads, -⟩ := reads_of_fragmentsOf hf
  have hexists : ∀ tag body, .content tag body ∈ pieces tree r.body → ∃ content,
      .cell ⟨tag.name, tag.attributes, false, false⟩ content ∈
        (place f l f.names).1.subterms ∧ body.sequenceItems <:+: content.sequenceItems := by
    intro tag body hpiece
    have hget := hreads.get?_cells.2 ⟨hpiece, rfl⟩
    exact exists_cell_of_placed hget l (hplaced _ (OrderedMap.contains_iff.2 ⟨_, hget⟩))
  rcases hreads.inner tag body ⟨_, List.mem_cons_self, hcell⟩ hplain with
    hpiece | ⟨tag', body', hpiece, hcell⟩
  · obtain ⟨content, hmem, hwithin⟩ := hexists tag body hpiece
    exact ⟨⟨tag.name, tag.attributes, false, false⟩, content, rfl, rfl, hmem, hwithin⟩
  · obtain ⟨content, hmem, hwithin⟩ := hexists tag' body' hpiece
    obtain ⟨u, hu, hcell⟩ := Term.exists_mem_sequenceItems hcell
    have hcontent := Term.mem_subterms_of_sequenceItems (hwithin.subset hu) hcell
    have hinner : .cell tag body ∈
        (Term.cell ⟨tag'.name, tag'.attributes, false, false⟩ content).subterms :=
      Term.mem_subterms_of_child List.mem_cons_self hcontent
    exact ⟨tag, body, rfl, rfl, Term.subterms_trans hmem hinner, List.infix_rfl⟩

/-- What concretization keeps of a rule. It keeps all of a rule of a function. Of another rule it
keeps a variable exactly if the walk down the configuration comes by it; every cell that holds no
cells is kept under its name and attributes, with its content in one piece. -/
theorem resolveRule_keeps {configuration : Term} (ht : CellTree.ofTerm configuration = .ok tree)
    (hr : resolveRule tree d r = .ok r') :
    (∀ x ∈ r.body.variableNames, x ∈ r'.body.variableNames ↔
      d.isFunctionRule r = true ∨ Kept tree (pieces tree r.body) x) ∧
    ∀ tag body, .cell tag body ∈ r.body.subterms → holdsCells body = false →
      ∃ tag' content, tag'.name = tag.name ∧ tag'.attributes = tag.attributes ∧
        .cell tag' content ∈ r'.body.subterms ∧ body.sequenceItems <:+: content.sequenceItems := by
  cases hfunction : d.isFunctionRule r with
  | true =>
    rw [resolveRule, hfunction, if_pos rfl] at hr
    cases hr
    refine ⟨fun x hx => by simp [hx], fun tag body hcell _ => ?_⟩
    exact ⟨tag, body, rfl, rfl, hcell, List.infix_rfl⟩
  | false =>
    constructor
    · intro x hx
      rw [mem_variableNames_of_resolveRule ht hfunction hr hx]
      simp
    · intro tag body hcell hplain
      exact exists_cell_of_resolveRule ht hfunction hr hcell hplain

/-! ## Variables that are lost -/

/-- A configuration with a computation and, beside it, a group of one more cell. -/
def groupedConfiguration : Term :=
  .closedCell "T" (.bag [.closedCell "k" (.seq []), .closedCell "g" (.closedCell "h" (.seq []))])

/-- The cell tree of the configuration with a group. -/
def groupedTree : CellTree :=
  ⟨"T", .ofList [("T", ⟨"T", none, ["k", "g"], none, ∅⟩),
    ("k", ⟨"k", some "T", [], some (.seq []), ∅⟩), ("g", ⟨"g", some "T", ["h"], none, ∅⟩),
    ("h", ⟨"h", some "g", [], some (.seq []), ∅⟩)]⟩

/-- A definition without sentences. -/
def emptyDefinition : Definition :=
  ⟨"M", .insert ∅ "M" (.ofName "M"), ∅, ModuleMap.named_empty.insert (.ofName "M"), by cbv⟩

/-- A rule that writes two variables beside the computation. -/
def twoRests : Rule :=
  .ofBody (.closedCell "T" (.bag [.ofName "X", .ofName "Y", .closedCell "k" (.constant "a")]))

/-- A rule that writes the computation into the group, where the configuration has no computation,
and a variable beside it. -/
def strayRest : Rule :=
  .ofBody (.closedCell "g" (.bag [.ofName "R", .closedCell "k" (.constant "a")]))

theorem ofTerm_groupedConfiguration : CellTree.ofTerm groupedConfiguration = .ok groupedTree := by
  decide

theorem resolveRule_twoRests : resolveRule groupedTree emptyDefinition twoRests = .ok
    (.ofBody (.closedCell "T" (.bag [.closedCell "k" (.constant "a"), .ofName "Y"]))) := by
  cbv

theorem resolveRule_strayRest : resolveRule groupedTree emptyDefinition strayRest = .ok
    (.ofBody (.closedCell "T" (.bag [.closedCell "k" (.constant "a"), .ofName "DotVar0"]))) := by
  cbv

/-- What is kept of two variables beside the same cell: the second one. -/
theorem kept_of_twoRests :
    Kept groupedTree (pieces groupedTree twoRests.body) "Y" ∧
      ¬ Kept groupedTree (pieces groupedTree twoRests.body) "X" := by
  obtain ⟨hkept, -⟩ := resolveRule_keeps ofTerm_groupedConfiguration resolveRule_twoRests
  have hfunction : emptyDefinition.isFunctionRule twoRests = false := by cbv
  constructor
  · simpa [hfunction] using (hkept "Y" (by decide)).1 (by decide)
  · intro h
    have hmem := (hkept "X" (by decide)).2 (.inr h)
    revert hmem
    decide

/-- A variable is lost where another one is written beside the same cell, and where the cell around
it has no content inside it in the configuration. -/
theorem exists_variable_lost :
    (∃ r', resolveRule groupedTree emptyDefinition twoRests = .ok r' ∧
      "X" ∈ twoRests.body.variableNames ∧ "X" ∉ r'.body.variableNames) ∧
    ∃ r', resolveRule groupedTree emptyDefinition strayRest = .ok r' ∧
      "R" ∈ strayRest.body.variableNames ∧ "R" ∉ r'.body.variableNames :=
  ⟨⟨_, resolveRule_twoRests, by decide, by decide⟩,
    ⟨_, resolveRule_strayRest, by decide, by decide⟩⟩

end RewriteSemantics.Concretization
