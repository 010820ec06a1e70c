/-
# The shape of a placed rule

A placed body follows the configuration, whatever way the rule has written its cells. A cell that
the rule gave content to holds this content, with a variable on each side that was open. Any other
cell that is met on the way down holds those of its children inside of which there is content, in
the order of the configuration, and at most one variable beside them: the one that the rule wrote
there, or else a new one if a child is left out.

The shape is stated over the configuration and the pieces of the rule alone. That a body placed
along a layout has it is shown by recursion on the layout.
-/
import RewriteSemantics.Proofs.Concretization.Stock

namespace RewriteSemantics.Concretization

open Layout
open FreshNames (Draws)

variable {tree : CellTree} {ps : List Piece}

/-! ## Shapes -/

/-- Whether a rule gives content to a cell or to one inside it. -/
def HoldsContent (tree : CellTree) (ps : List Piece) (name : String) : Prop :=
  ∃ tag body, .content tag body ∈ ps ∧ (tag.name = name ∨ tree.Inside name tag.name)

/-- Some cells of a configuration have been built, each to a term. With them go the names of all
cells that are met in the terms on the way down, and those of the new variables in them. -/
inductive Shaped (tree : CellTree) (ps : List Piece) :
    List String → List Term → List String → List String → Prop
  | nil : Shaped tree ps [] [] [] []
  /-- A cell that the rule gave content to. -/
  | content {tag : CellTag} {body content : Term} {left right : List String}
      {others : List String} {ts : List Term} {met new : List String} :
    .content tag body ∈ ps → Closes tag body left right content → Shaped tree ps others ts met new →
      Shaped tree ps (tag.name :: others)
        (.cell ⟨tag.name, tag.attributes, false, false⟩ content :: ts)
        (tag.name :: met) (left ++ right ++ new)
  /-- Any other cell, with the children that are kept. -/
  | children {name : String} {kept : List String} {items beside : List Term}
      {metInside newInside dot : List String}
      {others : List String} {ts : List Term} {met new : List String} :
    (∀ tag body, .content tag body ∈ ps → tag.name ≠ name) →
    kept.Sublist (tree.children name) → kept.Nodup →
    (∀ child ∈ tree.children name, child ∈ kept ↔ HoldsContent tree ps child) →
    Shaped tree ps kept items metInside newInside →
    Beside (lastBeside name ps) (∃ child ∈ tree.children name, child ∉ kept) beside dot →
    Shaped tree ps others ts met new →
      Shaped tree ps (name :: others) (.closedCell name (contentOf (items ++ beside)) :: ts)
        (name :: metInside ++ met) (newInside ++ dot ++ new)

/-- Some cells have been built in their shape, with new variables from a supply of names. The cells
that are met lie within given ones, in the same order, and given contents are among them. -/
def Built (tree : CellTree) (ps : List Piece) (cells : List String) (ts : List Term)
    (names names' : FreshNames) (within placed : List String) : Prop :=
  ∃ met new, Shaped tree ps cells ts met new ∧ Draws dotStem names new names' ∧ met.Sublist within ∧
    ∀ x ∈ placed, x ∈ met

namespace Built

variable {others within placed : List String} {ts : List Term} {names names' names'' : FreshNames}

theorem nil (names : FreshNames) : Built tree ps [] [] names names [] [] :=
  ⟨[], [], .nil, .refl _ names, .slnil, fun _ hx => (nomatch hx)⟩

theorem skip (h : Built tree ps others ts names names' within placed) (inner : List String) :
    Built tree ps others ts names names' (inner ++ within) placed := by
  obtain ⟨met, new, hshaped, hdraws, hmet, hplaced⟩ := h
  exact ⟨met, new, hshaped, hdraws, hmet.trans (List.sublist_append_right _ _), hplaced⟩

theorem content {tag : CellTag} {body content : Term} {left right : List String}
    (hmem : .content tag body ∈ ps) (hcloses : Closes tag body left right content)
    (hdraws : Draws dotStem names (left ++ right) names')
    (h : Built tree ps others ts names' names'' within placed) (inner : List String) :
    Built tree ps (tag.name :: others)
      (.cell ⟨tag.name, tag.attributes, false, false⟩ content :: ts)
      names names'' ((tag.name :: inner) ++ within) ([tag.name] ++ placed) := by
  obtain ⟨met, new, hshaped, hdraws', hmet, hplaced⟩ := h
  refine ⟨_, _, .content hmem hcloses hshaped, hdraws.append hdraws', ?_, ?_⟩
  · exact (hmet.trans (List.sublist_append_right _ _)).cons_cons tag.name
  · exact List.forall_mem_cons.2 ⟨List.mem_cons_self,
      fun x hx => List.mem_cons_of_mem _ (hplaced x hx)⟩

theorem children {name : String} {kept dot inner placedInside : List String}
    {items beside : List Term} {supply supply' : FreshNames}
    (hnone : ∀ tag body, .content tag body ∈ ps → tag.name ≠ name)
    (hsublist : kept.Sublist (tree.children name)) (hnodup : kept.Nodup)
    (hkept : ∀ child ∈ tree.children name, child ∈ kept ↔ HoldsContent tree ps child)
    (hinside : Built tree ps kept items names supply inner placedInside)
    (hbeside : Beside (lastBeside name ps) (∃ child ∈ tree.children name, child ∉ kept) beside dot)
    (hdraws : Draws dotStem supply dot supply')
    (h : Built tree ps others ts supply' names' within placed) :
    Built tree ps (name :: others) (.closedCell name (contentOf (items ++ beside)) :: ts)
      names names' ((name :: inner) ++ within) (placedInside ++ placed) := by
  obtain ⟨metInside, newInside, hshapedInside, hdrawsInside, hmetInside, hplacedInside⟩ := hinside
  obtain ⟨met, new, hshaped, hdraws', hmet, hplaced⟩ := h
  refine ⟨_, _, .children hnone hsublist hnodup hkept hshapedInside hbeside hshaped,
    (hdrawsInside.append hdraws).append hdraws', (hmetInside.append hmet).cons_cons name, ?_⟩
  intro x hx
  rcases List.mem_append.1 hx with hx | hx
  · exact List.mem_cons_of_mem _ (List.mem_append_left _ (hplacedInside x hx))
  · exact List.mem_cons_of_mem _ (List.mem_append_right _ (hplaced x hx))

end Built

/-! ## Contents of a layout -/

section

variable {f : Fragments} {names : FreshNames} {ts : List Term} {l : Layout}

/-- A stock has content for a layout exactly if the rule gives some to its outermost cell or inside
it. -/
theorem holds_iff_holdsContent (hreads : Reads ⟨∅, ∅, names⟩ f ts ps) (hfits : l.Fits tree.cells) :
    holds f l = true ↔ HoldsContent tree ps l.name := by
  rw [holds_iff]
  constructor
  · rintro ⟨x, hx, hwritten⟩
    obtain ⟨e, he⟩ := OrderedMap.contains_iff.1 hwritten
    obtain ⟨hmem, rfl⟩ := hreads.get?_cells.1 he
    exact ⟨e.1, e.2, hmem, (CellTree.mem_names_iff hfits).1 hx⟩
  · rintro ⟨tag, body, hmem, hname⟩
    have hget := hreads.get?_cells.2 ⟨hmem, rfl⟩
    exact ⟨tag.name, (CellTree.mem_names_iff hfits).2 hname, OrderedMap.contains_iff.2 ⟨_, hget⟩⟩

/-- The names of the outermost cells of some layouts are distinct. -/
theorem nodup_map_name {ls : List Layout} (h : (namesAll ls).Nodup) :
    (ls.map Layout.name).Nodup := by
  induction ls with
  | nil => exact .nil
  | cons l ls ih =>
    obtain ⟨-, hls, hdisjoint⟩ := List.nodup_append.1 h
    refine List.nodup_cons.2 ⟨fun hmem => ?_, ih hls⟩
    obtain ⟨m, hm, hname⟩ := List.mem_map.1 hmem
    have hmemAll : m.name ∈ namesAll ls := mem_namesAll.2 ⟨m, hm, m.name_mem_names⟩
    exact hdisjoint l.name l.name_mem_names m.name hmemAll hname.symm

end

/-! ## Placed bodies -/

/-- The names of those of some layouts that content is placed into. -/
def keptNames (f : Fragments) (ls : List Layout) : List String :=
  (ls.filter (holds f)).map Layout.name

theorem keptNames_sublist (f : Fragments) (ls : List Layout) :
    (keptNames f ls).Sublist (ls.map Layout.name) :=
  List.filter_sublist.map _

section

variable {f : Fragments} {supply : FreshNames} {ts : List Term}

theorem mem_keptNames {ls : List Layout} (hreads : Reads ⟨∅, ∅, supply⟩ f ts ps)
    (hfits : ∀ l ∈ ls, l.Fits tree.cells) {name : String} (hname : name ∈ ls.map Layout.name) :
    name ∈ keptNames f ls ↔ HoldsContent tree ps name := by
  constructor
  · intro hkept
    obtain ⟨l, hl, rfl⟩ := List.mem_map.1 hkept
    obtain ⟨hmem, hholds⟩ := List.mem_filter.1 hl
    exact (holds_iff_holdsContent hreads (hfits l hmem)).1 hholds
  · intro hcontent
    obtain ⟨l, hl, rfl⟩ := List.mem_map.1 hname
    have hholds := (holds_iff_holdsContent hreads (hfits l hl)).2 hcontent
    exact List.mem_map_of_mem (List.mem_filter.2 ⟨hl, hholds⟩)

/-- A child is missing exactly if the stock has nothing for one of the layouts. -/
theorem missing_iff {ls : List Layout} (hreads : Reads ⟨∅, ∅, supply⟩ f ts ps)
    (hfits : ∀ l ∈ ls, l.Fits tree.cells) :
    ls.any (!holds f ·) = true ↔ ∃ child ∈ ls.map Layout.name, child ∉ keptNames f ls := by
  have hkept : ∀ l ∈ ls, (!holds f l) = true ↔ l.name ∉ keptNames f ls := by
    intro l hl
    rw [mem_keptNames hreads hfits (List.mem_map_of_mem hl),
      ← holds_iff_holdsContent hreads (hfits l hl)]
    simp
  rw [List.any_eq_true]
  constructor
  · rintro ⟨l, hl, hmissing⟩
    exact ⟨l.name, List.mem_map_of_mem hl, (hkept l hl).1 hmissing⟩
  · rintro ⟨_, hname, hmissing⟩
    obtain ⟨l, hl, rfl⟩ := List.mem_map.1 hname
    exact ⟨l, hl, (hkept l hl).2 hmissing⟩

theorem place_of_content {name : String} {children : List Layout} {tag : CellTag} {body : Term}
    (h : f.cells.get? name = some (tag, body)) (names : FreshNames) :
    place f (.node name children) names = ((close tag body { f with names := names }).1,
      (close tag body { f with names := names }).2.names) := by
  rw [place, h]

theorem place_of_children {name : String} {children : List Layout}
    (h : f.cells.get? name = none) (names : FreshNames) :
    place f (.node name children) names =
      (.closedCell name (contentOf ((placeAll f children names).1 ++
        (besideChildren name (children.any (!holds f ·))
          { f with names := (placeAll f children names).2 }).1)),
      (besideChildren name (children.any (!holds f ·))
        { f with names := (placeAll f children names).2 }).2.names) := by
  rw [place, h]

/-- The bodies placed along some layouts have the shape of their cells. Every placed content is met,
and the new variables are drawn from the names that were free. -/
theorem built_placeAll (hreads : Reads ⟨∅, ∅, supply⟩ f ts ps) (hf : f.Sound tree) :
    ∀ (ls : List Layout) (names : FreshNames), (∀ l ∈ ls, l.Fits tree.cells) →
      (namesAll ls).Nodup → Built tree ps (keptNames f ls) (placeAll f ls names).1 names
        (placeAll f ls names).2 (namesAll ls) (placedAll f ls)
  | [], names, _, _ => .nil names
  | .node name children :: others, names, hfits, hnodup => by
    obtain ⟨hhead, hothers⟩ := List.forall_mem_cons.1 hfits
    obtain ⟨hnode, hnodupOthers, -⟩ := List.nodup_append.1 hnodup
    obtain ⟨-, hnodupChildren⟩ := nodup_node hnode
    rw [keptNames, placeAll, placedAll, namesAll]
    cases hholds : holds f (.node name children) with
    | false =>
      -- Nothing goes into the first layout, and its cell is not met.
      rw [placed_of_not_holds hholds, List.filter_cons_of_neg (by simp [hholds]), if_neg (by simp)]
      exact (built_placeAll hreads hf others names hothers hnodupOthers).skip _
    | true =>
      have htail := built_placeAll hreads hf others (place f (.node name children) names).2 hothers
        hnodupOthers
      rw [List.filter_cons_of_pos hholds, if_pos rfl, placed, OrderedMap.contains]
      cases hwritten : f.cells.get? name with
      | some e =>
        -- The rule gave content to the cell, so what is inside it is not looked at.
        obtain ⟨tag, body⟩ := e
        obtain ⟨hmem, rfl⟩ := hreads.get?_cells.1 hwritten
        obtain ⟨left, right, content, hcell, hcloses, hdraws⟩ :=
          exists_closes tag body { f with names := names }
        rw [place_of_content hwritten] at htail ⊢
        dsimp only
        rw [hcell]
        exact .content hmem hcloses hdraws htail (namesAll children)
      | none =>
        -- The content is further down: the children come first, then what is beside them.
        have hfitsInside : ∀ l ∈ children, l.Fits tree.cells :=
          fun l hl => CellTree.fits_of_mem hhead hl
        have hchildren := CellTree.children_of_fits hhead
        have hnone : ∀ tag body, .content tag body ∈ ps → tag.name ≠ name := by
          rintro tag body hmem rfl
          have hget := hreads.get?_cells.2 ⟨hmem, rfl⟩
          rw [hwritten] at hget
          cases hget
        have hinside := built_placeAll hreads hf children names hfitsInside hnodupChildren
        obtain ⟨dot, hbeside, hdraws⟩ := exists_beside (children.any (!holds f ·))
          (placeAll f children names).2 (hf.rest name)
        rw [hreads.get?_rest, missing_iff hreads hfitsInside, ← hchildren] at hbeside
        rw [place_of_children hwritten] at htail ⊢
        exact .children hnone (hchildren ▸ keptNames_sublist f children)
          ((nodup_map_name hnodupChildren).sublist (keptNames_sublist f children))
          (fun child hchild => mem_keptNames hreads hfitsInside (hchildren ▸ hchild))
          hinside hbeside hdraws htail
termination_by ls => sizeOf ls

end

/-! ## Rules -/

variable {d : Definition} {r r' : Rule}

/-- A stock that is not empty and is placed into a layout has something for it. -/
theorem holds_of_placed {f : Fragments} {l : Layout} (hcells : f.cells.isEmpty = false)
    (hplaced : ∀ name, f.cells.contains name = true → name ∈ placed f l) : holds f l = true := by
  by_contra hnone
  have hempty : f.cells.isEmpty = true := by
    refine OrderedMap.isEmpty_iff.2 fun name => ?_
    rw [OrderedMap.get?_eq_none_iff]
    intro hwritten
    exact hnone (holds_iff.2 ⟨name, placed_subset f l name (hplaced name hwritten), hwritten⟩)
  rw [hempty] at hcells
  cases hcells

/-- The body of a placed rule is built in the shape of the outermost cell, with all contents and
with variables that the rule does not have. -/
theorem built_of_resolveRule {configuration : Term} (ht : CellTree.ofTerm configuration = .ok tree)
    (hfunction : d.isFunctionRule r = false) (hr : resolveRule tree d r = .ok r') :
    ∃ names within placed, Built tree (pieces tree r.body) [tree.top] [r'.body]
        (.avoiding r.variableNames) names within placed ∧ within.Nodup ∧
      ∀ tag body, .content tag body ∈ pieces tree r.body → tag.name ∈ placed := by
  obtain ⟨l, hl⟩ := CellTree.laidOut_ofTerm ht
  obtain ⟨f, hf, rfl, hplaced⟩ := placed_of_resolveRule hl hfunction hr
  obtain ⟨hreads, hcells⟩ := reads_of_fragmentsOf hf
  have hholds := holds_of_placed hcells hplaced
  have hnames : namesAll [l] = l.names := List.append_nil _
  have hbuilt := built_placeAll hreads (sound_of_fragmentsOf hf) [l] f.names
    (List.forall_mem_singleton.2 hl.fits) (hnames ▸ hl.nodup)
  have hkept : keptNames f [l] = [tree.top] := by
    rw [keptNames, List.filter_cons_of_pos hholds, ← hl.top]
    rfl
  have hbody : (placeAll f [l] f.names).1 = [(place f l f.names).1] := by
    rw [placeAll, if_pos hholds]
    rfl
  have hsupply : f.names = .avoiding r.variableNames := hreads.names
  rw [hkept, hbody, hnames] at hbuilt
  rw [← hsupply]
  refine ⟨_, _, _, hbuilt, hl.nodup, fun tag body hmem => ?_⟩
  have hwritten := OrderedMap.contains_iff.2 ⟨_, hreads.get?_cells.2 ⟨hmem, rfl⟩⟩
  rw [placedAll, placedAll, List.append_nil]
  exact hplaced _ hwritten

/-- A rule gives content to a cell once, and if it holds cells then to a leaf only. -/
structure Contents (tree : CellTree) (ps : List Piece) : Prop where
  once : ∀ tag body tag' body', .content tag body ∈ ps → .content tag' body' ∈ ps →
    tag.name = tag'.name → tag = tag' ∧ body = body'
  plain : ∀ tag body, .content tag body ∈ ps → tree.isLeaf tag.name = true ∨ holdsCells body = false

theorem contents_of_fragmentsOf {f : Fragments} (h : fragmentsOf tree r = .ok f) :
    Contents tree (pieces tree r.body) := by
  obtain ⟨hreads, -⟩ := reads_of_fragmentsOf h
  constructor
  · intro tag body tag' body' hmem hmem' hname
    have hget := hreads.get?_cells.2 ⟨hmem, hname⟩
    have hget' := hreads.get?_cells.2 ⟨hmem', rfl⟩
    rw [hget] at hget'
    cases hget'
    exact ⟨rfl, rfl⟩
  · intro tag body hmem
    exact (sound_of_fragmentsOf h).plain _ _ (hreads.get?_cells.2 ⟨hmem, rfl⟩)

/-- What a rule looks like that has been placed into a configuration and belongs to no function. Its
body is the outermost cell. No cell is met twice, and every cell that the rule gave content to is
met. The new variables are distinct, and the rule did not have them. -/
theorem exists_shaped_of_resolveRule {configuration : Term}
    (ht : CellTree.ofTerm configuration = .ok tree) (hfunction : d.isFunctionRule r = false)
    (hr : resolveRule tree d r = .ok r') :
    Contents tree (pieces tree r.body) ∧ ∃ met new,
      Shaped tree (pieces tree r.body) [tree.top] [r'.body] met new ∧ met.Nodup ∧
      (∀ tag body, .content tag body ∈ pieces tree r.body → tag.name ∈ met) ∧
      new.Nodup ∧ ∀ x ∈ new, x ∉ r.variableNames := by
  obtain ⟨names, within, placed, ⟨met, new, hshaped, hdraws, hmet, hplaced⟩, hnodup, hcontents⟩ :=
    built_of_resolveRule ht hfunction hr
  constructor
  · obtain ⟨l, hl⟩ := CellTree.laidOut_ofTerm ht
    obtain ⟨f, hf, -⟩ := placed_of_resolveRule hl hfunction hr
    exact contents_of_fragmentsOf hf
  · exact ⟨met, new, hshaped, hnodup.sublist hmet,
      fun tag body hmem => hplaced _ (hcontents tag body hmem), hdraws.nodup, hdraws.free⟩

/-- A rule that writes the cell inside the group only, and leaves its content open. -/
def groupRule : Rule :=
  .ofBody (.openCell "h" (.constant "b"))

theorem resolveRule_groupRule : resolveRule groupedTree emptyDefinition groupRule = .ok
    (.ofBody (.closedCell "T" (.bag [.closedCell "g" (.closedCell "h"
      (.seq [.constant "b", .ofName "DotVar0"])), .ofName "DotVar1"]))) := by
  cbv

theorem exists_shaped_groupRule : CellTree.ofTerm groupedConfiguration = .ok groupedTree ∧
    emptyDefinition.isFunctionRule groupRule = false ∧
    ∃ r', resolveRule groupedTree emptyDefinition groupRule = .ok r' ∧
      Contents groupedTree (pieces groupedTree groupRule.body) ∧ ∃ met new,
        Shaped groupedTree (pieces groupedTree groupRule.body) [groupedTree.top] [r'.body] met new ∧
        met.Nodup ∧
        (∀ tag body, .content tag body ∈ pieces groupedTree groupRule.body → tag.name ∈ met) ∧
        new.Nodup ∧ ∀ x ∈ new, x ∉ groupRule.variableNames := by
  have hfunction : emptyDefinition.isFunctionRule groupRule = false := by cbv
  exact ⟨ofTerm_groupedConfiguration, hfunction, _, resolveRule_groupRule,
    exists_shaped_of_resolveRule ofTerm_groupedConfiguration hfunction resolveRule_groupRule⟩

end RewriteSemantics.Concretization
