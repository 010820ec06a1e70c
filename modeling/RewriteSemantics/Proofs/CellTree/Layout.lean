/-
# Layouts of cells

A cell tree keeps its cells in a map, so a walk down the tree looks up each child by name. A layout
is the nesting itself, as an inductive tree, and a walk down a layout is a structural recursion. The
cell tree of a configuration fits the layout of its declarations, the names of which are distinct
and are all the names of the tree.
-/
import Mathlib.Data.List.Nodup
import Mathlib.Logic.Relation
import RewriteSemantics.Proofs.CellTree.Declarations

namespace RewriteSemantics

/-- The nesting of cells, by name. -/
inductive Layout where
  | node (name : String) (children : List Layout)

namespace Layout

/-- Induction over layouts, with a hypothesis for each child. -/
theorem induct {motive : Layout → Prop}
    (node : ∀ name children, (∀ l ∈ children, motive l) → motive (.node name children))
    (l : Layout) : motive l :=
  Layout.rec (motive_1 := motive) (motive_2 := fun ls => ∀ l ∈ ls, motive l) node
    (fun _ h => nomatch h)
    (fun _ _ head tail _ h => (List.mem_cons.1 h).elim (fun e => e ▸ head) (tail _)) l

/-! ## Names -/

/-- The name of the outermost cell. -/
def name : Layout → String
  | node name _ => name

mutual

/-- The names of all cells, each before those inside it. -/
def names : Layout → List String
  | node name children => name :: namesAll children

/-- The names of all cells of some layouts. -/
def namesAll : List Layout → List String
  | [] => []
  | l :: ls => names l ++ namesAll ls

end

theorem mem_namesAll {ls : List Layout} {x : String} :
    x ∈ namesAll ls ↔ ∃ l ∈ ls, x ∈ l.names := by
  induction ls with
  | nil => simp [namesAll]
  | cons l ls ih => simp [namesAll, ih]

theorem name_mem_names (l : Layout) : l.name ∈ l.names := by
  cases l
  exact List.mem_cons_self

/-- The names inside a cell, in each of its children: distinct, and not the name of the cell. -/
theorem nodup_node {name : String} {children : List Layout}
    (h : (node name children).names.Nodup) : name ∉ namesAll children ∧ (namesAll children).Nodup :=
  List.nodup_cons.1 h

theorem nodup_of_mem {ls : List Layout} (h : (namesAll ls).Nodup) {l : Layout} (hl : l ∈ ls) :
    l.names.Nodup := by
  induction ls with
  | nil => nomatch hl
  | cons m ls ih =>
    obtain ⟨hm, hls, -⟩ := List.nodup_append.1 h
    rcases List.mem_cons.1 hl with rfl | hl
    · exact hm
    · exact ih hls hl

/-- Of some layouts with distinct names, only one has a given name. -/
theorem eq_of_mem_names {ls : List Layout} (h : (namesAll ls).Nodup) {l m : Layout} (hl : l ∈ ls)
    (hm : m ∈ ls) {x : String} (hxl : x ∈ l.names) (hxm : x ∈ m.names) : l = m := by
  induction ls with
  | nil => nomatch hl
  | cons n ls ih =>
    obtain ⟨-, hls, hdisjoint⟩ := List.nodup_append.1 h
    rcases List.mem_cons.1 hl with rfl | hl'
    · rcases List.mem_cons.1 hm with rfl | hm'
      · rfl
      · exact absurd rfl (hdisjoint x hxl x (mem_namesAll.2 ⟨m, hm', hxm⟩))
    · rcases List.mem_cons.1 hm with rfl | hm'
      · exact absurd rfl (hdisjoint x hxm x (mem_namesAll.2 ⟨l, hl', hxl⟩))
      · exact ih hls hl' hm'

/-! ## Fitting a map of cells -/

/-- A map of cells has the cells of a layout, with the children that the layout gives them. -/
inductive Fits (cells : CellTree.Cells) : Layout → Prop
  | node {name : String} {children : List Layout} {info : CellInfo} :
    cells.get? name = some info → info.children = children.map Layout.name →
      (∀ l ∈ children, Fits cells l) → Fits cells (.node name children)

/-- Only the cells of the names of a layout matter for it to fit. -/
theorem Fits.congr {cells cells' : CellTree.Cells} {l : Layout} (h : l.Fits cells)
    (hsame : ∀ x ∈ l.names, cells'.get? x = cells.get? x) : l.Fits cells' := by
  induction h with
  | @node name children info hget hchildren hfits ih =>
    have hget' : cells'.get? name = some info := by
      rw [hsame name List.mem_cons_self, hget]
    refine .node hget' hchildren fun l hl => ih l hl fun x hx => ?_
    exact hsame x (List.mem_cons_of_mem _ (mem_namesAll.2 ⟨l, hl, hx⟩))

/-- The cells of a layout that fits are declared. -/
theorem Fits.declared {cells : CellTree.Cells} {l : Layout} (h : l.Fits cells) {x : String}
    (hx : x ∈ l.names) : ∃ info, cells.get? x = some info := by
  induction h with
  | @node name children info hget hchildren hfits ih =>
    rcases List.mem_cons.1 hx with rfl | hx
    · exact ⟨info, hget⟩
    · obtain ⟨l, hl, hx⟩ := mem_namesAll.1 hx
      exact ih l hl hx

/-- Taking out a cell that a layout does not have leaves the layout as it is. -/
theorem Fits.erase {cells : CellTree.Cells} {l : Layout} (h : l.Fits cells) {name : String}
    (hname : name ∉ l.names) : l.Fits (cells.erase name) := by
  refine h.congr fun x hx => ?_
  have hne : x ≠ name := by
    rintro rfl
    exact hname hx
  rw [OrderedMap.get?_erase, if_neg hne]

/-! ## Above and below -/

/-- One cell of a layout lies around another. -/
inductive Above : Layout → String → String → Prop
  | here {name : String} {children : List Layout} {inner : String} :
    inner ∈ namesAll children → Above (.node name children) name inner
  | deeper {name : String} {children : List Layout} {l : Layout} {outer inner : String} :
    l ∈ children → Above l outer inner → Above (.node name children) outer inner

theorem Above.inner_mem {l : Layout} {outer inner : String} (h : Above l outer inner) :
    inner ∈ l.names := by
  induction h with
  | here h => exact List.mem_cons_of_mem _ h
  | deeper hl _ ih => exact List.mem_cons_of_mem _ (mem_namesAll.2 ⟨_, hl, ih⟩)

end Layout

/-! ## The layout of a configuration -/

namespace CellTree

open Layout

/-- A layout is that of a cell tree: it has the cells of the tree, each once, from the outermost one
down. -/
structure LaidOut (tree : CellTree) (l : Layout) : Prop where
  top : l.name = tree.top
  fits : l.Fits tree.cells
  nodup : l.names.Nodup
  declared : ∀ x, tree.contains x = true ↔ x ∈ l.names

/-- A layout has the nesting of some declarations of which a given cell is the outermost one. -/
structure IsLayoutOf (l : Layout) (name : String) (cs : List Declaration) : Prop where
  name : l.name = name
  names : l.names = cs.map Declaration.name
  fits : ∀ cells : Cells, (∀ c ∈ cs, cells.get? c.name = some c.info) → l.Fits cells

theorem exists_layouts {parent : Option String} {cs : List (CellTag × Term)}
    (h : ∀ c ∈ cs, ∃ l, IsLayoutOf l c.1.name (declarations parent c.1 c.2)) :
    ∃ ls : List Layout, ls.map Layout.name = cs.map (·.1.name) ∧
      namesAll ls = (cs.flatMap fun c => declarations parent c.1 c.2).map Declaration.name ∧
      ∀ cells : Cells, (∀ c ∈ cs, ∀ e ∈ declarations parent c.1 c.2,
        cells.get? e.name = some e.info) → ∀ l ∈ ls, l.Fits cells := by
  induction cs with
  | nil => exact ⟨[], rfl, rfl, fun _ _ l hl => absurd hl List.not_mem_nil⟩
  | cons c cs ih =>
    obtain ⟨⟨l, hl⟩, hrest⟩ := List.forall_mem_cons.1 h
    obtain ⟨ls, hname, hnames, hfits⟩ := ih hrest
    refine ⟨l :: ls, ?_, ?_, fun cells hcells m hm => ?_⟩
    · rw [List.map_cons, List.map_cons, hl.name, hname]
    · rw [namesAll, hl.names, hnames, List.flatMap_cons, List.map_append]
    · obtain ⟨hfirst, hothers⟩ := List.forall_mem_cons.1 hcells
      rcases List.mem_cons.1 hm with rfl | hm
      · exact hl.fits cells hfirst
      · exact hfits cells hothers m hm

/-- What a cell declares has a layout. -/
theorem exists_layout (parent : Option String) (tag : CellTag) (body : Term) :
    ∃ l, IsLayoutOf l tag.name (declarations parent tag body) := by
  induction body using induct_nested generalizing parent tag with
  | h body ih =>
    obtain ⟨ls, hname, hnames, hfits⟩ := exists_layouts fun c hc => ih c hc (some tag.name) c.1
    refine ⟨.node tag.name ls, rfl, ?_, fun cells hcells => ?_⟩
    · rw [declarations_eq, names, hnames]
      rfl
    · rw [declarations_eq, List.forall_mem_cons] at hcells
      obtain ⟨hcell, hinside⟩ := hcells
      refine .node hcell hname.symm (hfits cells fun c hc e he => ?_)
      exact hinside e (List.mem_flatMap.2 ⟨c, hc, he⟩)

/-- The cell tree of a configuration has a layout. -/
theorem laidOut_ofTerm {body : Term} {tree : CellTree} (h : ofTerm body = .ok tree) :
    ∃ l, tree.LaidOut l := by
  obtain ⟨tag, content, -, hadmits, rfl⟩ := ofTerm_eq_ok.1 h
  have hrecords := records_declare tag.name hadmits.distinct
  obtain ⟨l, hl⟩ := exists_layout none tag content
  refine ⟨l, hl.name, hl.fits _ fun c hc => hrecords.cell?_eq hc, hl.names ▸ hadmits.distinct, ?_⟩
  intro x
  rw [hrecords.contains_iff, hl.names, List.mem_map]

/-! ## Cells inside one another -/

/-- A cell lies inside another one: steps from a cell to one of its children lead to it. -/
def Inside (tree : CellTree) (outer inner : String) : Prop :=
  Relation.TransGen (fun cell child => child ∈ tree.children cell) outer inner

section

variable {tree : CellTree} {l : Layout}

theorem children_of_fits {name : String} {ls : List Layout}
    (h : (Layout.node name ls).Fits tree.cells) : tree.children name = ls.map Layout.name := by
  cases h with
  | node hget hchildren _ =>
    unfold children cell?
    rw [hget]
    exact hchildren

theorem fits_of_mem {name : String} {ls : List Layout} (h : (Layout.node name ls).Fits tree.cells)
    {l : Layout} (hl : l ∈ ls) : l.Fits tree.cells := by
  cases h with
  | node _ _ hfits => exact hfits l hl

/-- A child of a cell of a layout is a cell of the layout below it. -/
theorem above_of_child (h : l.Fits tree.cells) {cell child : String} (hcell : cell ∈ l.names)
    (hchild : child ∈ tree.children cell) : l.Above cell child := by
  induction l using Layout.induct with
  | node name ls ih =>
    rcases List.mem_cons.1 hcell with rfl | hcell
    · rw [children_of_fits h] at hchild
      obtain ⟨m, hm, rfl⟩ := List.mem_map.1 hchild
      exact .here (mem_namesAll.2 ⟨m, hm, m.name_mem_names⟩)
    · obtain ⟨m, hm, hcell⟩ := mem_namesAll.1 hcell
      exact .deeper hm (ih m hm (fits_of_mem h hm) hcell)

theorem above_child (h : l.Fits tree.cells) {outer cell child : String}
    (habove : l.Above outer cell) (hchild : child ∈ tree.children cell) : l.Above outer child := by
  induction habove with
  | here hcell =>
    obtain ⟨m, hm, hcell⟩ := mem_namesAll.1 hcell
    have hbelow := (above_of_child (fits_of_mem h hm) hcell hchild).inner_mem
    exact .here (mem_namesAll.2 ⟨m, hm, hbelow⟩)
  | deeper hm _ ih => exact .deeper hm (ih (fits_of_mem h hm) hchild)

theorem inside_of_mem (h : l.Fits tree.cells) {inner : String} (hinner : inner ∈ l.names) :
    inner = l.name ∨ tree.Inside l.name inner := by
  induction l using Layout.induct with
  | node name ls ih =>
    rcases List.mem_cons.1 hinner with rfl | hinner
    · exact .inl rfl
    · obtain ⟨m, hm, hinner⟩ := mem_namesAll.1 hinner
      have hchild : m.name ∈ tree.children name := by
        rw [children_of_fits h]
        exact List.mem_map.2 ⟨m, hm, rfl⟩
      rcases ih m hm (fits_of_mem h hm) hinner with rfl | hbelow
      · exact .inr (.single hchild)
      · exact .inr (.head hchild hbelow)

/-- The names of a layout are those of its outermost cell and of all cells inside. -/
theorem mem_names_iff (h : l.Fits tree.cells) {inner : String} :
    inner ∈ l.names ↔ inner = l.name ∨ tree.Inside l.name inner := by
  constructor
  · exact inside_of_mem h
  · rintro (rfl | hinside)
    · exact l.name_mem_names
    · induction hinside with
      | single hchild => exact (above_of_child h l.name_mem_names hchild).inner_mem
      | tail _ hchild ih => exact (above_of_child h ih hchild).inner_mem

/-- What lies inside a cell can be read off the layout. -/
theorem LaidOut.inside_iff (h : tree.LaidOut l) {outer inner : String} :
    tree.Inside outer inner ↔ l.Above outer inner := by
  constructor
  · intro hinside
    induction hinside with
    | @single child hchild =>
      refine above_of_child h.fits ?_ hchild
      rw [← h.declared, contains, OrderedMap.contains_iff]
      cases hget : tree.cells.get? outer with
      | none => simp [children, cell?, hget] at hchild
      | some info => exact ⟨info, rfl⟩
    | tail _ hchild ih => exact above_child h.fits ih hchild
  · intro habove
    have hfits := h.fits
    clear h
    induction habove with
    | @here name ls _ hinner =>
      obtain ⟨m, hm, hinner⟩ := mem_namesAll.1 hinner
      have hchild : m.name ∈ tree.children name := by
        rw [children_of_fits hfits]
        exact List.mem_map.2 ⟨m, hm, rfl⟩
      rcases inside_of_mem (fits_of_mem hfits hm) hinner with rfl | hbelow
      · exact .single hchild
      · exact .head hchild hbelow
    | deeper hm _ ih => exact ih (fits_of_mem hfits hm)

end

end CellTree

end RewriteSemantics
