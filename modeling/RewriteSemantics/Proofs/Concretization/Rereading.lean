/-
# Placed rules are placed already

A placed body can be read like any other. The reading finds the contents of the placed cells again,
closed by now, and beside the children of the passed cells the variables that have been put there.
So the stock is that of a rule that writes all there is, and placing it gives the same body.
-/
import RewriteSemantics.Proofs.Concretization.Reversal
import RewriteSemantics.Proofs.Concretization.Shape

namespace RewriteSemantics.Concretization

open Layout

variable {tree : CellTree}

/-! ## Reading cells again -/

/-- A stock has nothing for some cells. -/
def Fragments.Lacks (g : Fragments) (names : List String) : Prop :=
  ∀ x ∈ names, g.cells.get? x = none ∧ g.rest.get? x = none

/-- A stock has taken in something for some cells only. -/
def Fragments.TakesFor (g g' : Fragments) (names : List String) : Prop :=
  ∀ x, x ∉ names → g'.cells.get? x = g.cells.get? x ∧ g'.rest.get? x = g.rest.get? x

section

variable {g g' g'' : Fragments} {names names' : List String}

theorem Fragments.Lacks.mono (h : g.Lacks names) (hsub : ∀ x ∈ names', x ∈ names) :
    g.Lacks names' :=
  fun x hx => h x (hsub x hx)

/-- What has been taken in for other cells changes nothing. -/
theorem Fragments.Lacks.of_takesFor (h : g.Lacks names) (htakes : g.TakesFor g' names')
    (hdisjoint : ∀ x ∈ names, x ∉ names') : g'.Lacks names := by
  intro x hx
  obtain ⟨hcells, hrest⟩ := htakes x (hdisjoint x hx)
  rw [hcells, hrest]
  exact h x hx

theorem Fragments.TakesFor.agree (h : g.TakesFor g' names') {k : Fragments}
    (hagree : Agree g' k names) (hdisjoint : ∀ x ∈ names, x ∉ names') : Agree g k names := by
  intro x hx
  obtain ⟨hcells, hrest⟩ := h x (hdisjoint x hx)
  rw [← hcells, ← hrest]
  exact hagree x hx

theorem Fragments.TakesFor.append (h : g.TakesFor g' names) (h' : g'.TakesFor g'' names') :
    g.TakesFor g'' (names ++ names') := by
  intro x hx
  rw [List.mem_append, not_or] at hx
  obtain ⟨hcells, hrest⟩ := h x hx.1
  obtain ⟨hcells', hrest'⟩ := h' x hx.2
  exact ⟨hcells'.trans hcells, hrest'.trans hrest⟩

/-- Where a stock has nothing for the cells of a layout, nothing is placed into it. -/
theorem holds_of_lacks {l : Layout} (h : g.Lacks l.names) : holds g l = false := by
  rw [← Bool.not_eq_true, holds_iff]
  rintro ⟨x, hx, hwritten⟩
  rw [OrderedMap.contains, (h x hx).1] at hwritten
  cases hwritten

end

/-! ## Standing bodies -/

/-- A stock stands for a term along a layout: the term is what is placed, whatever names are free,
and all that the stock has for the layout goes into it. -/
structure Stands (k : Fragments) (l : Layout) (t : Term) : Prop where
  holds : holds k l = true
  place : ∀ supply, place k l supply = (t, supply)
  placed : ∀ x ∈ l.names, k.cells.contains x = true → x ∈ placed k l

/-- A stock stands for some terms along those of some layouts that another stock has something
for. -/
structure StandsAll (f k : Fragments) (ls : List Layout) (ts : List Term) : Prop where
  holds : ∀ l ∈ ls, Concretization.holds k l = Concretization.holds f l
  place : ∀ supply, placeAll k ls supply = (ts, supply)
  placed : ∀ x ∈ namesAll ls, k.cells.contains x = true → x ∈ placedAll k ls

section

variable {f k : Fragments} {name : String} {children : List Layout}

theorem StandsAll.any_holds {ls : List Layout} {ts : List Term} (h : StandsAll f k ls ts) :
    ls.any (!Concretization.holds k ·) = ls.any (!Concretization.holds f ·) := by
  have hsame : ∀ l ∈ ls, (!Concretization.holds k l) = !Concretization.holds f l :=
    fun l hl => congrArg _ (h.holds l hl)
  rw [Bool.eq_iff_iff, List.any_eq_true, List.any_eq_true]
  exact exists_congr fun l => and_congr_right fun hl => by rw [hsame l hl]

/-- A written cell that is closed stands for itself. -/
theorem stands_of_content {tag : CellTag} {content : Term}
    (hleft : tag.leftOpen = false) (hright : tag.rightOpen = false)
    (hwritten : k.cells.get? name = some (tag, content))
    (hnone : ∀ x ∈ namesAll children, k.cells.get? x = none) :
    Stands k (.node name children) (.cell tag content) := by
  have hcontains : k.cells.contains name = true := OrderedMap.contains_iff.2 ⟨_, hwritten⟩
  refine ⟨?_, fun supply => ?_, fun x hx hmem => ?_⟩
  · exact holds_iff.2 ⟨name, List.mem_cons_self, hcontains⟩
  · rw [place_of_content hwritten, close, hleft, hright]
    rfl
  · rw [Concretization.placed, if_pos hcontains]
    rcases List.mem_cons.1 hx with rfl | hx
    · exact List.mem_cons_self
    · rw [OrderedMap.contains, hnone x hx] at hmem
      cases hmem

/-- A cell without content stands for what its children stand for, and what is beside them. -/
theorem StandsAll.node {items beside : List Term} (h : StandsAll f k children items)
    (hnone : k.cells.get? name = none) (hsome : ∃ l ∈ children, Concretization.holds f l = true)
    (hbeside : ∀ supply,
      (besideChildren name (children.any (!Concretization.holds f ·)) (k.withNames supply)).1 =
        beside ∧
      (besideChildren name (children.any (!Concretization.holds f ·))
        (k.withNames supply)).2.names = supply) :
    Stands k (.node name children) (.closedCell name (contentOf (items ++ beside))) := by
  have hnotContains : k.cells.contains name = false := by rw [OrderedMap.contains, hnone]; rfl
  refine ⟨?_, fun supply => ?_, fun x hx hmem => ?_⟩
  · obtain ⟨l, hl, hholds⟩ := hsome
    rw [holds_node, hnotContains, Bool.false_or, List.any_eq_true]
    exact ⟨l, hl, (h.holds l hl).trans hholds⟩
  · obtain ⟨hitems, hnames⟩ := hbeside supply
    rw [place_of_children hnone, h.place, h.any_holds]
    exact Prod.ext (congrArg (fun b => Term.closedCell name (contentOf (items ++ b))) hitems) hnames
  · rw [Concretization.placed, hnotContains, if_neg (by simp)]
    rcases List.mem_cons.1 hx with rfl | hx
    · rw [hnotContains] at hmem
      cases hmem
    · exact h.placed x hx hmem

end

/-! ## Reading what has been placed -/

/-- A cell is read again: a stock that has nothing for a layout takes in what stands for the cell
there. -/
def ReadsBack (tree : CellTree) (l : Layout) (tag : CellTag) (content : Term) : Prop :=
  ∀ r g, g.Lacks l.names → ∃ g', readCell tree r tag g content = .ok g' ∧ g.TakesFor g' l.names ∧
    ∀ k, Agree g' k l.names → Stands k l (.cell tag content)

/-- Some cells are read again, one after the other and before others. -/
def ReadsBackAll (tree : CellTree) (f : Fragments) (ls : List Layout) (ts : List Term) : Prop :=
  ∀ r parent g, g.Lacks (namesAll ls) → ∃ g',
    (∀ others, readItems tree r parent g (ts ++ others) = readItems tree r parent g' others) ∧
    g.TakesFor g' (namesAll ls) ∧ ∀ k, Agree g' k (namesAll ls) → StandsAll f k ls ts

/-- A closed content is read as it is. -/
theorem readsBack_of_plain {name : String} (attributes : Attributes) {content : Term}
    {children : List Layout} (hnodup : (Layout.node name children).names.Nodup)
    (hdeclared : tree.contains name = true)
    (hplain : tree.isLeaf name = true ∨ holdsCells content = false) :
    ReadsBack tree (.node name children) ⟨name, attributes, false, false⟩ content := by
  intro r g hlacks
  let tag : CellTag := ⟨name, attributes, false, false⟩
  obtain ⟨hname, -⟩ := nodup_node hnodup
  have hnew : g.cells.contains name = false := by
    rw [OrderedMap.contains, (hlacks name List.mem_cons_self).1]
    rfl
  refine ⟨{ g with cells := g.cells.insert name (tag, content) }, ?_, fun x hx => ?_,
    fun k hagree => ?_⟩
  · have hread : readCell tree r tag g content = g.addCell r tag content :=
      readCell_of_plain hdeclared hplain g
    rw [hread, Fragments.addCell, hnew, if_neg (by simp)]
  · have hne : x ≠ name := fun heq => hx (heq ▸ List.mem_cons_self)
    rw [OrderedMap.get?_insert, if_neg hne]
    exact ⟨rfl, rfl⟩
  · refine stands_of_content rfl rfl ?_ fun x hx => ?_
    · rw [(hagree name List.mem_cons_self).1, OrderedMap.get?_insert, if_pos rfl]
    · have hne : x ≠ name := fun heq => hname (heq ▸ hx)
      rw [(hagree x (List.mem_cons_of_mem _ hx)).1, OrderedMap.get?_insert, if_neg hne]
      exact (hlacks x (List.mem_cons_of_mem _ hx)).1

/-- The content of a cell that holds cells is read item by item. -/
theorem readCell_contentOf {r : Rule} {name : String} {items : List Term} {g : Fragments}
    (hdeclared : tree.contains name = true) (hleaf : tree.isLeaf name = false)
    (hcell : items.any Term.isCell = true) :
    readCell tree r (.closed name) g (contentOf items) = readItems tree r name g items := by
  have hdeclared' : tree.contains (CellTag.closed name).name = true := hdeclared
  have hleaf' : tree.isLeaf (CellTag.closed name).name = false := hleaf
  rcases items with _ | ⟨t, _ | ⟨u, rest⟩⟩
  · cases hcell
  · cases t with
    | cell inner body =>
      show readCell tree r (.closed name) g (.cell inner body) = _
      rw [readCell, if_pos hdeclared', hleaf', if_neg (by simp), readItems]
      cases readCell tree r inner g body <;> rfl
    | _ => cases hcell
  · show readCell tree r (.closed name) g (.bag (t :: u :: rest)) = _
    rw [readCell, if_pos hdeclared', hleaf', hcell, if_neg (by simp)]
    rfl

section

variable {f : Fragments} {name : String} {children : List Layout}

/-- What stands beside the children of a cell is read into the stock, and is what a stock that has
the same there puts beside them again. -/
theorem exists_readBeside (tree : CellTree) {rest : Option Term} {missing : Bool}
    {beside : List Term} {dot : List String} (h : Beside rest (missing = true) beside dot)
    (r : Rule) (g : Fragments) (hnone : g.rest.get? name = none) :
    ∃ g', readItems tree r name g beside = .ok g' ∧ g'.cells = g.cells ∧
      (∀ x, x ≠ name → g'.rest.get? x = g.rest.get? x) ∧
      ∀ k : Fragments, k.rest.get? name = g'.rest.get? name → ∀ supply,
        (besideChildren name missing (k.withNames supply)).1 = beside ∧
        (besideChildren name missing (k.withNames supply)).2.names = supply := by
  have hvariable : ∀ v : Variable, ∃ g', readItems tree r name g [.var v] = .ok g' ∧
      g'.cells = g.cells ∧ (∀ x, x ≠ name → g'.rest.get? x = g.rest.get? x) ∧
      ∀ k : Fragments, k.rest.get? name = g'.rest.get? name → ∀ supply,
        (besideChildren name missing (k.withNames supply)).1 = [.var v] ∧
        (besideChildren name missing (k.withNames supply)).2.names = supply := by
    intro v
    refine ⟨{ g with rest := g.rest.insert name (.var v) }, rfl, rfl, fun x hx => ?_,
      fun k hk supply => ?_⟩
    · rw [OrderedMap.get?_insert, if_neg hx]
    · rw [OrderedMap.get?_insert, if_pos rfl] at hk
      rw [besideChildren_of_some supply missing hk]
      exact ⟨rfl, rfl⟩
  cases h with
  | written _ => exact hvariable _
  | new x _ _ => exact hvariable _
  | nothing _ hmissing =>
    refine ⟨g, rfl, rfl, fun _ _ => rfl, fun k hk supply => ?_⟩
    rw [Bool.not_eq_true] at hmissing
    rw [besideChildren_of_none supply missing (hk.trans hnone), hmissing]
    exact ⟨rfl, rfl⟩

/-- A cell whose children are read again is read again with what is beside them. -/
theorem ReadsBackAll.node {items beside : List Term} {rest : Option Term} {dot : List String}
    (h : ReadsBackAll tree f children items) (hnodup : (Layout.node name children).names.Nodup)
    (hdeclared : tree.contains name = true) (hleaf : tree.isLeaf name = false)
    (hsome : ∃ l ∈ children, holds f l = true) (hcell : items.any Term.isCell = true)
    (hbeside : Beside rest (children.any (!holds f ·) = true) beside dot) :
    ReadsBack tree (.node name children) (.closed name) (contentOf (items ++ beside)) := by
  intro r g hlacks
  obtain ⟨hname, -⟩ := nodup_node hnodup
  have hne : ∀ x ∈ namesAll children, x ≠ name := fun x hx heq => hname (heq ▸ hx)
  obtain ⟨g₁, hread, htakes, hstands⟩ :=
    h r name g (hlacks.mono fun x hx => List.mem_cons_of_mem _ hx)
  -- The children leave the cell itself alone.
  obtain ⟨hcells₁, hrest₁⟩ := htakes name hname
  obtain ⟨hcells, hrest⟩ := hlacks name List.mem_cons_self
  obtain ⟨g₂, hread₂, hcells₂, hrest₂, hbesides⟩ :=
    exists_readBeside tree hbeside r g₁ (hrest₁.trans hrest)
  refine ⟨g₂, ?_, fun x hx => ?_, fun k hagree => ?_⟩
  · rw [readCell_contentOf hdeclared hleaf (by rw [List.any_append, hcell, Bool.true_or]), hread,
      hread₂]
  · have hx' : x ≠ name ∧ x ∉ namesAll children :=
      not_or.1 fun hor => hx (List.mem_cons.2 hor)
    obtain ⟨hcells, hrest⟩ := htakes x hx'.2
    exact ⟨(congrArg (·.get? x) hcells₂).trans hcells, (hrest₂ x hx'.1).trans hrest⟩
  · obtain ⟨hkcells, hkrest⟩ := hagree name List.mem_cons_self
    have hagree₁ : Agree g₁ k (namesAll children) := by
      intro x hx
      obtain ⟨hkcells, hkrest⟩ := hagree x (List.mem_cons_of_mem _ hx)
      exact ⟨hkcells.trans (congrArg (·.get? x) hcells₂), hkrest.trans (hrest₂ x (hne x hx))⟩
    refine (hstands k hagree₁).node ?_ hsome (hbesides k hkrest)
    rw [hkcells, hcells₂, hcells₁, hcells]

/-- A cell that is read again is read before cells that are. -/
theorem ReadsBack.cons {l : Layout} {ls : List Layout} {tag : CellTag} {content : Term}
    {ts : List Term} (h : ReadsBack tree l tag content) (hholds : holds f l = true)
    (hall : ReadsBackAll tree f ls ts) (hdisjoint : ∀ x ∈ l.names, x ∉ namesAll ls) :
    ReadsBackAll tree f (l :: ls) (.cell tag content :: ts) := by
  intro r parent g hlacks
  obtain ⟨g₁, hread₁, htakes₁, hstands₁⟩ :=
    h r g (hlacks.mono fun x hx => List.mem_append_left _ hx)
  have hlacks₁ : g₁.Lacks (namesAll ls) := by
    have hothers : g.Lacks (namesAll ls) := hlacks.mono fun x hx => List.mem_append_right _ hx
    exact hothers.of_takesFor htakes₁ fun x hx hx' => hdisjoint x hx' hx
  obtain ⟨g₂, hread₂, htakes₂, hstands₂⟩ := hall r parent g₁ hlacks₁
  refine ⟨g₂, fun others => ?_, htakes₁.append htakes₂, fun k hagree => ?_⟩
  · rw [List.cons_append, readItems, hread₁]
    exact hread₂ others
  · have hhead := hstands₁ k (htakes₂.agree (hagree.mono fun x hx => List.mem_append_left _ hx)
      hdisjoint)
    have htail := hstands₂ k (hagree.mono fun x hx => List.mem_append_right _ hx)
    refine ⟨List.forall_mem_cons.2 ⟨hhead.holds.trans hholds.symm, htail.holds⟩, fun supply => ?_,
      fun x hx hmem => ?_⟩
    · simp only [placeAll, if_pos hhead.holds, hhead.place, htail.place]
    · rcases List.mem_append.1 hx with hx | hx
      · exact List.mem_append_left _ (hhead.placed x hx hmem)
      · exact List.mem_append_right _ (htail.placed x hx hmem)

/-- A layout that nothing is placed into is passed over again. -/
theorem ReadsBackAll.skip {l : Layout} {ls : List Layout} {ts : List Term}
    (h : ReadsBackAll tree f ls ts) (hholds : holds f l = false)
    (hdisjoint : ∀ x ∈ l.names, x ∉ namesAll ls) : ReadsBackAll tree f (l :: ls) ts := by
  intro r parent g hlacks
  obtain ⟨g', hread, htakes, hstands⟩ :=
    h r parent g (hlacks.mono fun x hx => List.mem_append_right _ hx)
  refine ⟨g', hread, fun x hx => ?_, fun k hagree => ?_⟩
  · exact htakes x fun hmem => hx (List.mem_append_right _ hmem)
  · have hnone : k.Lacks l.names := by
      intro x hx
      obtain ⟨hcells, hrest⟩ := hagree x (List.mem_append_left _ hx)
      obtain ⟨hcells', hrest'⟩ := htakes x (hdisjoint x hx)
      rw [hcells, hcells', hrest, hrest']
      exact hlacks x (List.mem_append_left _ hx)
    have hskipped := holds_of_lacks hnone
    have htail := hstands k (hagree.mono fun x hx => List.mem_append_right _ hx)
    refine ⟨List.forall_mem_cons.2 ⟨hskipped.trans hholds.symm, htail.holds⟩, fun supply => ?_,
      fun x hx hmem => ?_⟩
    · rw [placeAll, hskipped, if_neg (by simp), htail.place]
    · rcases List.mem_append.1 hx with hx | hx
      · rw [OrderedMap.contains, (hnone x hx).1] at hmem
        cases hmem
      · exact List.mem_append_right _ (htail.placed x hx hmem)

end

theorem isCell_place (f : Fragments) (l : Layout) (supply : FreshNames) :
    (place f l supply).1.isCell = true := by
  obtain ⟨name, children⟩ := l
  cases hwritten : f.cells.get? name with
  | some e =>
    obtain ⟨left, right, content, hcell, -⟩ := exists_closes e.1 e.2 { f with names := supply }
    rw [place_of_content hwritten, hcell]
    rfl
  | none =>
    rw [place_of_children hwritten]
    rfl

theorem any_isCell_placeAll {f : Fragments} {ls : List Layout} (supply : FreshNames)
    (h : ∃ l ∈ ls, holds f l = true) : (placeAll f ls supply).1.any Term.isCell = true := by
  induction ls generalizing supply with
  | nil =>
    obtain ⟨l, hl, -⟩ := h
    cases hl
  | cons l ls ih =>
    rw [placeAll]
    split
    · show ((place f l supply).1.isCell || _) = true
      rw [isCell_place, Bool.true_or]
    · rename_i hholds
      exact ih supply ((List.exists_mem_cons_iff ..).1 h |>.resolve_left hholds)

mutual

/-- A placed cell is read again. -/
theorem readsBack_place {f : Fragments} (hf : f.Sound tree) :
    ∀ (l : Layout) (supply : FreshNames), l.Fits tree.cells → l.names.Nodup → holds f l = true →
      ∃ tag content, (place f l supply).1 = .cell tag content ∧ ReadsBack tree l tag content
  | .node name children, supply, hfits, hnodup, hholds => by
    obtain ⟨-, hnodupChildren⟩ := nodup_node hnodup
    have hdeclared : tree.contains name = true :=
      OrderedMap.contains_iff.2 (hfits.declared List.mem_cons_self)
    cases hwritten : f.cells.get? name with
    | some e =>
      -- The cell was written: its content is read as it stands, whatever it has been closed with.
      obtain ⟨tag, body⟩ := e
      obtain rfl := hf.named name _ hwritten
      obtain ⟨left, right, content, hcell, hcloses, -⟩ :=
        exists_closes tag body { f with names := supply }
      have hplain : tree.isLeaf tag.name = true ∨ holdsCells content = false :=
        (hf.plain _ _ hwritten).imp_right hcloses.plain
      rw [place_of_content hwritten]
      exact ⟨_, content, hcell, readsBack_of_plain tag.attributes hnodup hdeclared hplain⟩
    | none =>
      -- The cell was passed on the way down, so it has children, and one of them is a cell.
      have hsome : ∃ l ∈ children, holds f l = true := by
        rw [holds_node, OrderedMap.contains, hwritten] at hholds
        exact List.any_eq_true.1 hholds
      have hleaf : tree.isLeaf name = false := by
        obtain ⟨l, hl, -⟩ := hsome
        rw [CellTree.isLeaf, CellTree.children_of_fits hfits, List.isEmpty_eq_false_iff]
        exact List.ne_nil_of_mem (List.mem_map_of_mem hl)
      have hall := readsBackAll_placeAll hf children supply
        (fun l hl => CellTree.fits_of_mem hfits hl) hnodupChildren
      obtain ⟨dot, hbeside, -⟩ := exists_beside (children.any (!holds f ·))
        (placeAll f children supply).2 (hf.rest name)
      rw [place_of_children hwritten]
      exact ⟨_, _, rfl, hall.node hnodup hdeclared hleaf hsome (any_isCell_placeAll supply hsome)
        hbeside⟩

/-- Placed cells are read again. -/
theorem readsBackAll_placeAll {f : Fragments} (hf : f.Sound tree) :
    ∀ (ls : List Layout) (supply : FreshNames), (∀ l ∈ ls, l.Fits tree.cells) →
      (namesAll ls).Nodup → ReadsBackAll tree f ls (placeAll f ls supply).1
  | [], supply, _, _ => fun _ _ g _ =>
    ⟨g, fun _ => rfl, fun _ _ => ⟨rfl, rfl⟩, fun _ _ => ⟨fun _ hl => (nomatch hl), fun _ => rfl,
      fun _ hx => (nomatch hx)⟩⟩
  | l :: ls, supply, hfits, hnodup => by
    obtain ⟨hl, hls⟩ := List.forall_mem_cons.1 hfits
    obtain ⟨hnodupHead, hnodupTail, hdisjoint⟩ := List.nodup_append.1 hnodup
    have hdisjoint : ∀ x ∈ l.names, x ∉ namesAll ls :=
      fun x hx hx' => hdisjoint x hx x hx' rfl
    rw [placeAll]
    cases hholds : holds f l with
    | false =>
      exact (readsBackAll_placeAll hf ls supply hls hnodupTail).skip hholds hdisjoint
    | true =>
      obtain ⟨tag, content, hcell, hback⟩ := readsBack_place hf l supply hl hnodupHead hholds
      have htail := readsBackAll_placeAll hf ls (place f l supply).2 hls hnodupTail
      rw [if_pos rfl]
      dsimp only
      rw [hcell]
      exact hback.cons hholds htail hdisjoint

end

/-! ## Rules -/

variable {d : Definition} {r r' : Rule}

/-- A rule is placed along the layout if the walk places all contents. -/
theorem resolveRule_of_placed {l : Layout} {f : Fragments} (hl : tree.LaidOut l)
    (hfunction : d.isFunctionRule r = false) (hf : fragmentsOf tree r = .ok f)
    (hplaced : ∀ name, f.cells.contains name = true → name ∈ placed f l) :
    resolveRule tree d r = .ok { r with body := (place f l f.names).1 } := by
  obtain ⟨left, hbuild, -, hleaves⟩ := build_eq_place hl.fits hl.nodup f fun _ _ => ⟨rfl, rfl⟩
  have hempty : left.cells.isEmpty = true := by
    refine OrderedMap.isEmpty_iff.2 fun name => ?_
    rw [hleaves.cells]
    by_cases hname : name ∈ placed f l
    · rw [if_pos hname]
    · rw [if_neg hname, OrderedMap.get?_eq_none_iff]
      exact fun hwritten => hname (hplaced name hwritten)
  rw [resolveRule, hfunction, if_neg (by simp)]
  refine Except.bind_eq_ok.2 ⟨f, hf, ?_⟩
  rw [← hl.top, hbuild]
  exact if_pos hempty

/-- The stock of a rule that is written as one cell is what this cell is read into. -/
theorem fragmentsOf_of_cell {tag : CellTag} {content : Term} {f : Fragments}
    (hbody : r.body = .cell tag content)
    (hread : readCell tree r tag ⟨∅, ∅, .avoiding r.variableNames⟩ content = .ok f)
    (hcells : f.cells.isEmpty = false) : fragmentsOf tree r = .ok f := by
  rw [fragmentsOf, hbody]
  show ((readCell tree r tag _ content >>= fun f => readTop tree r f []) >>=
    fun f => if f.cells.isEmpty = true then _ else Except.ok f) = .ok f
  rw [hread]
  show (if f.cells.isEmpty = true then _ else Except.ok f) = .ok f
  rw [hcells, if_neg (by simp)]

/-- A placed rule stays as it is when it is placed again. -/
theorem resolveRule_eq_self {configuration : Term} (ht : CellTree.ofTerm configuration = .ok tree)
    (hr : resolveRule tree d r = .ok r') : resolveRule tree d r' = .ok r' := by
  cases hfunction : d.isFunctionRule r with
  | true =>
    have hsame := hr
    rw [resolveRule, hfunction, if_pos rfl] at hsame
    cases hsame
    exact hr
  | false =>
    obtain ⟨l, hl⟩ := CellTree.laidOut_ofTerm ht
    obtain ⟨f, hf, rfl, hplaced⟩ := placed_of_resolveRule hl hfunction hr
    obtain ⟨-, hcells⟩ := reads_of_fragmentsOf hf
    have hholds := holds_of_placed hcells hplaced
    obtain ⟨tag, content, hcell, hback⟩ :=
      readsBack_place (sound_of_fragmentsOf hf) l f.names hl.fits hl.nodup hholds
    let placedRule : Rule := { r with body := (place f l f.names).1 }
    have hbody : placedRule.body = .cell tag content := hcell
    -- The second reading starts with nothing, so what it takes in is all for the placed cell.
    obtain ⟨g, hread, htakes, hstands⟩ :=
      hback placedRule ⟨∅, ∅, .avoiding placedRule.variableNames⟩ fun _ _ => ⟨rfl, rfl⟩
    have hstands := hstands g fun _ _ => ⟨rfl, rfl⟩
    have hwritten : g.cells.isEmpty = false := by
      obtain ⟨x, -, hx⟩ := holds_iff.1 hstands.holds
      rw [Bool.eq_false_iff]
      intro hempty
      rw [OrderedMap.contains, OrderedMap.isEmpty_iff.1 hempty x] at hx
      cases hx
    have hfragments := fragmentsOf_of_cell hbody hread hwritten
    have hresolve := resolveRule_of_placed hl (isFunctionRule_of_cell (d := d) hbody) hfragments
      fun name hname => by
        by_cases hmem : name ∈ l.names
        · exact hstands.placed name hmem hname
        · rw [OrderedMap.contains, (htakes name hmem).1] at hname
          cases hname
    rw [hstands.place, ← hbody] at hresolve
    exact hresolve

end RewriteSemantics.Concretization
