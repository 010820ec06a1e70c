/-
# What a configuration declares

A configuration declares its outermost cell, and a cell declares the cells that its content is made
of, if it is a cell or a bag of nothing but cells. The declarations are listed on a walk that takes
no part in recording them: a cell comes in front of the cells inside it, which come in their order.
A cell tree is recorded exactly if no cell on this walk has cells beside other things for its
content and no name comes twice, and then the tree has one entry for every declaration.
-/
import Mathlib.Data.List.Nodup
import RewriteSemantics.CellTree
import RewriteSemantics.Proofs.Ordered.Map
import RewriteSemantics.Proofs.Result

namespace RewriteSemantics

namespace Term

/-- A bag of cells and of other terms. -/
def Mixed (t : Term) : Prop :=
  ∃ items, t = .bag items ∧ (∃ a ∈ items, a.isCell = true) ∧ ∃ b ∈ items, b.isCell = false

/-- The tag and the content of a cell. -/
def asCell? : Term → Option (CellTag × Term)
  | .cell tag body => some (tag, body)
  | _ => none

end Term

namespace CellTree

/-! ## The walk -/

/-- The cells that a content declares, in their order. -/
def nestedCells : Term → List (CellTag × Term)
  | .cell tag body => [(tag, body)]
  | .bag items =>
    if items.all Term.isCell then items.filterMap Term.asCell? else []
  | _ => []

theorem sizeOf_lt_of_mem_nestedCells {body : Term} {c : CellTag × Term} (h : c ∈ nestedCells body) :
    sizeOf c.2 < sizeOf body := by
  cases body with
  | cell tag inner =>
    rw [nestedCells, List.mem_singleton] at h
    subst h
    simp only [Term.cell.sizeOf_spec]
    omega
  | bag items =>
    rw [nestedCells] at h
    split at h
    · obtain ⟨item, hitem, hc⟩ := List.mem_filterMap.1 h
      have hsize := List.sizeOf_lt_of_mem hitem
      cases item with
      | cell tag inner =>
        cases hc
        simp only [Term.cell.sizeOf_spec, Term.bag.sizeOf_spec] at hsize ⊢
        omega
      | _ => cases hc
    · cases h
  | _ => cases h

/-- A cell as it is declared: the name of the cell around it, its tag and its content. -/
structure Declaration where
  parent : Option String
  tag : CellTag
  body : Term

namespace Declaration

def name (c : Declaration) : String :=
  c.tag.name

/-- The names of the cells inside, in their order. -/
def children (c : Declaration) : List String :=
  (nestedCells c.body).map (·.1.name)

/-- The initial content, which only a leaf has. -/
def initializer (c : Declaration) : Option Term :=
  if (nestedCells c.body).isEmpty then some c.body else none

/-- What is recorded of a cell. -/
def info (c : Declaration) : CellInfo :=
  ⟨c.name, c.parent, c.children, c.initializer, c.tag.attributes⟩

end Declaration

/-- A cell and all cells that are declared inside it. -/
def declarations (parent : Option String) (tag : CellTag) (body : Term) : List Declaration :=
  ⟨parent, tag, body⟩ ::
    (nestedCells body).attach.flatMap fun c => declarations (some tag.name) c.1.1 c.1.2
termination_by sizeOf body
decreasing_by exact sizeOf_lt_of_mem_nestedCells c.2

theorem declarations_eq (parent : Option String) (tag : CellTag) (body : Term) :
    declarations parent tag body = ⟨parent, tag, body⟩ ::
      (nestedCells body).flatMap fun c => declarations (some tag.name) c.1 c.2 := by
  rw [declarations]
  congr 1
  conv_rhs => rw [← List.attach_map_subtype_val (nestedCells body)]
  rw [List.flatMap_map]

/-- Induction along the declarations, with a hypothesis for each cell directly inside. -/
theorem induct_nested {motive : Term → Prop}
    (h : ∀ body, (∀ c ∈ nestedCells body, motive c.2) → motive body) (body : Term) :
    motive body := by
  induction hsize : sizeOf body using Nat.strongRecOn generalizing body with
  | _ n ih =>
    subst hsize
    exact h body fun c hc => ih _ (sizeOf_lt_of_mem_nestedCells hc) c.2 rfl

/-! ## Recording -/

/-- Cells with those of some declarations entered. -/
def declare (cells : Cells) (cs : List Declaration) : Cells :=
  cs.foldl (fun cells c => cells.insert c.name c.info) cells

/-- Some declarations can be entered: they have contents of one kind, and names that are distinct
and new. -/
structure Admits (cells : Cells) (cs : List Declaration) : Prop where
  unmixed : ∀ c ∈ cs, ¬ c.body.Mixed
  distinct : (cs.map Declaration.name).Nodup
  fresh : ∀ c ∈ cs, cells.get? c.name = none

theorem declare_append (cells : Cells) (cs ds : List Declaration) :
    declare cells (cs ++ ds) = declare (declare cells cs) ds :=
  List.foldl_append

theorem get?_declare_of_notMem {cells : Cells} {cs : List Declaration} {x : String}
    (h : ∀ c ∈ cs, c.name ≠ x) : (declare cells cs).get? x = cells.get? x := by
  induction cs generalizing cells with
  | nil => rfl
  | cons c cs ih =>
    obtain ⟨hc, hcs⟩ := List.forall_mem_cons.1 h
    have hstep : declare cells (c :: cs) = declare (cells.insert c.name c.info) cs := rfl
    rw [hstep, ih hcs, OrderedMap.get?_insert, if_neg (Ne.symm hc)]

theorem get?_declare_of_mem {cells : Cells} {cs : List Declaration}
    (h : (cs.map Declaration.name).Nodup) {c : Declaration} (hc : c ∈ cs) :
    (declare cells cs).get? c.name = some c.info := by
  induction cs generalizing cells with
  | nil => nomatch hc
  | cons d cs ih =>
    obtain ⟨hd, hcs⟩ := List.nodup_cons.1 h
    have hstep : declare cells (d :: cs) = declare (cells.insert d.name d.info) cs := rfl
    rw [hstep]
    rcases List.mem_cons.1 hc with rfl | hc
    · have hothers : ∀ e ∈ cs, e.name ≠ c.name := fun e he heq =>
        hd (heq ▸ List.mem_map_of_mem he)
      rw [get?_declare_of_notMem hothers, OrderedMap.get?_insert, if_pos rfl]
    · exact ih hcs hc

/-- Declarations can be entered together exactly if they can be one part after the other. -/
theorem admits_append {cells : Cells} {cs ds : List Declaration} :
    Admits cells (cs ++ ds) ↔ Admits cells cs ∧ Admits (declare cells cs) ds := by
  constructor
  · rintro ⟨hunmixed, hdistinct, hfresh⟩
    rw [List.map_append, List.nodup_append] at hdistinct
    obtain ⟨hcs, hds, hapart⟩ := hdistinct
    refine ⟨⟨fun c hc => hunmixed c (List.mem_append_left _ hc), hcs,
      fun c hc => hfresh c (List.mem_append_left _ hc)⟩,
      ⟨fun c hc => hunmixed c (List.mem_append_right _ hc), hds, fun d hd => ?_⟩⟩
    rw [get?_declare_of_notMem fun c hc =>
      hapart _ (List.mem_map_of_mem hc) _ (List.mem_map_of_mem hd)]
    exact hfresh d (List.mem_append_right _ hd)
  · rintro ⟨hcs, hds⟩
    -- a name of the first part is taken when the second part is entered
    have hapart : ∀ c ∈ cs, ∀ d ∈ ds, c.name ≠ d.name := by
      intro c hc d hd hname
      have hnone := hds.fresh d hd
      rw [← hname, get?_declare_of_mem hcs.distinct hc] at hnone
      cases hnone
    refine ⟨?_, ?_, ?_⟩
    · intro c hc
      exact (List.mem_append.1 hc).elim (hcs.unmixed c) (hds.unmixed c)
    · rw [List.map_append, List.nodup_append]
      refine ⟨hcs.distinct, hds.distinct, fun x hx y hy => ?_⟩
      obtain ⟨c, hc, rfl⟩ := List.mem_map.1 hx
      obtain ⟨d, hd, rfl⟩ := List.mem_map.1 hy
      exact hapart c hc d hd
    · intro c hc
      rcases List.mem_append.1 hc with hc | hc
      · exact hcs.fresh c hc
      · rw [← hds.fresh c hc, get?_declare_of_notMem fun d hd => hapart d hd c hc]

theorem admits_nil (cells : Cells) : Admits cells [] :=
  ⟨fun _ h => (nomatch h), .nil, fun _ h => (nomatch h)⟩

theorem admits_singleton {cells : Cells} {c : Declaration} :
    Admits cells [c] ↔ ¬ c.body.Mixed ∧ cells.get? c.name = none := by
  constructor
  · intro h
    exact ⟨h.unmixed c List.mem_cons_self, h.fresh c List.mem_cons_self⟩
  · rintro ⟨hunmixed, hfresh⟩
    refine ⟨fun d hd => ?_, List.nodup_singleton _, fun d hd => ?_⟩
    · rw [List.mem_singleton.1 hd]
      exact hunmixed
    · rw [List.mem_singleton.1 hd]
      exact hfresh

/-! ## One cell after the other -/

theorem declareCell_eq_ok {parent : Option String} {tag : CellTag} {children : List String}
    {initializer : Option Term} {cells cells' : Cells} :
    declareCell parent tag children initializer cells = .ok cells' ↔
      cells.get? tag.name = none ∧
        cells' =
          cells.insert tag.name ⟨tag.name, parent, children, initializer, tag.attributes⟩ := by
  rw [declareCell, OrderedMap.get?_eq_none_iff]
  split
  · rename_i hknown
    constructor
    · intro h
      cases h
    · intro h
      exact absurd hknown h.1
  · rename_i hnew
    rw [Except.ok.injEq]
    exact ⟨fun h => ⟨hnew, h.symm⟩, fun h => h.2.symm⟩

theorem addCells_eq_foldlM (parent : String) (cells : Cells) (items : List Term) :
    addCells parent cells items = (items.filterMap Term.asCell?).foldlM
      (fun cells c => addCell (some parent) c.1 cells c.2) cells := by
  induction items generalizing cells with
  | nil => rfl
  | cons item items ih =>
    cases item with
    | cell tag body =>
      have hcell : (Term.cell tag body :: items).filterMap Term.asCell? =
          (tag, body) :: items.filterMap Term.asCell? := rfl
      rw [addCells, hcell, List.foldlM_cons]
      congr 1
      funext cells
      exact ih cells
    | _ => exact ih cells

theorem cellNames_eq_map (items : List Term) :
    cellNames items = (items.filterMap Term.asCell?).map (·.1.name) := by
  rw [cellNames, List.map_filterMap]
  refine List.filterMap_congr fun item _ => ?_
  cases item <;> rfl

theorem isEmpty_filterMap_asCell? {items : List Term} (h : items.all Term.isCell = true) :
    (items.filterMap Term.asCell?).isEmpty = items.isEmpty := by
  cases items with
  | nil => rfl
  | cons item items =>
    rw [List.all_cons, Bool.and_eq_true] at h
    cases item with
    | cell tag body => rfl
    | _ => cases h.1

theorem mixed_bag_iff {items : List Term} :
    (Term.bag items).Mixed ↔ items.any Term.isCell = true ∧ ¬ items.all Term.isCell = true := by
  rw [List.any_eq_true, List.all_eq_true]
  simp only [Term.Mixed, Term.bag.injEq, exists_eq_left', not_forall, Bool.not_eq_true, exists_prop]

/-- A cell whose content is not mixed is recorded, and then the cells inside one after the other. -/
theorem addCell_of_unmixed (parent : Option String) (tag : CellTag) (cells : Cells) {body : Term}
    (h : ¬ body.Mixed) :
    addCell parent tag cells body = (do
      let c : Declaration := ⟨parent, tag, body⟩
      let cells ← declareCell parent tag c.children c.initializer cells
      (nestedCells body).foldlM (fun cells c => addCell (some tag.name) c.1 cells c.2) cells) := by
  -- whatever has no cells at its top is the initial content of a leaf
  have hleaf : nestedCells body = [] →
      addCell parent tag cells body = declareCell parent tag [] (some body) cells →
      addCell parent tag cells body = (do
        let c : Declaration := ⟨parent, tag, body⟩
        let cells ← declareCell parent tag c.children c.initializer cells
        (nestedCells body).foldlM
          (fun cells c => addCell (some tag.name) c.1 cells c.2) cells) := by
    intro hnone heq
    simp only [heq, Declaration.children, Declaration.initializer, hnone, List.map_nil,
      List.isEmpty_nil, if_true, List.foldlM_nil, bind_pure]
  cases body with
  | cell inner body =>
    simp only [addCell, Declaration.children, Declaration.initializer, nestedCells, List.map_cons,
      List.map_nil, List.isEmpty_cons, List.foldlM_cons, List.foldlM_nil, bind_pure,
      Bool.false_eq_true, if_false]
  | bag items =>
    by_cases hall : items.all Term.isCell = true
    · have hnested : nestedCells (.bag items) = items.filterMap Term.asCell? := by
        rw [nestedCells, if_pos hall]
      rw [addCell, if_pos hall]
      simp only [Declaration.children, Declaration.initializer, hnested, cellNames_eq_map,
        addCells_eq_foldlM, isEmpty_filterMap_asCell? hall]
    · have hany : ¬ items.any Term.isCell = true := fun hany => h (mixed_bag_iff.2 ⟨hany, hall⟩)
      refine hleaf (by rw [nestedCells, if_neg hall]) ?_
      rw [addCell, if_neg hall, if_neg fun h => hany h.1]
  | app label args => exact hleaf rfl rfl
  | var v => exact hleaf rfl rfl
  | token text sort => exact hleaf rfl rfl
  | rewrite lhs rhs => exact hleaf rfl rfl
  | seq items => exact hleaf rfl rfl

/-- A cell with a mixed content is refused, for its content or for a name that is taken. -/
theorem addCell_of_mixed (parent : Option String) (tag : CellTag) (cells : Cells) {body : Term}
    (h : body.Mixed) (cells' : Cells) : addCell parent tag cells body ≠ .ok cells' := by
  obtain ⟨items, rfl, hcells⟩ := h
  obtain ⟨hany, hall⟩ := mixed_bag_iff.1 ⟨items, rfl, hcells⟩
  rw [addCell, if_neg hall]
  split
  · intro heq
    cases heq
  · rename_i hknown
    rw [Ne, declareCell_eq_ok, OrderedMap.get?_eq_none_iff]
    exact fun heq => hknown ⟨hany, heq.1⟩

/-- Cells are recorded one after the other exactly if all their declarations can be entered. -/
theorem foldlM_addCell_eq_ok {parent : Option String} {cs : List (CellTag × Term)}
    {cells cells' : Cells}
    (h : ∀ c ∈ cs, ∀ cells cells', addCell parent c.1 cells c.2 = .ok cells' ↔
      Admits cells (declarations parent c.1 c.2) ∧
        cells' = declare cells (declarations parent c.1 c.2)) :
    cs.foldlM (fun cells c => addCell parent c.1 cells c.2) cells = .ok cells' ↔
      Admits cells (cs.flatMap fun c => declarations parent c.1 c.2) ∧
        cells' = declare cells (cs.flatMap fun c => declarations parent c.1 c.2) := by
  induction cs generalizing cells with
  | nil =>
    rw [List.foldlM_nil, List.flatMap_nil]
    exact ⟨fun heq => ⟨admits_nil cells, (Except.ok.inj heq).symm⟩,
      fun heq => congrArg _ heq.2.symm⟩
  | cons c cs ih =>
    obtain ⟨hc, hcs⟩ := List.forall_mem_cons.1 h
    rw [List.foldlM_cons, Except.bind_eq_ok, List.flatMap_cons, admits_append, declare_append]
    constructor
    · rintro ⟨between, hbetween, hrest⟩
      obtain ⟨hadmits, rfl⟩ := (hc _ _).1 hbetween
      obtain ⟨hadmits', rfl⟩ := (ih hcs).1 hrest
      exact ⟨⟨hadmits, hadmits'⟩, rfl⟩
    · rintro ⟨⟨hadmits, hrest⟩, rfl⟩
      exact ⟨_, (hc _ _).2 ⟨hadmits, rfl⟩, (ih hcs).2 ⟨hrest, rfl⟩⟩

/-- A cell is recorded with the cells inside it exactly if all their declarations can be entered. -/
theorem addCell_eq_ok {parent : Option String} {tag : CellTag} {body : Term}
    {cells cells' : Cells} :
    addCell parent tag cells body = .ok cells' ↔
      Admits cells (declarations parent tag body) ∧
        cells' = declare cells (declarations parent tag body) := by
  induction body using induct_nested generalizing parent tag cells cells' with
  | h body ih =>
    rw [declarations_eq, ← List.singleton_append, admits_append, declare_append, admits_singleton]
    by_cases hmixed : body.Mixed
    · constructor
      · intro h
        exact absurd h (addCell_of_mixed parent tag cells hmixed cells')
      · rintro ⟨⟨⟨hunmixed, -⟩, -⟩, -⟩
        exact absurd hmixed hunmixed
    · rw [addCell_of_unmixed parent tag cells hmixed, Except.bind_eq_ok]
      -- the cells inside meet those from before together with the cell around them
      have hinside : ∀ cells, (nestedCells body).foldlM
          (fun cells c => addCell (some tag.name) c.1 cells c.2) cells = .ok cells' ↔ _ :=
        fun cells => foldlM_addCell_eq_ok fun c hc cells cells' => ih c hc
      constructor
      · rintro ⟨declared, hdeclared, h⟩
        obtain ⟨hnew, rfl⟩ := declareCell_eq_ok.1 hdeclared
        obtain ⟨hadmits, hcells⟩ := (hinside _).1 h
        exact ⟨⟨⟨hmixed, hnew⟩, hadmits⟩, hcells⟩
      · rintro ⟨⟨⟨-, hnew⟩, hadmits⟩, hcells⟩
        exact ⟨_, declareCell_eq_ok.2 ⟨hnew, rfl⟩, (hinside _).2 ⟨hadmits, hcells⟩⟩

/-! ## The cell tree -/

/-- The outermost cell of a configuration is the configuration itself, or all there is in a bag. -/
theorem topCell?_eq_some {t : Term} {tag : CellTag} {body : Term} :
    topCell? t = some (tag, body) ↔ t = .cell tag body ∨ t = .bag [.cell tag body] := by
  constructor
  · intro h
    unfold topCell? at h
    split at h
    · cases h
      exact .inl rfl
    · cases h
      exact .inr rfl
    · cases h
  · rintro (rfl | rfl)
    · rfl
    · rfl

/-- A configuration has a cell tree exactly if it has an outermost cell whose declarations can be
entered, and the tree has these. -/
theorem ofTerm_eq_ok {t : Term} {tree : CellTree} :
    ofTerm t = .ok tree ↔ ∃ tag body, (t = .cell tag body ∨ t = .bag [.cell tag body]) ∧
      Admits ∅ (declarations none tag body) ∧
        tree = ⟨tag.name, declare ∅ (declarations none tag body)⟩ := by
  rw [ofTerm]
  constructor
  · intro h
    split at h
    · cases h
    · rename_i tag body htop
      obtain ⟨cells, hcells, h⟩ := Except.bind_eq_ok.1 h
      obtain ⟨hadmits, rfl⟩ := addCell_eq_ok.1 hcells
      exact ⟨tag, body, topCell?_eq_some.1 htop, hadmits, (Except.ok.inj h).symm⟩
  · rintro ⟨tag, body, htop, hadmits, rfl⟩
    rw [topCell?_eq_some.2 htop]
    exact Except.bind_eq_ok.2 ⟨_, addCell_eq_ok.2 ⟨hadmits, rfl⟩, rfl⟩

/-! ## Recorded trees -/

section

variable {tree : CellTree} {cs : List Declaration}

/-- The entries of a tree are those of some declarations. -/
def Records (tree : CellTree) (cs : List Declaration) : Prop :=
  ∀ name info, tree.cell? name = some info ↔ ∃ c ∈ cs, c.name = name ∧ c.info = info

theorem records_declare (top : String) (h : (cs.map Declaration.name).Nodup) :
    Records ⟨top, declare ∅ cs⟩ cs := by
  intro name info
  constructor
  · intro hinfo
    by_cases hdeclared : ∃ c ∈ cs, c.name = name
    · obtain ⟨c, hc, rfl⟩ := hdeclared
      exact ⟨c, hc, rfl, Option.some.inj ((get?_declare_of_mem h hc).symm.trans hinfo)⟩
    · have hother : ∀ c ∈ cs, c.name ≠ name := fun c hc hname => hdeclared ⟨c, hc, hname⟩
      exact nomatch (get?_declare_of_notMem hother).symm.trans hinfo
  · rintro ⟨c, hc, rfl, rfl⟩
    exact get?_declare_of_mem h hc

theorem Records.cell?_eq (h : tree.Records cs) {c : Declaration} (hc : c ∈ cs) :
    tree.cell? c.name = some c.info :=
  (h _ _).2 ⟨c, hc, rfl, rfl⟩

theorem Records.contains_iff (h : tree.Records cs) {name : String} :
    tree.contains name = true ↔ ∃ c ∈ cs, c.name = name := by
  rw [contains, OrderedMap.contains_iff]
  constructor
  · rintro ⟨info, hinfo⟩
    obtain ⟨c, hc, hname, -⟩ := (h _ _).1 hinfo
    exact ⟨c, hc, hname⟩
  · rintro ⟨c, hc, rfl⟩
    exact ⟨c.info, h.cell?_eq hc⟩

theorem Records.parent?_eq (h : tree.Records cs) {c : Declaration} (hc : c ∈ cs) :
    tree.parent? c.name = c.parent := by
  rw [parent?, h.cell?_eq hc]
  rfl

theorem Records.children_eq (h : tree.Records cs) {c : Declaration} (hc : c ∈ cs) :
    tree.children c.name = c.children := by
  unfold children
  rw [h.cell?_eq hc]
  rfl

theorem Records.exists_of_parent? (h : tree.Records cs) {name outer : String}
    (hparent : tree.parent? name = some outer) :
    ∃ c ∈ cs, c.name = name ∧ c.parent = some outer := by
  obtain ⟨info, hinfo, hparent⟩ := Option.bind_eq_some_iff.1 hparent
  obtain ⟨c, hc, rfl, rfl⟩ := (h _ _).1 hinfo
  exact ⟨c, hc, rfl, hparent⟩

theorem Records.exists_of_mem_children (h : tree.Records cs) {name outer : String}
    (hchild : name ∈ tree.children outer) : ∃ c ∈ cs, c.name = outer ∧ name ∈ c.children := by
  unfold children at hchild
  split at hchild
  · rename_i info hinfo
    obtain ⟨c, hc, rfl, rfl⟩ := (h _ _).1 hinfo
    exact ⟨c, hc, rfl, hchild⟩
  · cases hchild

end

end CellTree

end RewriteSemantics
