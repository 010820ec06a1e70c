/-
# Where the counter cell goes

The counter is added to the first configuration that the main module sees, which is the one whose
cells are read, and it is added among the cells that the outermost cell declares. So the cells of
the configuration stay what they are: the counter becomes the last child of the outermost cell, or,
if that is a leaf, stands beside it in a new outermost cell.
-/
import RewriteSemantics.Proofs.CellTree.Paths
import RewriteSemantics.Proofs.Configuration.Counter
import RewriteSemantics.Proofs.Definition.Imports
import RewriteSemantics.Proofs.Definition.Views
import RewriteSemantics.Proofs.Pass.Idempotence
import RewriteSemantics.Proofs.Term.Cells
import RewriteSemantics.Rule.FreshConstants

namespace RewriteSemantics

/-- What a module sees after sentences are added to the main module it saw before, or is one of
them. -/
theorem Definition.mem_sentencesOf_of_appendToMain {d e : Definition} {extra : List Sentence}
    {name : String} {s : Sentence} (h : d.appendToMain extra = .ok e)
    (hs : s ∈ e.sentencesOf name) : s ∈ d.sentencesOf name ∨ s ∈ extra := by
  obtain ⟨_, hm', hs⟩ := List.mem_flatMap.1 hs
  obtain ⟨m, hm, ss, rfl, rfl⟩ := ((appendToMain_eq_ok.1 h).closure name).flip.exists_of_mem hm'
  split at hs
  · rcases List.mem_append.1 hs with hs | hs
    · exact .inl (List.mem_flatMap.2 ⟨m, hm, hs⟩)
    · exact .inr hs
  · exact .inl (List.mem_flatMap.2 ⟨m, hm, hs⟩)

theorem Term.mentionsCell_bag_singleton (t : Term) (name : String) :
    (bag [t]).mentionsCell name = t.mentionsCell name := by
  rw [Bool.eq_iff_iff, mentionsCell_iff, mentionsCell_iff, hasCell_bag]
  simp

/-! ## Declarations -/

namespace CellTree

variable {tree tree' : CellTree} {cs cs' : List Declaration} {tag : CellTag} {body : Term}

theorem declarations_of_leaf (h : nestedCells body = []) (parent : Option String) (tag : CellTag) :
    declarations parent tag body = [⟨parent, tag, body⟩] := by
  rw [declarations_eq, h]
  rfl

theorem info_of_leaf (h : nestedCells body = []) (parent : Option String) (tag : CellTag) :
    Declaration.info ⟨parent, tag, body⟩ =
      ⟨tag.name, parent, [], some body, tag.attributes⟩ := by
  rw [Declaration.info, Declaration.children, Declaration.initializer, h]
  rfl

theorem info_of_nested (h : nestedCells body ≠ []) (parent : Option String) (tag : CellTag) :
    Declaration.info ⟨parent, tag, body⟩ =
      ⟨tag.name, parent, (nestedCells body).map (·.1.name), none, tag.attributes⟩ := by
  rw [Declaration.info, Declaration.initializer, List.isEmpty_eq_false_iff.2 h]
  rfl

/-- Declarations are entered in an empty tree if their contents are of one kind and their names
distinct. -/
theorem exists_ofTerm {t : Term} (ht : t = .cell tag body ∨ t = .bag [.cell tag body])
    (hunmixed : ∀ c ∈ declarations none tag body, ¬ c.body.Mixed)
    (hdistinct : ((declarations none tag body).map Declaration.name).Nodup) :
    ∃ tree, ofTerm t = .ok tree ∧ tree.top = tag.name ∧ tree.Records (declarations none tag body) :=
  ⟨_, ofTerm_eq_ok.2 ⟨tag, body, ht, ⟨hunmixed, hdistinct, fun _ _ => rfl⟩, rfl⟩, rfl,
    records_declare tag.name hdistinct⟩

theorem Records.cell?_eq_none (h : tree.Records cs) {name : String}
    (hname : ∀ c ∈ cs, c.name ≠ name) : tree.cell? name = none := by
  refine Option.eq_none_iff_forall_ne_some.2 fun info hinfo => ?_
  obtain ⟨c, hc, hcname, -⟩ := (h _ _).1 hinfo
  exact hname c hc hcname

/-- A tree that records a leaf alone has no other cell. -/
theorem Records.cell?_of_leaf {parent : Option String}
    (h : tree.Records (declarations parent tag body)) (hleaf : nestedCells body = [])
    (name : String) : tree.cell? name =
      if name = tag.name then some ⟨tag.name, parent, [], some body, tag.attributes⟩ else none := by
  rw [declarations_of_leaf hleaf] at h
  split
  · rename_i hname
    rw [hname, ← info_of_leaf hleaf]
    exact h.cell?_eq (List.mem_singleton_self _)
  · rename_i hname
    refine h.cell?_eq_none ?_
    rw [List.forall_mem_singleton]
    exact Ne.symm hname

/-- Trees have the same cell of a name if they record the same declarations of it. -/
theorem Records.cell?_congr (h : tree.Records cs) (h' : tree'.Records cs') {name : String}
    (hsame : ∀ c, c.name = name → (c ∈ cs' ↔ c ∈ cs)) : tree'.cell? name = tree.cell? name := by
  refine Option.ext fun info => ?_
  rw [h, h']
  constructor
  · rintro ⟨c, hc, hname, hinfo⟩
    exact ⟨c, (hsame c hname).1 hc, hname, hinfo⟩
  · rintro ⟨c, hc, hname, hinfo⟩
    exact ⟨c, (hsame c hname).2 hc, hname, hinfo⟩

/-- The cells that a content declares occur in it. -/
theorem hasCell_of_mem_nestedCells {P : CellTag → Term → Prop} {c : CellTag × Term}
    (hc : c ∈ nestedCells body) (h : (Term.cell c.1 c.2).HasCell P) : body.HasCell P := by
  cases body with
  | cell tag inner =>
    rw [nestedCells, List.mem_singleton] at hc
    subst hc
    exact h
  | bag items =>
    rw [nestedCells] at hc
    split at hc
    · obtain ⟨item, hitem, hcell⟩ := List.mem_filterMap.1 hc
      cases item with
      | cell tag inner =>
        cases hcell
        exact Term.hasCell_bag.2 ⟨_, hitem, h⟩
      | _ => cases hcell
    · cases hc
  | _ => cases hc

/-- The cells that are declared occur in the configuration. -/
theorem mentionsCell_of_mem_declarations {parent : Option String} {c : Declaration}
    (hc : c ∈ declarations parent tag body) :
    (Term.cell tag body).mentionsCell c.name = true := by
  induction body using induct_nested generalizing parent tag with
  | h body ih =>
    rw [declarations_eq] at hc
    rcases List.mem_cons.1 hc with rfl | hc
    · exact Term.mentionsCell_cell.2 (.inl rfl)
    · obtain ⟨inner, hinner, hc⟩ := List.mem_flatMap.1 hc
      have hmentions := Term.mentionsCell_iff.1 (ih inner hinner hc)
      exact Term.mentionsCell_cell.2
        (.inr (Term.mentionsCell_iff.2 (hasCell_of_mem_nestedCells hinner hmentions)))

end CellTree

namespace Counter

open CellTree

variable {t body : Term} {tag : CellTag} {children : List Term} {tree : CellTree}

/-! ## The children of the outermost cell -/

/-- The cells that are taken for the children are those that the content declares. -/
theorem nestedCells_of_childCells? (h : childCells? body = some children) :
    children.all Term.isCell = true ∧ nestedCells body = children.filterMap Term.asCell? ∧
      nestedCells body ≠ [] := by
  cases body with
  | cell inner body =>
    cases h
    exact ⟨rfl, rfl, List.cons_ne_nil _ _⟩
  | bag items =>
    unfold childCells? at h
    dsimp only at h
    split at h
    · rename_i hitems
      cases h
      obtain ⟨hne, hall⟩ := Bool.and_eq_true_iff.1 hitems
      have hnested : nestedCells (.bag children) = children.filterMap Term.asCell? := by
        rw [nestedCells, if_pos hall]
      refine ⟨hall, hnested, fun hnil => ?_⟩
      rw [hnested, ← List.isEmpty_iff, isEmpty_filterMap_asCell? hall] at hnil
      rw [hnil] at hne
      cases hne
    · cases h
  | _ => cases h

/-- Where there are no children to be found, no cells are declared. -/
theorem nestedCells_of_childCells?_eq_none (h : childCells? body = none) :
    nestedCells body = [] := by
  cases body with
  | bag items =>
    rw [nestedCells]
    split
    · rename_i hall
      rw [childCells?, hall, Bool.and_true] at h
      cases items with
      | nil => rfl
      | cons item items => cases h
    · rfl
  | cell inner body => cases h
  | _ => rfl

/-- Without a counter, a configuration is extended at its outermost cell. -/
theorem extend_eq_extendTop (ht : t = .cell tag body ∨ t = .bag [.cell tag body])
    (h : t.mentionsCell cellName = false) : extend t = extendTop (.cell tag body) := by
  rcases ht with rfl | rfl
  · exact if_neg (Bool.eq_false_iff.1 h)
  · exact if_neg (Bool.eq_false_iff.1 h)

/-! ## Cell trees with a counter -/

/-- What is recorded of the counter below a cell. -/
def initialInfo (parent : String) : CellInfo :=
  ⟨cellName, some parent, [], some (.int 0), ∅⟩

/-- What is recorded of the cell around an outermost cell and the counter. -/
def topInfo (top : String) : CellInfo :=
  ⟨topName, none, [top, cellName], none, ∅⟩

/-- A cell tree gains the counter. All cells are listed with everything that is recorded of them. -/
inductive Gains (tree tree' : CellTree) : Prop
  /-- The counter is there already. -/
  | known : tree.contains cellName = true → tree' = tree → Gains tree tree'
  /-- The counter becomes the last child of the outermost cell. -/
  | inside : tree.contains cellName = false → tree.isLeaf tree.top = false →
    tree'.top = tree.top →
    (∀ name, tree'.cell? name =
      if name = cellName then some (initialInfo tree.top)
      else (tree.cell? name).map fun info =>
        if name = tree.top then { info with children := info.children ++ [cellName] } else info) →
    Gains tree tree'
  /-- The outermost cell is a leaf. It becomes the first child of a new one, in front of the
  counter. -/
  | around : tree.contains cellName = false → tree.isLeaf tree.top = true →
    tree'.top = topName →
    (∀ name, tree'.cell? name =
      if name = cellName then some (initialInfo topName)
      else if name = topName then some (topInfo tree.top)
      else (tree.cell? name).map fun info =>
        if name = tree.top then { info with parent := some topName } else info) →
    Gains tree tree'

theorem Gains.contains {tree' : CellTree} (h : Gains tree tree') :
    tree'.contains cellName = true := by
  cases h with
  | known hknown heq => exact heq ▸ hknown
  | inside _ _ _ hcells => exact OrderedMap.contains_iff.2 ⟨_, (hcells cellName).trans (if_pos rfl)⟩
  | around _ _ _ hcells => exact OrderedMap.contains_iff.2 ⟨_, (hcells cellName).trans (if_pos rfl)⟩

/-! ## The counter among cells -/

/-- The counter as it is declared below a cell. -/
def declaration (parent : String) : Declaration :=
  ⟨some parent, .closed cellName, .int 0⟩

theorem declarations_initialCell (parent : String) :
    declarations (some parent) (.closed cellName) (.int 0) = [declaration parent] :=
  declarations_of_leaf rfl _ _

theorem not_mixed_declaration (parent : String) : ¬ (declaration parent).body.Mixed := by
  rintro ⟨_, hbag, -⟩
  cases hbag

theorem not_mixed_of_all {items : List Term} (h : items.all Term.isCell = true) :
    ¬ (Term.bag items).Mixed :=
  fun hmixed => (mixed_bag_iff.1 hmixed).2 h

theorem all_isCell_append_initialCell (h : children.all Term.isCell = true) :
    (children ++ [initialCell]).all Term.isCell = true := by
  rw [List.all_append, h]
  rfl

/-- The cells inside stay what they are, and the counter comes behind them. -/
theorem nestedCells_append_initialCell (h : childCells? body = some children) :
    nestedCells (.bag (children ++ [initialCell])) =
      nestedCells body ++ [(.closed cellName, .int 0)] := by
  obtain ⟨hall, hnested, -⟩ := nestedCells_of_childCells? h
  rw [nestedCells, if_pos (all_isCell_append_initialCell hall), List.filterMap_append, hnested]
  rfl

theorem declarations_append_initialCell (h : childCells? body = some children) (tag : CellTag) :
    ∃ inner, declarations none tag body = ⟨none, tag, body⟩ :: inner ∧
      declarations none tag (.bag (children ++ [initialCell])) =
        (⟨none, tag, .bag (children ++ [initialCell])⟩ :: inner) ++ [declaration tag.name] := by
  refine ⟨_, declarations_eq none tag body, ?_⟩
  rw [declarations_eq, nestedCells_append_initialCell h, List.flatMap_append,
    List.flatMap_singleton, declarations_initialCell, List.cons_append]

/-- The tree of an outermost cell with cells in it has room for the counter. -/
theorem exists_records_inside (hchildren : childCells? body = some children)
    {inner : List Declaration} (hcs' : declarations none tag (.bag (children ++ [initialCell])) =
      (⟨none, tag, .bag (children ++ [initialCell])⟩ :: inner) ++ [declaration tag.name])
    (hadmits : Admits ∅ (⟨none, tag, body⟩ :: inner))
    (hother : ∀ c ∈ (⟨none, tag, body⟩ :: inner : List Declaration), c.name ≠ cellName) :
    ∃ tree', ofTerm (.cell tag (.bag (children ++ [initialCell]))) = .ok tree' ∧
      tree'.top = tag.name ∧ tree'.Records
        ((⟨none, tag, .bag (children ++ [initialCell])⟩ :: inner) ++ [declaration tag.name]) := by
  have hall := all_isCell_append_initialCell (nestedCells_of_childCells? hchildren).1
  rw [← hcs']
  refine exists_ofTerm (.inl rfl) ?_ ?_
  · rw [hcs', List.forall_mem_append, List.forall_mem_cons, List.forall_mem_singleton]
    exact ⟨⟨not_mixed_of_all hall, (List.forall_mem_cons.1 hadmits.unmixed).2⟩,
      not_mixed_declaration tag.name⟩
  · rw [hcs', List.map_append]
    refine hadmits.distinct.append (List.nodup_singleton _) (List.disjoint_singleton.2 ?_)
    intro hmem
    obtain ⟨c, hc, hname⟩ := List.mem_map.1 hmem
    exact hother c hc hname

/-- An outermost cell with cells in it takes the counter as its last child. -/
theorem exists_inside (hchildren : childCells? body = some children)
    (hrecords : tree.Records (declarations none tag body)) (htop : tree.top = tag.name)
    (hadmits : Admits ∅ (declarations none tag body)) (hnew : tree.contains cellName = false) :
    ∃ tree', ofTerm (.cell tag (.bag (children ++ [initialCell]))) = .ok tree' ∧
      Gains tree tree' := by
  obtain ⟨-, -, hne⟩ := nestedCells_of_childCells? hchildren
  obtain ⟨inner, hcs, hcs'⟩ := declarations_append_initialCell hchildren tag
  have hother : ∀ c ∈ declarations none tag body, c.name ≠ cellName := fun c hc hname =>
    Bool.eq_false_iff.1 hnew (hrecords.contains_iff.2 ⟨c, hc, hname⟩)
  rw [hcs] at hrecords hadmits hother
  obtain ⟨tree', htree', htop', hrecords'⟩ :=
    exists_records_inside hchildren hcs' hadmits hother
  have hold := hrecords.cell?_eq List.mem_cons_self
  rw [info_of_nested hne] at hold
  have hextended := hrecords'.cell?_eq (List.mem_append_left _ List.mem_cons_self)
  have hnested := nestedCells_append_initialCell hchildren
  rw [info_of_nested (by simp [hnested]), hnested, List.map_append] at hextended
  refine ⟨tree', htree', .inside hnew ?_ (htop'.trans htop.symm) fun name => ?_⟩
  · have hchildren' := hrecords.children_eq List.mem_cons_self
    rw [htop, isLeaf]
    exact (congrArg List.isEmpty hchildren').trans (by simpa [Declaration.children] using hne)
  · rw [htop]
    -- The counter, the outermost cell, and any other cell.
    by_cases hcounter : name = cellName
    · rw [if_pos hcounter, hcounter]
      exact hrecords'.cell?_eq (List.mem_append_right _ (List.mem_singleton_self _))
    · rw [if_neg hcounter]
      by_cases hname : name = tag.name
      · subst hname
        refine hextended.trans ?_
        rw [show tree.cell? tag.name = _ from hold, Option.map_some, if_pos rfl]
        rfl
      · simp only [if_neg hname, Option.map_id']
        refine hrecords.cell?_congr hrecords' fun c hc => ?_
        subst hc
        have hne₁ (body : Term) : c ≠ ⟨none, tag, body⟩ := by
          rintro rfl
          exact hname rfl
        have hne₂ : c ≠ declaration tag.name := by
          rintro rfl
          exact hcounter rfl
        simp [hne₁, hne₂]

/-! ## The counter beside a leaf -/

/-- An outermost cell and the counter. -/
def wrapped (tag : CellTag) (body : Term) : Term :=
  .bag [.cell tag body, initialCell]

theorem declarations_wrapped (hleaf : nestedCells body = []) (tag : CellTag) :
    declarations none (.closed topName) (wrapped tag body) =
      [⟨none, .closed topName, wrapped tag body⟩, ⟨some topName, tag, body⟩,
        declaration topName] := by
  have hnested : nestedCells (wrapped tag body) = [(tag, body), (.closed cellName, .int 0)] := rfl
  rw [declarations_eq, hnested, List.flatMap_cons, List.flatMap_singleton]
  exact congrArg _ (congrArg₂ (· ++ ·) (declarations_of_leaf hleaf (some topName) tag)
    (declarations_initialCell topName))

/-- A leaf and the counter get a new outermost cell. -/
theorem exists_around (hleaf : nestedCells body = []) (hunmixed : ¬ body.Mixed)
    (htop : tag.name ≠ topName) (hcounter : tag.name ≠ cellName) :
    ∃ tree', ofTerm (.closedCell topName (wrapped tag body)) = .ok tree' ∧ tree'.top = topName ∧
      ∀ name, tree'.cell? name =
        if name = cellName then some (initialInfo topName)
        else if name = topName then some (topInfo tag.name)
        else if name = tag.name then some ⟨tag.name, some topName, [], some body, tag.attributes⟩
        else none := by
  have hcs := declarations_wrapped hleaf tag
  obtain ⟨tree', htree', htop', hrecords'⟩ :=
    exists_ofTerm (t := .closedCell topName (wrapped tag body)) (.inl rfl)
      (by
        rw [hcs, List.forall_mem_cons, List.forall_mem_cons, List.forall_mem_singleton]
        exact ⟨not_mixed_of_all rfl, hunmixed, not_mixed_declaration topName⟩)
      (by
        have hapart : topName ≠ cellName := by decide
        have hnames : [topName, tag.name, cellName].Nodup := by
          simp [Ne.symm htop, hcounter, hapart]
        rw [hcs]
        exact hnames)
  rw [hcs] at hrecords'
  refine ⟨tree', htree', htop', fun name => ?_⟩
  split
  · rename_i hname
    rw [hname]
    exact hrecords'.cell?_eq (c := declaration topName) (by simp)
  · rename_i hname₁
    split
    · rename_i hname
      rw [hname]
      exact hrecords'.cell?_eq List.mem_cons_self
    · rename_i hname₂
      split
      · rename_i hname
        rw [hname, ← info_of_leaf hleaf]
        exact hrecords'.cell?_eq (c := ⟨some topName, tag, body⟩) (by simp)
      · rename_i hname₃
        refine hrecords'.cell?_eq_none ?_
        rw [List.forall_mem_cons, List.forall_mem_cons, List.forall_mem_singleton]
        exact ⟨Ne.symm hname₂, Ne.symm hname₃, Ne.symm hname₁⟩

/-- An outermost cell gains the counter. -/
theorem exists_gains_cell (hadmits : Admits ∅ (declarations none tag body))
    (hrecords : tree.Records (declarations none tag body)) (htree : tree.top = tag.name)
    (htop : (Term.cell tag body).mentionsCell topName = false)
    (hnew : (Term.cell tag body).mentionsCell cellName = false) :
    ∃ tree', ofTerm (extendTop (.cell tag body)) = .ok tree' ∧ Gains tree tree' := by
  have hother : ∀ name, (Term.cell tag body).mentionsCell name = false →
      ∀ c ∈ declarations none tag body, c.name ≠ name := by
    rintro _ hname c hc rfl
    exact Bool.eq_false_iff.1 hname (mentionsCell_of_mem_declarations hc)
  have hunknown : tree.contains cellName = false := by
    refine Bool.eq_false_iff.2 fun hknown => ?_
    obtain ⟨c, hc, hname⟩ := hrecords.contains_iff.1 hknown
    exact hother _ hnew c hc hname
  rw [extendTop]
  cases hchildren : childCells? body with
  | some children => exact exists_inside hchildren hrecords htree hadmits hunknown
  | none =>
    have hleaf := nestedCells_of_childCells?_eq_none hchildren
    have hhead := head_mem_declarations none tag body
    obtain ⟨tree', htree', htop', hcells⟩ := exists_around hleaf (hadmits.unmixed _ hhead)
      (hother _ htop _ hhead) (hother _ hnew _ hhead)
    refine ⟨tree', htree', .around hunknown ?_ htop' fun name => ?_⟩
    · have hnone := hrecords.children_eq hhead
      rw [Declaration.children, hleaf] at hnone
      rw [htree, isLeaf]
      exact congrArg List.isEmpty hnone
    · rw [hcells, htree, hrecords.cell?_of_leaf hleaf]
      refine if_congr Iff.rfl rfl (if_congr Iff.rfl rfl ?_)
      split
      · rfl
      · rfl

/-- A configuration gains the counter. -/
theorem exists_gains (h : ofTerm t = .ok tree) (htop : t.mentionsCell topName = false)
    (hcounter : t.mentionsCell cellName = true → tree.contains cellName = true) :
    ∃ tree', ofTerm (extend t) = .ok tree' ∧ Gains tree tree' := by
  by_cases hmentions : t.mentionsCell cellName = true
  · have hextend : extend t = t := if_pos hmentions
    refine ⟨tree, ?_, .known (hcounter hmentions) rfl⟩
    rw [hextend]
    exact h
  · have hnew := Bool.eq_false_iff.2 hmentions
    obtain ⟨tag, body, ht, hadmits, rfl⟩ := ofTerm_eq_ok.1 h
    have hcell : ∀ name, t.mentionsCell name = (Term.cell tag body).mentionsCell name := by
      intro name
      rcases ht with rfl | rfl
      · rfl
      · exact Term.mentionsCell_bag_singleton _ name
    rw [extend_eq_extendTop ht hnew]
    exact exists_gains_cell hadmits (records_declare _ hadmits.distinct) rfl (hcell _ ▸ htop)
      (hcell _ ▸ hnew)

/-! ## The configuration that is extended -/

open Definition

variable {d e : Definition} {cell : String} {c : Configuration}

theorem findSome?_extendFirst (ss : List Sentence) :
    (extendFirst ss).findSome? Sentence.asConfiguration? =
      (ss.findSome? Sentence.asConfiguration?).map fun c => ⟨extend c.body, c.attributes⟩ := by
  induction ss with
  | nil => rfl
  | cons s ss ih =>
    cases s with
    | configuration c => rfl
    | _ => exact ih

theorem declaresConfiguration_iff {m : Module} :
    declaresConfiguration m = true ↔
      (m.sentences.findSome? Sentence.asConfiguration?).isSome = true := by
  rw [declaresConfiguration, List.any_eq_true, List.findSome?_isSome_iff]

/-- The module that is changed is the first one with a configuration, so the configuration that is
seen afterwards is the one that is extended. -/
theorem findSome?_of_rewrites {m : Module} {ms ms' : List Module}
    (h : List.Forall₂ (Module.Rewrites (.inModule m.name extendFirst)) ms ms')
    (hfind : ms.find? declaresConfiguration = some m) :
    (ms'.flatMap (·.sentences)).findSome? Sentence.asConfiguration? =
      ((ms.flatMap (·.sentences)).findSome? Sentence.asConfiguration?).map
        fun c => ⟨extend c.body, c.attributes⟩ := by
  induction h with
  | nil => cases hfind
  | @cons a b ms ms' hab _ ih =>
    obtain ⟨ss, hss, rfl⟩ := hab
    rw [List.flatMap_cons, List.flatMap_cons, List.findSome?_append, List.findSome?_append]
    rw [List.find?_cons] at hfind
    cases hdeclares : declaresConfiguration a with
    | true =>
      -- This is the module that is changed, and its first configuration is the one that is seen.
      rw [hdeclares] at hfind
      cases hfind
      obtain ⟨c, hc⟩ := Option.isSome_iff_exists.1 (declaresConfiguration_iff.1 hdeclares)
      rw [Rewriting.inModule, if_pos rfl] at hss
      rw [hss, findSome?_extendFirst, hc]
      rfl
    | false =>
      -- A module without a configuration has none afterwards, whichever name it has.
      rw [hdeclares] at hfind
      have hnone : a.sentences.findSome? Sentence.asConfiguration? = none := by
        rw [← Option.not_isSome_iff_eq_none, ← declaresConfiguration_iff, hdeclares]
        exact Bool.false_ne_true
      have hnone' : ss.findSome? Sentence.asConfiguration? = none := by
        rw [Rewriting.inModule] at hss
        split at hss
        · rw [hss, findSome?_extendFirst, hnone]
          rfl
        · rw [hss, hnone]
      rw [hnone, hnone', Option.none_or, Option.none_or]
      exact ih hfind

theorem find?_declaresConfiguration_isSome (d : Definition) (name : String) :
    ((d.closure name).find? declaresConfiguration).isSome = (d.configuration? name).isSome := by
  rw [Bool.eq_iff_iff, List.find?_isSome, configuration?, sentencesOf, List.findSome?_isSome_iff]
  simp only [declaresConfiguration, List.any_eq_true, List.mem_flatMap]
  constructor
  · rintro ⟨m, hm, s, hs, hconfiguration⟩
    exact ⟨s, ⟨m, hm, hs⟩, hconfiguration⟩
  · rintro ⟨s, ⟨m, hm, hs⟩, hconfiguration⟩
    exact ⟨m, hm, s, hs, hconfiguration⟩

/-- The configuration that the main module sees is extended. -/
theorem configuration?_declare (h : declare cell d = .ok e)
    (hc : d.configuration? d.main = some c) :
    e.configuration? e.main = some ⟨extend c.body, c.attributes⟩ := by
  have hsome : ((d.closure d.main).find? declaresConfiguration).isSome = true := by
    rw [find?_declaresConfiguration_isSome, hc]
    rfl
  obtain ⟨m, hfind⟩ := Option.isSome_iff_exists.1 hsome
  rw [declare, hfind] at h
  have hmodule := module?_of_mem_closure (List.mem_of_find?_eq_some hfind)
  have hrewrites := (withModule_eq_ok hmodule).1 (Except.mapError_eq_ok.1 h)
  rw [hrewrites.main, configuration?, sentencesOf,
    findSome?_of_rewrites (hrewrites.closure d.main) hfind]
  exact congrArg (Option.map _) hc

/-- Without a configuration, the main module sees the one that is made up. -/
theorem configuration?_declare_of_none (h : declare cell d = .ok e)
    (hnone : d.configuration? d.main = none) :
    e.configuration? e.main =
      some ⟨.closedCell topName (wrapped (.closed cell) (.sortedVar Variable.pgm .k)), ∅⟩ := by
  have hfind : (d.closure d.main).find? declaresConfiguration = none := by
    rw [← Option.isNone_iff_eq_none, ← Option.not_isSome, find?_declaresConfiguration_isSome, hnone]
    rfl
  rw [declare, hfind] at h
  have hsome : (e.configuration? e.main).isSome = true := by
    have hadded := mem_sentencesOf_appendToMain h (List.mem_singleton_self _)
    exact List.findSome?_isSome_iff.2 ⟨_, hadded, rfl⟩
  obtain ⟨c, hc⟩ := Option.isSome_iff_exists.1 hsome
  -- The first configuration is one of those that were seen before, of which there are none, or the
  -- one that was added.
  obtain ⟨s, hs, hsc⟩ := List.exists_of_findSome?_eq_some hc
  rcases mem_sentencesOf_of_appendToMain h hs with hs | hs
  · rw [(appendToMain_eq_ok.1 h).main] at hs
    rw [List.findSome?_eq_none_iff.1 hnone s hs] at hsc
    cases hsc
  · rw [List.mem_singleton.1 hs] at hsc
    rw [hc, ← hsc]
    rfl

/-- The counter can be added to every definition. -/
theorem exists_declare_eq_ok (cell : String) (d : Definition) : ∃ e, declare cell d = .ok e := by
  cases hfind : (d.closure d.main).find? declaresConfiguration with
  | some m =>
    have hmodule := module?_of_mem_closure (List.mem_of_find?_eq_some hfind)
    have htotal : ∀ name ss, ∃ ts, Rewriting.inModule m.name extendFirst name ss ts :=
      fun _ _ => ⟨_, rfl⟩
    obtain ⟨e, he⟩ := exists_rewrites_of_total htotal d
    refine ⟨e, ?_⟩
    rw [declare, hfind]
    exact Except.mapError_eq_ok.2 ((withModule_eq_ok hmodule).2 he)
  | none =>
    rw [declare, hfind]
    exact exists_appendToMain d _

end Counter

namespace FreshConstants

open CellTree Counter

variable {d e : Definition} {cell : String}

/-- Where rules make up values, the configuration that is seen is extended and the others are not
looked at. -/
theorem exists_declare (h : resolve cell d = .ok e) (hcount : ruleCount d ≠ 0) :
    ∃ resolved, resolved.configuration? resolved.main = d.configuration? d.main ∧
      declare cell resolved = .ok e := by
  obtain ⟨resolved, hresolved, he⟩ := Except.bind_eq_ok.1 h
  rw [if_neg hcount] at he
  obtain ⟨R, hR, hkeeps⟩ := Definition.exists_rewriting_of_mapRules hresolved
  refine ⟨resolved, ?_, he⟩
  rw [hR.configuration?_eq (hkeeps fun _ => rfl), hR.main]

/-- Where the values of all rules can be made up, nothing else is in the way. -/
theorem exists_resolve (cell : String)
    (h : (d.mapRules (resolveRule d)).toOption.isSome = true) : ∃ e, resolve cell d = .ok e := by
  obtain ⟨resolved, hresolved⟩ := Option.isSome_iff_exists.1 h
  have hresolved := Except.toOption_eq_some.1 hresolved
  by_cases hcount : ruleCount d = 0
  · exact ⟨resolved, Except.bind_eq_ok.2 ⟨resolved, hresolved, if_pos hcount⟩⟩
  · obtain ⟨e, he⟩ := exists_declare_eq_ok cell resolved
    exact ⟨e, Except.bind_eq_ok.2 ⟨resolved, hresolved, (if_neg hcount).trans he⟩⟩

/-- Making up values keeps the configuration and adds the counter to it. A configuration that has a
cell tree has one with the counter afterwards, provided that no cell has the name that a new
outermost cell gets and a counter that occurs in it is declared; everything that is recorded of its
cells stays but for what `Gains` says. Without a configuration, the computation cell and the counter
stand in a new outermost cell. -/
theorem gains_of_resolve (h : resolve cell d = .ok e) (hcount : ruleCount d ≠ 0) :
    (∀ c tree, d.configuration? d.main = some c → CellTree.ofModule d d.main = .ok tree →
      c.body.mentionsCell topName = false →
      (c.body.mentionsCell cellName = true → tree.contains cellName = true) →
      ∃ tree', CellTree.ofModule e e.main = .ok tree' ∧ tree'.contains cellName = true ∧
        Gains tree tree') ∧
    (d.configuration? d.main = none → cell ≠ topName → cell ≠ cellName →
      ∃ tree', CellTree.ofModule e e.main = .ok tree' ∧ tree'.top = topName ∧
        ∀ name, tree'.cell? name =
          if name = cellName then some (initialInfo topName)
          else if name = topName then some (topInfo cell)
          else if name = cell then
            some ⟨cell, some topName, [], some (.sortedVar Variable.pgm .k), ∅⟩
          else none) := by
  obtain ⟨resolved, hresolved, hdeclare⟩ := exists_declare h hcount
  refine ⟨fun c tree hc htree htop hcounter => ?_, fun hnone htop hcounter => ?_⟩
  · rw [ofModule, hc] at htree
    obtain ⟨tree', htree', hgains⟩ := exists_gains htree htop hcounter
    refine ⟨tree', ?_, hgains.contains, hgains⟩
    rw [ofModule, configuration?_declare hdeclare (hresolved.trans hc)]
    exact htree'
  · rw [ofModule, configuration?_declare_of_none hdeclare (hresolved.trans hnone)]
    have hunmixed : ¬ (Term.sortedVar Variable.pgm .k).Mixed := by
      rintro ⟨_, hbag, -⟩
      cases hbag
    exact @exists_around _ (.closed cell) rfl hunmixed htop hcounter

/-- A rule that makes up an integer, and no configuration. -/
def plainModule : Module :=
  ⟨"M", [], [.production ⟨.int, some "freshInt", [.int],
      (∅ : Attributes).withMarker Attributes.freshGenerator⟩,
    .rule (.ofBody (.rewrite (.constant "a") (.ofName "!N")))], ∅⟩

def plainDefinition : Definition :=
  ⟨"M", .insert ∅ plainModule.name plainModule, ∅, ModuleMap.named_empty.insert plainModule,
    by cbv⟩

/-- A configuration gains the counter, and one is made up where there is none. -/
theorem gains_of_resolve_bareDefinition :
    (∃ e tree tree', resolve computationCell Pass.bareDefinition = .ok e ∧
      ofModule Pass.bareDefinition Pass.bareDefinition.main = .ok tree ∧
      ofModule e e.main = .ok tree' ∧ tree'.contains cellName = true ∧ Gains tree tree') ∧
    ∃ e tree', resolve computationCell plainDefinition = .ok e ∧
      ofModule e e.main = .ok tree' ∧ tree'.top = topName ∧
      tree'.cell? topName = some (topInfo computationCell) := by
  constructor
  · obtain ⟨e, he⟩ : ∃ e, resolve computationCell Pass.bareDefinition = .ok e :=
      exists_resolve _ (by cbv)
    have hread : (ofModule Pass.bareDefinition Pass.bareDefinition.main).toOption.isSome = true :=
      by cbv
    obtain ⟨tree, htree⟩ := Option.isSome_iff_exists.1 hread
    have htree := Except.toOption_eq_some.1 htree
    have hseen : (Pass.bareDefinition.configuration? Pass.bareDefinition.main).map (fun c =>
        c.body.mentionsCell topName || c.body.mentionsCell cellName) = some false := by cbv
    obtain ⟨c, hc, hmentions⟩ := Option.map_eq_some_iff.1 hseen
    obtain ⟨htop, hcounter⟩ := Bool.or_eq_false_iff.1 hmentions
    obtain ⟨tree', htree', hgains⟩ := (gains_of_resolve he (by cbv)).1 c tree hc htree htop
      fun hknown => absurd hknown (Bool.eq_false_iff.1 hcounter)
    exact ⟨e, tree, tree', he, htree, htree', hgains⟩
  · obtain ⟨e, he⟩ : ∃ e, resolve computationCell plainDefinition = .ok e :=
      exists_resolve _ (by cbv)
    obtain ⟨tree', htree', htop, hcells⟩ :=
      (gains_of_resolve he (by cbv)).2 (by cbv) (by decide) (by decide)
    exact ⟨e, tree', he, htree', htop, (hcells topName).trans (if_neg (by decide))⟩

end FreshConstants

end RewriteSemantics
