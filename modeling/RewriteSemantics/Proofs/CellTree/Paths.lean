/-
# Parents, children and paths

A cell tree stores the links between its cells twice, from the parent to its children and from the
child to its parent, each in the entry of its own cell. As all names are distinct, the two agree:
every cell but the outermost one is listed once, by its parent, and by no other cell. So the way up
from a cell is determined at every step, and it ends, since it retraces the walk that declared the
cell.
-/
import Mathlib
import RewriteSemantics.Proofs.CellTree.Declarations

namespace RewriteSemantics.CellTree

/-! ## Links between declarations -/

theorem head_mem_declarations (parent : Option String) (tag : CellTag) (body : Term) :
    ⟨parent, tag, body⟩ ∈ declarations parent tag body := by
  rw [declarations_eq]
  exact List.mem_cons_self

theorem mem_declarations_of_nested {parent : Option String} {tag : CellTag} {body : Term}
    {c : CellTag × Term} (hc : c ∈ nestedCells body) {e : Declaration}
    (he : e ∈ declarations (some tag.name) c.1 c.2) : e ∈ declarations parent tag body := by
  rw [declarations_eq]
  exact List.mem_cons_of_mem _ (List.mem_flatMap.2 ⟨c, hc, he⟩)

/-- A declared cell is the outermost one, or it is a child of the declared cell that it names as its
parent. -/
theorem parent_of_mem {parent : Option String} {tag : CellTag} {body : Term} {c : Declaration}
    (hc : c ∈ declarations parent tag body) : c = ⟨parent, tag, body⟩ ∨
      ∃ outer ∈ declarations parent tag body, c.parent = some outer.name ∧
        c.name ∈ outer.children := by
  induction body using induct_nested generalizing parent tag with
  | h body ih =>
    rw [declarations_eq] at hc
    rcases List.mem_cons.1 hc with rfl | hc
    · exact .inl rfl
    · obtain ⟨inner, hinner, hc⟩ := List.mem_flatMap.1 hc
      rcases ih inner hinner hc with rfl | ⟨outer, houter, hlink⟩
      · exact .inr ⟨_, head_mem_declarations parent tag body, rfl,
          List.mem_map.2 ⟨inner, hinner, rfl⟩⟩
      · exact .inr ⟨outer, mem_declarations_of_nested hinner houter, hlink⟩

/-- A child of a declared cell is declared, and names the cell as its parent. -/
theorem child_of_mem {parent : Option String} {tag : CellTag} {body : Term} {outer : Declaration}
    (houter : outer ∈ declarations parent tag body) {x : String} (hx : x ∈ outer.children) :
    ∃ c ∈ declarations parent tag body, c.name = x ∧ c.parent = some outer.name := by
  induction body using induct_nested generalizing parent tag with
  | h body ih =>
    rw [declarations_eq] at houter
    rcases List.mem_cons.1 houter with rfl | houter
    · obtain ⟨inner, hinner, rfl⟩ := List.mem_map.1 hx
      exact ⟨⟨some tag.name, inner.1, inner.2⟩,
        mem_declarations_of_nested hinner (head_mem_declarations ..), rfl, rfl⟩
    · obtain ⟨inner, hinner, houter⟩ := List.mem_flatMap.1 houter
      obtain ⟨c, hc, hlink⟩ := ih inner hinner houter
      exact ⟨c, mem_declarations_of_nested hinner hc, hlink⟩

/-- The names that are declared are that of the outermost cell and those of all children. -/
theorem names_perm (parent : Option String) (tag : CellTag) (body : Term) :
    ((declarations parent tag body).map Declaration.name).Perm
      (tag.name :: (declarations parent tag body).flatMap Declaration.children) := by
  induction body using induct_nested generalizing parent tag with
  | h body ih =>
    rw [declarations_eq, List.map_cons, List.flatMap_cons, List.map_flatMap, List.flatMap_assoc]
    refine List.Perm.cons tag.name ?_
    -- the name in front of each cell inside goes to the children of the cell around it
    have hinside : ((nestedCells body).flatMap fun c =>
        (declarations (some tag.name) c.1 c.2).map Declaration.name).Perm
          ((nestedCells body).flatMap fun c =>
            [c.1.name] ++ (declarations (some tag.name) c.1 c.2).flatMap Declaration.children) :=
      List.Perm.flatMap_left _ fun c hc => ih c hc (some tag.name) c.1
    have hnames : (nestedCells body).flatMap (fun c => [c.1.name]) =
        Declaration.children ⟨parent, tag, body⟩ := List.flatMap_pure_eq_map _ _
    rw [← hnames]
    exact hinside.trans (List.flatMap_append_perm ..).symm

/-! ## The way up -/

/-- The way up from a cell, as it is walked: it ends at a name that is not declared or at a cell
without a parent. The names are listed from the top. -/
inductive Climbs (tree : CellTree) : String → List String → Prop
  | unknown {name : String} : ¬ tree.contains name = true → Climbs tree name []
  | top {name : String} : tree.contains name = true → tree.parent? name = none →
    Climbs tree name [name]
  | up {name parent : String} {above : List String} : tree.contains name = true →
    tree.parent? name = some parent → Climbs tree parent above →
    Climbs tree name (above ++ [name])

section

variable {tree : CellTree} {name : String} {l l' : List String}

/-- There is at most one way up. -/
theorem Climbs.unique (h : tree.Climbs name l) (h' : tree.Climbs name l') : l = l' := by
  induction h generalizing l' with
  | unknown hunknown =>
    cases h' with
    | unknown _ => rfl
    | top hknown _ => exact absurd hknown hunknown
    | up hknown _ _ => exact absurd hknown hunknown
  | top hknown htop =>
    cases h' with
    | unknown hunknown => exact absurd hknown hunknown
    | top _ _ => rfl
    | up _ hparent _ =>
      rw [htop] at hparent
      cases hparent
  | up hknown hparent _ ih =>
    cases h' with
    | unknown hunknown => exact absurd hknown hunknown
    | top _ htop =>
      rw [htop] at hparent
      cases hparent
    | up _ hparent' habove =>
      rw [hparent] at hparent'
      cases hparent'
      rw [ih habove]

/-- From every cell on a way up there is a way up that is no longer. -/
theorem Climbs.of_mem (h : tree.Climbs name l) {x : String} (hx : x ∈ l) :
    ∃ l', tree.Climbs x l' ∧ l'.length ≤ l.length := by
  induction h with
  | unknown _ => cases hx
  | @top name hknown htop =>
    rw [List.mem_singleton.1 hx]
    exact ⟨_, .top hknown htop, le_rfl⟩
  | @up name parent above hknown hparent habove ih =>
    rcases List.mem_append.1 hx with hx | hx
    · obtain ⟨l', hl', hlength⟩ := ih hx
      refine ⟨l', hl', ?_⟩
      rw [List.length_append]
      omega
    · rw [List.mem_singleton.1 hx]
      exact ⟨_, .up hknown hparent habove, le_rfl⟩

/-- A way up that ends meets no cell twice. -/
theorem Climbs.nodup (h : tree.Climbs name l) : l.Nodup := by
  induction h with
  | unknown _ => exact .nil
  | top _ _ => exact List.nodup_singleton _
  | @up name parent above hknown hparent habove ih =>
    refine List.nodup_append.2 ⟨ih, List.nodup_singleton _, fun x hx y hy hxy => ?_⟩
    rw [List.mem_singleton.1 hy] at hxy
    subst hxy
    -- the way up from the cell would be longer than one of its parts
    obtain ⟨l', hl', hlength⟩ := habove.of_mem hx
    rw [hl'.unique (.up hknown hparent habove), List.length_append] at hlength
    simp at hlength

/-- Climbing takes out each cell it has met, which makes no difference on a way that ends. -/
theorem Climbs.climb_eq (h : tree.Climbs name l) {cells : Cells}
    (hsame : ∀ x ∈ l, cells.get? x = tree.cells.get? x)
    (hnone : ∀ x, tree.cells.get? x = none → cells.get? x = none) : climb cells name = l := by
  induction h generalizing cells with
  | @unknown name hunknown =>
    have hunknown : ¬ cells.contains name = true :=
      OrderedMap.get?_eq_none_iff.1 (hnone name (OrderedMap.get?_eq_none_iff.2 hunknown))
    rw [climb, dif_neg hunknown]
  | @top name hknown htop =>
    obtain ⟨info, hinfo⟩ := OrderedMap.contains_iff.1 hknown
    have hget : cells.get? name = some info :=
      (hsame name (List.mem_singleton_self name)).trans hinfo
    have hparent : info.parent = none := by
      rw [parent?, cell?, hinfo] at htop
      exact htop
    have hcontains : cells.contains name = true := OrderedMap.contains_iff.2 ⟨info, hget⟩
    rw [climb, dif_pos hcontains, OrderedMap.get_eq_of_get? hget hcontains]
    simp only [hparent]
  | @up name parent above hknown hup habove ih =>
    obtain ⟨info, hinfo⟩ := OrderedMap.contains_iff.1 hknown
    have hget : cells.get? name = some info :=
      (hsame name (List.mem_append_right _ (List.mem_singleton_self name))).trans hinfo
    have hparent : info.parent = some parent := by
      rw [parent?, cell?, hinfo] at hup
      exact hup
    have hcontains : cells.contains name = true := OrderedMap.contains_iff.2 ⟨info, hget⟩
    have hnotMem : name ∉ above := by
      have hnodup := (Climbs.up hknown hup habove).nodup
      exact fun hmem => (List.nodup_append.1 hnodup).2.2 name hmem name
        (List.mem_singleton_self name) rfl
    have hrest : climb (cells.erase name) parent = above := by
      refine ih (fun x hx => ?_) fun x hx => ?_
      · have hne : x ≠ name := by
          rintro rfl
          exact hnotMem hx
        rw [OrderedMap.get?_erase, if_neg hne, hsame x (List.mem_append_left _ hx)]
      · rw [OrderedMap.get?_erase, hnone x hx, ite_self]
    rw [climb, dif_pos hcontains, OrderedMap.get_eq_of_get? hget hcontains]
    simp only [hparent, hrest]

theorem Climbs.path_eq (h : tree.Climbs name l) : tree.path name = l :=
  h.climb_eq (fun _ _ => rfl) fun _ hx => hx

end

/-! ## Well-formed trees -/

/-- Steps from a cell to one of its children, from the outermost cell down to a cell. -/
structure IsChainTo (tree : CellTree) (name : String) (chain : List String) : Prop where
  starts : chain.head? = some tree.top
  ends : chain.getLast? = some name
  steps : chain.IsChain fun outer inner => inner ∈ tree.children outer

/-- A cell tree with one entry for each of some declarations, whose links agree. -/
structure WellFormed (tree : CellTree) (cs : List Declaration) : Prop where
  /-- The cells are exactly the declared ones. Their children come in the order of the
  declarations. -/
  cells : ∀ name info, tree.cell? name = some info ↔ ∃ c ∈ cs, c.name = name ∧ c.info = info
  top_declared : tree.contains tree.top = true
  /-- Only the outermost cell has no parent. -/
  top : ∀ name, tree.contains name = true → (tree.parent? name = none ↔ name = tree.top)
  /-- A cell is listed once, by its parent, and by no other cell. -/
  parent : ∀ name outer, tree.parent? name = some outer →
    tree.contains outer = true ∧ (tree.children outer).count name = 1 ∧
      ∀ other, name ∈ tree.children other → other = outer
  /-- What a cell lists is declared, with this cell for its parent. -/
  child : ∀ name outer, name ∈ tree.children outer → tree.parent? name = some outer
  /-- A cell has an initial content exactly if it has no children. -/
  leaf : ∀ name info, tree.cell? name = some info →
    (info.initializer.isSome = true ↔ info.children = [])
  /-- The way up from every name ends, and the path is what has been met. -/
  climbs : ∀ name l, tree.Climbs name l ↔ l = tree.path name
  /-- The path to a declared cell is the only chain down to it. -/
  path : ∀ name, tree.contains name = true →
    ∀ chain, tree.IsChainTo name chain ↔ chain = tree.path name
  path_unknown : ∀ name, ¬ tree.contains name = true → tree.path name = []

/-! ## Links in a tree -/

section

variable {tree : CellTree} {tag : CellTag} {body : Term}

/-- What a cell lists is declared with this cell for its parent. -/
theorem Records.parent?_of_child (h : tree.Records (declarations none tag body))
    {name outer : String} (hchild : name ∈ tree.children outer) :
    tree.parent? name = some outer := by
  obtain ⟨o, ho, rfl, hname⟩ := h.exists_of_mem_children hchild
  obtain ⟨c, hc, rfl, hparent⟩ := child_of_mem ho hname
  rw [h.parent?_eq hc, hparent]

/-- A cell is listed by its parent. -/
theorem Records.child_of_parent? (h : tree.Records (declarations none tag body))
    {name outer : String} (hparent : tree.parent? name = some outer) :
    tree.contains outer = true ∧ name ∈ tree.children outer := by
  obtain ⟨c, hc, rfl, houter⟩ := h.exists_of_parent? hparent
  rcases parent_of_mem hc with rfl | ⟨o, ho, ho', hchild⟩
  · cases houter
  · rw [ho'] at houter
    cases houter
    rw [h.children_eq ho]
    exact ⟨h.contains_iff.2 ⟨o, ho, rfl⟩, hchild⟩

theorem Records.parent?_eq_none_iff (h : tree.Records (declarations none tag body))
    (htop : tree.top = tag.name) {name : String} (hname : tree.contains name = true) :
    tree.parent? name = none ↔ name = tree.top := by
  obtain ⟨c, hc, rfl⟩ := h.contains_iff.1 hname
  constructor
  · intro hnone
    rw [h.parent?_eq hc] at hnone
    rcases parent_of_mem hc with rfl | ⟨o, -, hparent, -⟩
    · exact htop.symm
    · rw [hparent] at hnone
      cases hnone
  · intro heq
    rw [heq, htop]
    exact h.parent?_eq (head_mem_declarations none tag body)

/-- No cell lists a name twice. -/
theorem Records.nodup_children (h : tree.Records (declarations none tag body))
    (hnodup : ((declarations none tag body).map Declaration.name).Nodup) (outer : String) :
    (tree.children outer).Nodup := by
  -- the children of all cells together are distinct, so those of each cell are
  have hnames := ((names_perm none tag body).nodup_iff.1 hnodup).of_cons
  unfold children
  split
  · rename_i info hinfo
    obtain ⟨c, hc, -, rfl⟩ := (h _ _).1 hinfo
    exact (List.nodup_flatMap.1 hnames).1 c hc
  · exact .nil

/-- Below a cell with a way up there are only cells with a way up. -/
theorem exists_climbs {parent : Option String}
    (hcells : ∀ c ∈ declarations parent tag body, tree.cell? c.name = some c.info)
    (htop : ∃ l, tree.Climbs tag.name l) {c : Declaration}
    (hc : c ∈ declarations parent tag body) : ∃ l, tree.Climbs c.name l := by
  induction body using induct_nested generalizing parent tag with
  | h body ih =>
    rw [declarations_eq] at hc
    rcases List.mem_cons.1 hc with rfl | hc
    · exact htop
    · obtain ⟨inner, hinner, hc⟩ := List.mem_flatMap.1 hc
      have hinside : ∀ e ∈ declarations (some tag.name) inner.1 inner.2,
          tree.cell? e.name = some e.info :=
        fun e he => hcells e (mem_declarations_of_nested hinner he)
      refine ih inner hinner hinside ?_ hc
      -- the way up from a cell inside goes on from the cell around it
      have hhead := hinside _ (head_mem_declarations ..)
      obtain ⟨above, habove⟩ := htop
      refine ⟨above ++ [inner.1.name], .up (OrderedMap.contains_iff.2 ⟨_, hhead⟩) ?_ habove⟩
      exact (congrArg (Option.bind · CellInfo.parent) hhead).trans rfl

theorem Records.exists_climbs (h : tree.Records (declarations none tag body))
    (htop : tree.top = tag.name) (name : String) : ∃ l, tree.Climbs name l := by
  by_cases hname : tree.contains name = true
  · obtain ⟨c, hc, rfl⟩ := h.contains_iff.1 hname
    refine CellTree.exists_climbs (fun c hc => h.cell?_eq hc) ⟨[tag.name], ?_⟩ hc
    have hdeclared : tree.contains tag.name = true :=
      h.contains_iff.2 ⟨_, head_mem_declarations none tag body, rfl⟩
    exact .top hdeclared ((h.parent?_eq_none_iff htop hdeclared).2 htop.symm)
  · exact ⟨[], .unknown hname⟩

/-! ## Chains -/

/-- The way up from a declared cell is a chain down to it. -/
theorem Climbs.isChainTo (h : tree.Records (declarations none tag body))
    (htop : tree.top = tag.name) {name : String} {l : List String} (hl : tree.Climbs name l)
    (hname : tree.contains name = true) : tree.IsChainTo name l := by
  induction hl with
  | unknown hunknown => exact absurd hname hunknown
  | @top name _ hnone =>
    rw [(h.parent?_eq_none_iff htop hname).1 hnone]
    exact ⟨rfl, rfl, List.isChain_singleton _⟩
  | @up name outer above _ hparent _ ih =>
    obtain ⟨houter, hchild⟩ := h.child_of_parent? hparent
    obtain ⟨hstarts, hends, hsteps⟩ := ih houter
    refine ⟨?_, List.getLast?_concat, ?_⟩
    · rw [List.head?_append, hstarts]
      rfl
    · refine List.isChain_append.2 ⟨hsteps, List.isChain_singleton _, fun x hx y hy => ?_⟩
      rw [hends] at hx
      cases hx
      cases hy
      exact hchild

/-- A chain down to a cell is the way up from it. -/
theorem IsChainTo.climbs (h : tree.Records (declarations none tag body))
    (htop : tree.top = tag.name) {name : String} {chain : List String}
    (hchain : tree.IsChainTo name chain) : tree.Climbs name chain := by
  induction chain using List.reverseRecOn generalizing name with
  | nil => cases hchain.ends
  | append_singleton above last ih =>
    obtain ⟨hstarts, hends, hsteps⟩ := hchain
    rw [List.getLast?_concat] at hends
    cases hends
    rcases List.eq_nil_or_concat' above with rfl | ⟨front, outer, rfl⟩
    · cases hstarts
      have hdeclared : tree.contains tree.top = true :=
        h.contains_iff.2 ⟨_, head_mem_declarations none tag body, htop.symm⟩
      exact .top hdeclared ((h.parent?_eq_none_iff htop hdeclared).2 rfl)
    · -- the last step comes from the parent, and the steps before it are a chain to the parent
      obtain ⟨hfront, -, hlink⟩ := List.isChain_append.1 hsteps
      have hchild : last ∈ tree.children outer :=
        hlink outer (by rw [List.getLast?_concat]; rfl) last rfl
      have hparent := h.parent?_of_child hchild
      obtain ⟨c, hc, hname, -⟩ := h.exists_of_parent? hparent
      refine .up (h.contains_iff.2 ⟨c, hc, hname⟩) hparent (ih ⟨?_, List.getLast?_concat, hfront⟩)
      rw [List.head?_append, List.head?_append] at hstarts
      rw [List.head?_append]
      cases hfirst : front.head? with
      | none => simpa [hfirst] using hstarts
      | some first => simpa [hfirst] using hstarts

end

/-! ## Reading a configuration -/

theorem wellFormed_declare {tag : CellTag} {body : Term}
    (hadmits : Admits ∅ (declarations none tag body)) :
    WellFormed ⟨tag.name, declare ∅ (declarations none tag body)⟩ (declarations none tag body) := by
  have h := records_declare tag.name hadmits.distinct
  generalize htree : CellTree.mk tag.name (declare ∅ (declarations none tag body)) = tree at h ⊢
  have htop : tree.top = tag.name := by rw [← htree]
  have hclimbs : ∀ name l, tree.Climbs name l ↔ l = tree.path name := by
    intro name l
    -- there is one way up from every name, and it is what the path collects
    obtain ⟨l', hl'⟩ := h.exists_climbs htop name
    rw [hl'.path_eq]
    exact ⟨fun hl => hl.unique hl', fun hl => hl ▸ hl'⟩
  refine ⟨h, ?_, fun name hname => h.parent?_eq_none_iff htop hname, ?_,
    fun name outer hchild => h.parent?_of_child hchild, ?_, hclimbs, ?_, ?_⟩
  · exact h.contains_iff.2 ⟨_, head_mem_declarations none tag body, htop.symm⟩
  · intro name outer hparent
    obtain ⟨houter, hchild⟩ := h.child_of_parent? hparent
    refine ⟨houter, ?_, fun other hother => ?_⟩
    · exact List.count_eq_one_of_mem (h.nodup_children hadmits.distinct outer) hchild
    · exact Option.some.inj ((h.parent?_of_child hother).symm.trans hparent)
  · intro name info hinfo
    obtain ⟨c, -, -, rfl⟩ := (h _ _).1 hinfo
    show c.initializer.isSome = true ↔ c.children = []
    rw [Declaration.initializer, Declaration.children, List.map_eq_nil_iff, ← List.isEmpty_iff]
    split
    · rename_i hleaf
      exact ⟨fun _ => hleaf, fun _ => rfl⟩
    · rename_i hinner
      constructor
      · intro hsome
        cases hsome
      · intro hleaf
        exact absurd hleaf hinner
  · intro name hname chain
    rw [← hclimbs]
    exact ⟨fun hchain => hchain.climbs h htop, fun hl => hl.isChainTo h htop hname⟩
  · intro name hname
    exact ((hclimbs name []).1 (.unknown hname)).symm

/-- A configuration has a cell tree exactly if it is a cell or a bag of just one, no declared cell
has cells beside other things for its content, and no name is declared twice. The tree has an entry
for every declaration, its links agree, and its paths are the chains down from the outermost
cell. -/
theorem wellFormed_ofTerm (t : Term) :
    ((∃ tree, ofTerm t = .ok tree) ↔
      ∃ tag body, (t = .cell tag body ∨ t = .bag [.cell tag body]) ∧
        (∀ c ∈ declarations none tag body, ¬ c.body.Mixed) ∧
        ((declarations none tag body).map Declaration.name).Nodup) ∧
    ∀ tree, ofTerm t = .ok tree →
      ∃ tag body, (t = .cell tag body ∨ t = .bag [.cell tag body]) ∧ tree.top = tag.name ∧
        tree.WellFormed (declarations none tag body) := by
  constructor
  · constructor
    · rintro ⟨tree, htree⟩
      obtain ⟨tag, body, ht, hadmits, -⟩ := ofTerm_eq_ok.1 htree
      exact ⟨tag, body, ht, hadmits.unmixed, hadmits.distinct⟩
    · rintro ⟨tag, body, ht, hunmixed, hdistinct⟩
      exact ⟨_, ofTerm_eq_ok.2 ⟨tag, body, ht, ⟨hunmixed, hdistinct, fun _ _ => rfl⟩, rfl⟩⟩
  · intro tree htree
    obtain ⟨tag, body, ht, hadmits, rfl⟩ := ofTerm_eq_ok.1 htree
    exact ⟨tag, body, ht, rfl, wellFormed_declare hadmits⟩

/-- A computation beside a store with two parts. -/
def computationAndStore : Term :=
  .bag [.closedCell "k" (.sortedVar Variable.pgm .k),
    .closedCell "store" (.bag [.closedCell "env" (.bag []), .closedCell "mem" (.bag [])])]

theorem wellFormed_computationAndStore :
    ∃ tree, ofTerm (.closedCell "T" computationAndStore) = .ok tree ∧
      tree.children "store" = ["env", "mem"] ∧
      ∀ chain, tree.IsChainTo "mem" chain ↔ chain = ["T", "store", "mem"] := by
  obtain ⟨tree, htree, hchildren, hdeclared, hpath⟩ :
      ∃ tree, ofTerm (.closedCell "T" computationAndStore) = .ok tree ∧
        tree.children "store" = ["env", "mem"] ∧ tree.contains "mem" = true ∧
        tree.path "mem" = ["T", "store", "mem"] :=
    ⟨⟨"T", declare ∅ (declarations none (.closed "T") computationAndStore)⟩,
      by cbv, by cbv, by cbv, by cbv⟩
  obtain ⟨tag, body, -, -, hwell⟩ := (wellFormed_ofTerm _).2 tree htree
  exact ⟨tree, htree, hchildren, fun chain => hpath ▸ hwell.path "mem" hdeclared chain⟩

end RewriteSemantics.CellTree
