/-
# Placing what a rule writes

The body of a rule is built down the cell tree from a stock of contents and variables, and what has
been used is taken out of the stock. A layout has every name once, so nothing is asked for twice,
and taking out makes no difference on the way: the body can be built by reading an unchanging stock
along the layout. Only the names of new variables are handed on.
-/
import RewriteSemantics.Proofs.CellTree.Layout
import RewriteSemantics.Rule.Concretization

namespace RewriteSemantics.Concretization

open Layout

/-! ## Building along a layout -/

/-- Whether content is to be placed into some cell of a layout. -/
def holds (f : Fragments) (l : Layout) : Bool :=
  l.names.any f.cells.contains

mutual

/-- The body built along a layout, and the names that are free behind it. -/
def place (f : Fragments) : Layout → FreshNames → Term × FreshNames
  | .node name children, names => match f.cells.get? name with
    | some (tag, body) =>
      let (t, g) := close tag body { f with names := names }
      (t, g.names)
    | none =>
      let (items, names) := placeAll f children names
      let (beside, g) := besideChildren name (children.any (!holds f ·)) { f with names := names }
      (.closedCell name (contentOf (items ++ beside)), g.names)

/-- The bodies of those of some layouts that content is placed into. -/
def placeAll (f : Fragments) : List Layout → FreshNames → List Term × FreshNames
  | [], names => ([], names)
  | l :: ls, names =>
    if holds f l then
      let (item, names) := place f l names
      let (items, names) := placeAll f ls names
      (item :: items, names)
    else placeAll f ls names

end

mutual

/-- The cells whose content is placed: those with content that lie in no other one. -/
def placed (f : Fragments) : Layout → List String
  | .node name children => if f.cells.contains name then [name] else placedAll f children

/-- The cells of some layouts whose content is placed. -/
def placedAll (f : Fragments) : List Layout → List String
  | [] => []
  | l :: ls => placed f l ++ placedAll f ls

end

mutual

/-- The cells that are built from their children. -/
def passed (f : Fragments) : Layout → List String
  | .node name children => if f.cells.contains name then [] else name :: passedAll f children

/-- The cells of some layouts that are built from their children. -/
def passedAll (f : Fragments) : List Layout → List String
  | [] => []
  | l :: ls => if holds f l then passed f l ++ passedAll f ls else passedAll f ls

end

theorem holds_iff {f : Fragments} {l : Layout} :
    holds f l = true ↔ ∃ x ∈ l.names, f.cells.contains x = true :=
  List.any_eq_true

theorem mem_placedAll {f : Fragments} {ls : List Layout} {x : String} :
    x ∈ placedAll f ls ↔ ∃ l ∈ ls, x ∈ placed f l := by
  induction ls with
  | nil => simp [placedAll]
  | cons l ls ih => simp [placedAll, ih]

theorem mem_passedAll {f : Fragments} {ls : List Layout} {x : String} :
    x ∈ passedAll f ls ↔ ∃ l ∈ ls, holds f l = true ∧ x ∈ passed f l := by
  induction ls with
  | nil => simp [passedAll]
  | cons l ls ih =>
    rw [passedAll]
    by_cases hl : holds f l = true
    · simp [hl, ih]
    · simp [hl, ih]

theorem placed_subset (f : Fragments) (l : Layout) : ∀ x ∈ placed f l, x ∈ l.names := by
  induction l using Layout.induct with
  | node name ls ih =>
    intro x hx
    rw [placed] at hx
    split at hx
    · exact List.mem_singleton.1 hx ▸ List.mem_cons_self
    · obtain ⟨l, hl, hx⟩ := mem_placedAll.1 hx
      exact List.mem_cons_of_mem _ (mem_namesAll.2 ⟨l, hl, ih l hl x hx⟩)

theorem passed_subset (f : Fragments) (l : Layout) : ∀ x ∈ passed f l, x ∈ l.names := by
  induction l using Layout.induct with
  | node name ls ih =>
    intro x hx
    rw [passed] at hx
    split at hx
    · cases hx
    · rcases List.mem_cons.1 hx with rfl | hx
      · exact List.mem_cons_self
      · obtain ⟨l, hl, -, hx⟩ := mem_passedAll.1 hx
        exact List.mem_cons_of_mem _ (mem_namesAll.2 ⟨l, hl, ih l hl x hx⟩)

/-! ## The stock -/

/-- Two stocks have the same for the cells of some names. -/
def Agree (f g : Fragments) (names : List String) : Prop :=
  ∀ x ∈ names, g.cells.get? x = f.cells.get? x ∧ g.rest.get? x = f.rest.get? x

/-- What a stock has left when the contents of some cells and the variables beside the children of
others have been used. -/
structure Leaves (g g' : Fragments) (cells rest : List String) : Prop where
  cells : ∀ x, g'.cells.get? x = if x ∈ cells then none else g.cells.get? x
  rest : ∀ x, g'.rest.get? x = if x ∈ rest then none else g.rest.get? x

theorem Leaves.refl (g : Fragments) (names : FreshNames) :
    Leaves g { g with names := names } [] [] :=
  ⟨fun _ => rfl, fun _ => rfl⟩

theorem Leaves.trans {g g' g'' : Fragments} {cells cells' rest rest' : List String}
    (h : Leaves g g' cells rest) (h' : Leaves g' g'' cells' rest') :
    Leaves g g'' (cells ++ cells') (rest ++ rest') := by
  constructor
  · intro x
    rw [h'.cells, h.cells]
    by_cases hx : x ∈ cells <;> by_cases hx' : x ∈ cells' <;> simp [hx, hx']
  · intro x
    rw [h'.rest, h.rest]
    by_cases hx : x ∈ rest <;> by_cases hx' : x ∈ rest' <;> simp [hx, hx']

/-- What has been used elsewhere is not missed. -/
theorem Leaves.agree {f g g' : Fragments} {cells rest names : List String}
    (h : Leaves g g' cells rest) (hagree : Agree f g names) (hcells : ∀ x ∈ cells, x ∉ names)
    (hrest : ∀ x ∈ rest, x ∉ names) : Agree f g' names := by
  intro x hx
  obtain ⟨hc, hr⟩ := hagree x hx
  constructor
  · rw [h.cells, if_neg fun hmem => hcells x hmem hx, hc]
  · rw [h.rest, if_neg fun hmem => hrest x hmem hx, hr]

theorem Agree.mono {f g : Fragments} {names names' : List String} (h : Agree f g names)
    (hsub : ∀ x ∈ names', x ∈ names) : Agree f g names' :=
  fun x hx => h x (hsub x hx)

theorem Agree.contains {f g : Fragments} {names : List String} (h : Agree f g names) {x : String}
    (hx : x ∈ names) : g.cells.contains x = f.cells.contains x := by
  rw [OrderedMap.contains, OrderedMap.contains, (h x hx).1]

/-! ### Steps that use the stock -/

/-- Making a variable needs the free names only. -/
theorem dotIf_eq (isOpen : Bool) (f g : Fragments) :
    dotIf isOpen g = ((dotIf isOpen { f with names := g.names }).1,
      { g with names := (dotIf isOpen { f with names := g.names }).2.names }) := by
  cases isOpen <;> rfl

theorem close_eq (tag : CellTag) (body : Term) (f g : Fragments) :
    close tag body g = ((close tag body { f with names := g.names }).1,
      { g with names := (close tag body { f with names := g.names }).2.names }) := by
  obtain ⟨name, attributes, left, right⟩ := tag
  cases left <;> cases right <;> rfl

/-- What stands beside the children of a cell is looked up under the name of the cell. -/
theorem besideChildren_eq {name : String} (missing : Bool) {f g : Fragments}
    (h : g.rest.get? name = f.rest.get? name) :
    ∃ g', besideChildren name missing g =
        ((besideChildren name missing { f with names := g.names }).1, g') ∧
      g'.names = (besideChildren name missing { f with names := g.names }).2.names ∧
      Leaves g g' [] [name] := by
  unfold besideChildren
  rw [h]
  cases hrest : f.rest.get? name with
  | some t =>
    refine ⟨_, rfl, rfl, fun _ => rfl, fun x => ?_⟩
    rw [OrderedMap.get?_erase]
    simp
  | none =>
    refine ⟨_, dotIf_eq missing f g, rfl, fun _ => rfl, fun x => ?_⟩
    by_cases hx : x = name
    · subst hx
      simp [h, hrest]
    · simp [hx]

/-! ## The two ways of building agree -/

theorem holds_node (f : Fragments) (name : String) (children : List Layout) :
    holds f (.node name children) = (f.cells.contains name || children.any (holds f)) := by
  have hall : (namesAll children).any f.cells.contains = children.any (holds f) := by
    induction children with
    | nil => rfl
    | cons l ls ih => rw [namesAll, List.any_append, List.any_cons, ih, holds]
  rw [← hall]
  rfl

theorem isWritten_eq_holds {f g : Fragments} {cells : CellTree.Cells} {l : Layout}
    (hfits : l.Fits cells) (hnodup : l.names.Nodup) (hagree : Agree f g l.names) :
    isWritten g cells l.name = holds f l := by
  induction l using Layout.induct generalizing cells with
  | node name ls ih =>
    obtain ⟨hname, hls⟩ := nodup_node hnodup
    cases hfits with
    | @node _ _ info hget hchildren hfits =>
      show isWritten g cells name = _
      rw [isWritten, holds_node, hagree.contains List.mem_cons_self]
      congr 1
      rw [dif_pos (OrderedMap.contains_iff.2 ⟨info, hget⟩), OrderedMap.get_eq_of_get? hget,
        hchildren, List.any_map]
      rw [Bool.eq_iff_iff, List.any_eq_true, List.any_eq_true]
      refine exists_congr fun l => and_congr_right fun hl => ?_
      have hsub : ∀ x ∈ l.names, x ∈ namesAll ls := fun x hx => mem_namesAll.2 ⟨l, hl, hx⟩
      rw [← ih l hl ((hfits l hl).erase fun h => hname (hsub name h)) (nodup_of_mem hls hl)
        (hagree.mono fun x hx => List.mem_cons_of_mem _ (hsub x hx))]
      rfl

theorem placed_of_content {f : Fragments} {name : String} {ls : List Layout} {e : CellTag × Term}
    (h : f.cells.get? name = some e) : placed f (.node name ls) = [name] := by
  rw [placed, if_pos (OrderedMap.contains_iff.2 ⟨e, h⟩)]

theorem placed_of_children {f : Fragments} {name : String} {ls : List Layout}
    (h : f.cells.get? name = none) : placed f (.node name ls) = placedAll f ls := by
  rw [placed, if_neg (OrderedMap.get?_eq_none_iff.1 h)]

/-- Only cells with content are placed. -/
theorem contains_of_placed {f : Fragments} {l : Layout} {x : String} (hx : x ∈ placed f l) :
    f.cells.contains x = true := by
  induction l using Layout.induct with
  | node name ls ih =>
    rw [placed] at hx
    split at hx
    · rename_i hname
      rwa [List.mem_singleton.1 hx]
    · obtain ⟨l, hl, hx⟩ := mem_placedAll.1 hx
      exact ih l hl hx

theorem placed_of_not_holds {f : Fragments} {l : Layout} (h : holds f l = false) :
    placed f l = [] := by
  refine List.eq_nil_iff_forall_not_mem.2 fun x hx => ?_
  have hholds := holds_iff.2 ⟨x, placed_subset f l x hx, contains_of_placed hx⟩
  rw [h] at hholds
  cases hholds

/-- Building a cell gives the body placed along its layout, and leaves of the stock what has not
been placed or passed. -/
def BuildsAs (cells : CellTree.Cells) (f : Fragments) (l : Layout) : Prop :=
  ∀ g, Agree f g l.names → ∃ g', build cells g l.name = ((place f l g.names).1, g') ∧
    g'.names = (place f l g.names).2 ∧ Leaves g g' (placed f l) (passed f l)

theorem buildChildren_eq_placeAll {f : Fragments} {cells : CellTree.Cells} {ls : List Layout}
    (hbuild : ∀ l ∈ ls, BuildsAs cells f l) (hfits : ∀ l ∈ ls, l.Fits cells)
    (hnodup : (namesAll ls).Nodup) (g : Fragments) (hagree : Agree f g (namesAll ls)) :
    ∃ g', buildChildren cells g (ls.map Layout.name) =
        ((placeAll f ls g.names).1, ls.any (!holds f ·), g') ∧
      g'.names = (placeAll f ls g.names).2 ∧ Leaves g g' (placedAll f ls) (passedAll f ls) := by
  induction ls generalizing g with
  | nil => exact ⟨g, by rw [List.map_nil, buildChildren]; rfl, rfl, Leaves.refl g g.names⟩
  | cons l ls ih =>
    obtain ⟨hl, hls, hdisjoint⟩ := List.nodup_append.1 hnodup
    have hagreeHead : Agree f g l.names := hagree.mono fun x => List.mem_append_left _
    have hagreeTail : Agree f g (namesAll ls) := hagree.mono fun x => List.mem_append_right _
    replace ih := ih (fun m hm => hbuild m (List.mem_cons_of_mem _ hm))
      (fun m hm => hfits m (List.mem_cons_of_mem _ hm)) hls
    rw [List.map_cons, buildChildren,
      isWritten_eq_holds (hfits l List.mem_cons_self) hl hagreeHead, placeAll, placedAll, passedAll,
      List.any_cons]
    cases hholds : holds f l with
    | false =>
      obtain ⟨g', heq, hnames, hleaves⟩ := ih g hagreeTail
      refine ⟨g', ?_, hnames, ?_⟩
      · simp [heq]
      · simpa [placed_of_not_holds hholds] using hleaves
    | true =>
      obtain ⟨g₁, heq₁, hnames₁, hleaves₁⟩ := hbuild l List.mem_cons_self g hagreeHead
      -- The names of the first layout are not asked for again.
      have hagree₁ : Agree f g₁ (namesAll ls) := hleaves₁.agree hagreeTail
        (fun x hx hx' => hdisjoint x (placed_subset f l x hx) x hx' rfl)
        (fun x hx hx' => hdisjoint x (passed_subset f l x hx) x hx' rfl)
      obtain ⟨g₂, heq₂, hnames₂, hleaves₂⟩ := ih g₁ hagree₁
      rw [hnames₁] at heq₂ hnames₂
      refine ⟨g₂, ?_, hnames₂, hleaves₁.trans hleaves₂⟩
      simp [heq₁, heq₂]

/-- A walk down the cell tree places along its layout. -/
theorem build_eq_place {f : Fragments} {cells : CellTree.Cells} {l : Layout} (hfits : l.Fits cells)
    (hnodup : l.names.Nodup) : BuildsAs cells f l := by
  induction l using Layout.induct generalizing cells with
  | node name ls ih =>
    intro g hagree
    obtain ⟨hname, hls⟩ := nodup_node hnodup
    obtain ⟨hcontent, hrest⟩ := hagree name List.mem_cons_self
    show ∃ g', build cells g name = _ ∧ _
    have hsome : f.cells.contains name = (f.cells.get? name).isSome := rfl
    rw [build, place, placed, passed, hcontent, hsome]
    cases hwritten : f.cells.get? name with
    | some written =>
      obtain ⟨tag, body⟩ := written
      refine ⟨_, close_eq tag body f _, rfl, fun x => ?_, fun x => ?_⟩
      · simp [OrderedMap.get?_erase]
      · simp
    | none =>
      cases hfits with
      | @node _ _ info hget hchildren hfits =>
        have hsub : ∀ l ∈ ls, ∀ x ∈ l.names, x ∈ namesAll ls :=
          fun l hl x hx => mem_namesAll.2 ⟨l, hl, hx⟩
        have hfits' : ∀ l ∈ ls, l.Fits (cells.erase name) :=
          fun l hl => (hfits l hl).erase fun h => hname (hsub l hl name h)
        obtain ⟨g₁, heq₁, hnames₁, hleaves₁⟩ := buildChildren_eq_placeAll
          (fun l hl => ih l hl (hfits' l hl) (nodup_of_mem hls hl)) hfits' hls g
          (hagree.mono fun x => List.mem_cons_of_mem _)
        have hrest₁ : g₁.rest.get? name = f.rest.get? name := by
          rw [hleaves₁.rest, if_neg, hrest]
          intro hmem
          obtain ⟨l, hl, -, hmem⟩ := mem_passedAll.1 hmem
          exact hname (hsub l hl name (passed_subset f l name hmem))
        obtain ⟨g₂, heq₂, hnames₂, hleaves₂⟩ :=
          besideChildren_eq (ls.any (!holds f ·)) hrest₁
        rw [hnames₁] at heq₂ hnames₂
        refine ⟨g₂, ?_, hnames₂, ?_⟩
        · dsimp only
          rw [dif_pos (OrderedMap.contains_iff.2 ⟨info, hget⟩), OrderedMap.get_eq_of_get? hget,
            hchildren, heq₁]
          simp only [heq₂]
        · have hleaves := hleaves₁.trans hleaves₂
          refine ⟨fun x => ?_, fun x => ?_⟩
          · rw [hleaves.cells]
            simp
          · rw [hleaves.rest]
            simp [or_comm]

end RewriteSemantics.Concretization
