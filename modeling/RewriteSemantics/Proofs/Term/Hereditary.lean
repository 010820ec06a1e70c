/-
# Properties that terms hand on

Placing a rule into cells puts terms into sequences, bags and cells, beside each other and beside
new variables. A property that a sequence, a bag or a cell has exactly if its parts have it comes
through all of this. Three properties of this kind are what the passes establish one after the
other: a name does not occur, nothing is cast, and no value is made up on the right-hand side.
-/
import RewriteSemantics.Proofs.Term.Images
import RewriteSemantics.Rule.Concretization
import RewriteSemantics.Rule.StrategyCell

namespace RewriteSemantics

open FreshNames (candidate)

/-- What the names of new variables start with. -/
def IsNewStem (stem : String) : Prop :=
  stem = generatedStem ∨ stem = Concretization.dotStem

namespace Term

variable {Q Q' : Term → Prop}

/-- A property that sequences, bags and cells have exactly if their parts have it, and that new
variables have. -/
structure Hereditary (Q : Term → Prop) : Prop where
  seq : ∀ items, Q (.seq items) ↔ ∀ t ∈ items, Q t
  bag : ∀ items, Q (.bag items) ↔ ∀ t ∈ items, Q t
  cell : ∀ tag body, Q (.cell tag body) ↔ Q body
  new : ∀ stem n, IsNewStem stem → Q (.ofName (candidate stem n))

namespace Hereditary

theorem and (h : Hereditary Q) (h' : Hereditary Q') : Hereditary fun t => Q t ∧ Q' t where
  seq items := by
    rw [h.seq, h'.seq]
    exact forall₂_and.symm
  bag items := by
    rw [h.bag, h'.bag]
    exact forall₂_and.symm
  cell tag body := and_congr (h.cell tag body) (h'.cell tag body)
  new stem n hstem := ⟨h.new stem n hstem, h'.new stem n hstem⟩

theorem sequenceItems (h : Hereditary Q) {t : Term} : (∀ u ∈ t.sequenceItems, Q u) ↔ Q t := by
  cases t with
  | seq items => exact (h.seq items).symm
  | _ => exact List.forall_mem_singleton

theorem sequence (h : Hereditary Q) {items : List Term} :
    Q (Term.sequence items) ↔ ∀ t ∈ items, Q t := by
  have hflat : (∀ u ∈ items.flatMap Term.sequenceItems, Q u) ↔ ∀ t ∈ items, Q t := by
    rw [List.forall_mem_flatMap]
    exact forall₂_congr fun t _ => h.sequenceItems
  rw [← hflat]
  unfold Term.sequence
  split
  · rename_i item hitem
    rw [hitem]
    exact List.forall_mem_singleton.symm
  · exact h.seq _

theorem beside (h : Hereditary Q) {t extra : Term} : Q (t.beside extra) ↔ Q t ∧ Q extra := by
  cases t with
  | bag items =>
    rw [Term.beside, h.bag, h.bag, List.forall_mem_append, List.forall_mem_singleton]
  | _ => exact (h.bag _).trans (List.forall_mem_cons.trans (and_congr_right fun _ =>
      List.forall_mem_singleton))

end Hereditary

/-! ## Names that do not occur -/

theorem candidate_ne_of_toList {stem x : String} {n : Nat} (h : ¬ stem.toList <+: x.toList) :
    candidate stem n ≠ x := by
  rintro rfl
  rw [candidate, String.toList_append] at h
  exact h (List.prefix_append _ _)

theorem hereditary_notMem {x : String}
    (hx : ∀ stem, IsNewStem stem → ¬ stem.toList <+: x.toList) :
    Hereditary fun t => x ∉ t.variableNames where
  seq items := by simp
  bag items := by simp
  cell tag body := by simp
  new stem n hstem := by
    rw [ofName, mem_variableNames_var]
    exact candidate_ne_of_toList (hx stem hstem)

/-! ## Casts -/

/-- Nothing is cast in a term: no label that casts stands over one argument. -/
def Uncast (t : Term) : Prop :=
  ∀ label u, .app label [u] ∈ t.subterms → Label.castSort? label = none

/-- Nothing is cast in a term if it is no cast itself and nothing is cast in its children. -/
theorem uncast_iff {t : Term} : t.Uncast ↔
    (∀ label u, t = .app label [u] → Label.castSort? label = none) ∧
      ∀ c ∈ t.children, c.Uncast := by
  constructor
  · intro h
    refine ⟨fun label u ht => h label u (mem_subterms.2 (.inl ht.symm)), fun c hc label u hu => ?_⟩
    exact h label u (mem_subterms_of_child hc hu)
  · rintro ⟨hself, hchildren⟩ label u hu
    rcases mem_subterms.1 hu with ht | ⟨c, hc, hu⟩
    · exact hself label u ht.symm
    · exact hchildren c hc label u hu

theorem uncast_var (v : Variable) : (Term.var v).Uncast :=
  uncast_iff.2 ⟨fun _ _ h => (nomatch h), fun _ h => (nomatch h)⟩

theorem uncast_token (text : String) (sort : SortName) : (Term.token text sort).Uncast :=
  uncast_iff.2 ⟨fun _ _ h => (nomatch h), fun _ h => (nomatch h)⟩

/-- A label that is no cast adds none. -/
theorem uncast_app {label : String} (hlabel : Label.castSort? label = none) {args : List Term}
    (h : ∀ t ∈ args, t.Uncast) : (Term.app label args).Uncast := by
  refine uncast_iff.2 ⟨fun _ _ ht => ?_, h⟩
  cases ht
  exact hlabel

theorem uncast_rewrite {l r : Term} : (Term.rewrite l r).Uncast ↔ l.Uncast ∧ r.Uncast := by
  rw [uncast_iff]
  simp [children]

theorem hereditary_uncast : Hereditary Uncast where
  seq items := by
    rw [uncast_iff]
    simp [children]
  bag items := by
    rw [uncast_iff]
    simp [children]
  cell tag body := by
    rw [uncast_iff]
    simp [children]
  new stem n _ := uncast_var _

/-! ## Made-up values -/

/-- No value is made up on the right-hand side of a term. -/
def Unmarked (t : Term) : Prop :=
  ∀ x ∈ t.rhs.variableNames, Variable.isFreshName x = false

/-- No new name marks a made-up value. -/
theorem isFreshName_new {stem : String} (hstem : IsNewStem stem) (n : Nat) :
    Variable.isFreshName (candidate stem n) = false := by
  rw [Variable.isFreshName, Variable.nameStartsWith, candidate, String.toList_append]
  rcases hstem with rfl | rfl <;> rfl

/-- No value is made up in a term if none is made up in the items that its right-hand side has. -/
theorem unmarked_iff_of_items {t : Term} {items : List Term}
    (h : ∀ x, x ∈ t.rhs.variableNames ↔ ∃ u ∈ items.map rhs, x ∈ u.variableNames) :
    t.Unmarked ↔ ∀ u ∈ items, u.Unmarked := by
  constructor
  · intro ht u hu x hx
    exact ht x ((h x).2 ⟨u.rhs, List.mem_map_of_mem hu, hx⟩)
  · intro hitems x hx
    obtain ⟨_, hmem, hx⟩ := (h x).1 hx
    obtain ⟨u, hu, rfl⟩ := List.mem_map.1 hmem
    exact hitems u hu x hx

theorem hereditary_unmarked : Hereditary Unmarked where
  seq items := unmarked_iff_of_items fun x => by
    rw [rhs, rhsAll_eq_map, mem_variableNames_seq]
  bag items := unmarked_iff_of_items fun x => by
    rw [rhs, rhsAll_eq_map, mem_variableNames_bag]
  cell tag body := by
    unfold Unmarked
    rw [rhs]
    simp only [mem_variableNames_cell]
  new stem n hstem := by
    intro x hx
    rw [ofName, rhs, mem_variableNames_var] at hx
    rw [← hx]
    exact isFreshName_new hstem n

end Term

end RewriteSemantics
