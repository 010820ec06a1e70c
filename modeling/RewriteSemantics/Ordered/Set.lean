/-
# Ordered sets

A finite set as the strictly ascending list of its members. Order and absence of duplicates are
part of the type, so two sets with the same members are equal, and listing a set needs no sorting.
-/

namespace RewriteSemantics

/-- Two values in strictly ascending order. -/
abbrev Ascends {α : Type} [Ord α] (a b : α) : Prop :=
  compare a b = .lt

/-- A finite set of ordered values, listed in strictly ascending order. -/
structure OrderedSet (α : Type) [Ord α] where
  /-- The members in ascending order. -/
  toList : List α
  ascending : toList.Pairwise Ascends

namespace OrderedSet

variable {α : Type} [Ord α]

instance [DecidableEq α] : DecidableEq (OrderedSet α) := fun s t =>
  decidable_of_iff (s.toList = t.toList) (by cases s; cases t; simp)

instance : Membership α (OrderedSet α) :=
  ⟨fun s a => a ∈ s.toList⟩

instance [DecidableEq α] (a : α) (s : OrderedSet α) : Decidable (a ∈ s) :=
  inferInstanceAs (Decidable (a ∈ s.toList))

/-- The set without members. -/
def empty : OrderedSet α :=
  ⟨[], .nil⟩

instance : EmptyCollection (OrderedSet α) :=
  ⟨empty⟩

instance : Inhabited (OrderedSet α) :=
  ⟨∅⟩

/-! ## Insertion -/

/-- Puts a value into its place in an ascending list; a value equal in order is replaced. -/
def insertSorted (a : α) : List α → List α
  | [] => [a]
  | b :: rest => match compare a b with
    | .lt => a :: b :: rest
    | .eq => a :: rest
    | .gt => b :: insertSorted a rest

theorem mem_of_mem_insertSorted {a x : α} {l : List α} (h : x ∈ insertSorted a l) :
    x = a ∨ x ∈ l := by
  induction l with
  | nil => simpa [insertSorted] using h
  | cons b rest ih =>
    rw [insertSorted] at h
    split at h
    · simpa using h
    · rcases List.mem_cons.1 h with h | h
      · exact .inl h
      · exact .inr (List.mem_cons_of_mem _ h)
    · rcases List.mem_cons.1 h with h | h
      · exact .inr (h ▸ List.mem_cons_self)
      · rcases ih h with h | h
        · exact .inl h
        · exact .inr (List.mem_cons_of_mem _ h)

theorem pairwise_insertSorted [Std.TransOrd α] [Std.LawfulEqOrd α] (a : α) {l : List α}
    (h : l.Pairwise Ascends) : (insertSorted a l).Pairwise Ascends := by
  induction l with
  | nil => simp [insertSorted]
  | cons b rest ih =>
    obtain ⟨hb, hrest⟩ := List.pairwise_cons.1 h
    rw [insertSorted]
    split
    · rename_i hab
      refine List.pairwise_cons.2 ⟨fun x hx => ?_, h⟩
      rcases List.mem_cons.1 hx with rfl | hx
      · exact hab
      · exact Std.TransCmp.lt_trans hab (hb x hx)
    · rename_i hab
      cases Std.LawfulEqCmp.eq_of_compare hab
      exact h
    · rename_i hab
      refine List.pairwise_cons.2 ⟨fun x hx => ?_, ih hrest⟩
      rcases mem_of_mem_insertSorted hx with rfl | hx
      · exact Std.OrientedCmp.lt_of_gt hab
      · exact hb x hx

/-- The members that satisfy a condition. -/
def filter (p : α → Bool) (s : OrderedSet α) : OrderedSet α :=
  ⟨s.toList.filter p, s.ascending.filter p⟩

variable [Std.TransOrd α] [Std.LawfulEqOrd α]

/-- The set with one more member. -/
def insert (s : OrderedSet α) (a : α) : OrderedSet α :=
  ⟨insertSorted a s.toList, pairwise_insertSorted a s.ascending⟩

/-- The set with every member of a list added. -/
def insertAll (s : OrderedSet α) (l : List α) : OrderedSet α :=
  l.foldl insert s

/-- The members of a list, as a set. -/
def ofList (l : List α) : OrderedSet α :=
  (∅ : OrderedSet α).insertAll l

/-- The members of either set. -/
def union (s t : OrderedSet α) : OrderedSet α :=
  s.insertAll t.toList

instance : Union (OrderedSet α) :=
  ⟨union⟩

/-! ## Membership -/

omit [Std.TransOrd α] [Std.LawfulEqOrd α] in
@[simp] theorem not_mem_empty (a : α) : ¬ a ∈ (∅ : OrderedSet α) :=
  List.not_mem_nil

omit [Std.TransOrd α] [Std.LawfulEqOrd α] in
@[simp] theorem mem_filter {s : OrderedSet α} {p : α → Bool} {x : α} :
    x ∈ s.filter p ↔ x ∈ s ∧ p x :=
  List.mem_filter

omit [Std.TransOrd α] in
theorem mem_insertSorted {a x : α} {l : List α} : x ∈ insertSorted a l ↔ x = a ∨ x ∈ l := by
  refine ⟨mem_of_mem_insertSorted, fun h => ?_⟩
  induction l with
  | nil => simpa [insertSorted] using h
  | cons b rest ih =>
    rw [insertSorted]
    split
    · simpa using h
    · rename_i hab
      cases Std.LawfulEqCmp.eq_of_compare hab
      simpa using h
    · rcases h with h | h
      · exact List.mem_cons_of_mem _ (ih (.inl h))
      · rcases List.mem_cons.1 h with h | h
        · exact h ▸ List.mem_cons_self
        · exact List.mem_cons_of_mem _ (ih (.inr h))

@[simp] theorem mem_insert {s : OrderedSet α} {a x : α} : x ∈ s.insert a ↔ x = a ∨ x ∈ s :=
  mem_insertSorted

@[simp] theorem mem_insertAll {s : OrderedSet α} {l : List α} {x : α} :
    x ∈ s.insertAll l ↔ x ∈ s ∨ x ∈ l := by
  induction l generalizing s with
  | nil => simp [insertAll]
  | cons a l ih =>
    rw [insertAll, List.foldl_cons, ← insertAll, ih, mem_insert, List.mem_cons]
    constructor
    · rintro ((h | h) | h) <;> simp [h]
    · rintro (h | h | h) <;> simp [h]

@[simp] theorem mem_ofList {l : List α} {x : α} : x ∈ ofList l ↔ x ∈ l := by
  simp [ofList]

@[simp] theorem mem_union {s t : OrderedSet α} {x : α} : x ∈ s ∪ t ↔ x ∈ s ∨ x ∈ t :=
  mem_insertAll

end OrderedSet

end RewriteSemantics
