/-
# Ordered maps

A finite map as the list of its entries with strictly ascending keys. As with ordered sets, the
order is part of the type: two maps with the same entries are equal, and the entries are listed by
key.
-/
import RewriteSemantics.Ordered.Set

namespace RewriteSemantics

/-- A finite map from ordered keys, listed by ascending key. -/
structure OrderedMap (κ : Type) [Ord κ] (ν : Type) where
  /-- The entries in ascending order of their keys. -/
  entries : List (κ × ν)
  ascending : entries.Pairwise fun a b => Ascends a.1 b.1

namespace OrderedMap

variable {κ ν : Type} [Ord κ]

instance [DecidableEq κ] [DecidableEq ν] : DecidableEq (OrderedMap κ ν) := fun m n =>
  decidable_of_iff (m.entries = n.entries) (by cases m; cases n; simp)

/-- The map without entries. -/
def empty : OrderedMap κ ν :=
  ⟨[], .nil⟩

instance : EmptyCollection (OrderedMap κ ν) :=
  ⟨empty⟩

instance : Inhabited (OrderedMap κ ν) :=
  ⟨∅⟩

/-! ## Reading -/

/-- The keys in ascending order. -/
def keys (m : OrderedMap κ ν) : List κ :=
  m.entries.map (·.1)

/-- The values in ascending order of their keys. -/
def values (m : OrderedMap κ ν) : List ν :=
  m.entries.map (·.2)

/-- The number of entries. -/
def size (m : OrderedMap κ ν) : Nat :=
  m.entries.length

/-- Whether there are no entries. -/
def isEmpty (m : OrderedMap κ ν) : Bool :=
  m.entries.isEmpty

/-- The value of a key. -/
def get? [DecidableEq κ] (m : OrderedMap κ ν) (k : κ) : Option ν :=
  m.entries.lookup k

/-- Whether a key has a value. -/
def contains [DecidableEq κ] (m : OrderedMap κ ν) (k : κ) : Bool :=
  (m.get? k).isSome

/-- The value of a key that has one. -/
def get [DecidableEq κ] (m : OrderedMap κ ν) (k : κ) (h : m.contains k = true) : ν :=
  (m.get? k).get h

theorem get?_eq_some_get [DecidableEq κ] {m : OrderedMap κ ν} {k : κ} (h : m.contains k = true) :
    m.get? k = some (m.get k h) :=
  Option.eq_some_of_isSome h

/-! ## Writing -/

/-- Puts an entry into its place in an ascending list, in place of an entry of the same key. -/
def insertSorted (k : κ) (v : ν) : List (κ × ν) → List (κ × ν)
  | [] => [(k, v)]
  | e :: rest => match compare k e.1 with
    | .lt => (k, v) :: e :: rest
    | .eq => (k, v) :: rest
    | .gt => e :: insertSorted k v rest

theorem mem_of_mem_insertSorted {k : κ} {v : ν} {x : κ × ν} {l : List (κ × ν)}
    (h : x ∈ insertSorted k v l) : x = (k, v) ∨ x ∈ l := by
  induction l with
  | nil => simpa [insertSorted] using h
  | cons e rest ih =>
    rw [insertSorted] at h
    split at h
    · simpa using h
    · rcases List.mem_cons.1 h with h | h
      · exact .inl h
      · exact .inr (List.mem_cons_of_mem _ h)
    · rcases List.mem_cons.1 h with h | h
      · exact .inr (h ▸ List.mem_cons_self)
      · rcases ih h with h | h
        · exact .inl h
        · exact .inr (List.mem_cons_of_mem _ h)

theorem pairwise_insertSorted [Std.TransOrd κ] [Std.LawfulEqOrd κ] (k : κ) (v : ν)
    {l : List (κ × ν)} (h : l.Pairwise fun a b => Ascends a.1 b.1) :
    (insertSorted k v l).Pairwise fun a b => Ascends a.1 b.1 := by
  induction l with
  | nil => simp [insertSorted]
  | cons e rest ih =>
    obtain ⟨he, hrest⟩ := List.pairwise_cons.1 h
    rw [insertSorted]
    split
    · rename_i hk
      refine List.pairwise_cons.2 ⟨fun x hx => ?_, h⟩
      rcases List.mem_cons.1 hx with rfl | hx
      · exact hk
      · exact Std.TransCmp.lt_trans hk (he x hx)
    · rename_i hk
      have hk : k = e.1 := Std.LawfulEqCmp.eq_of_compare hk
      subst hk
      exact List.pairwise_cons.2 ⟨fun x hx => he x hx, hrest⟩
    · rename_i hk
      refine List.pairwise_cons.2 ⟨fun x hx => ?_, ih hrest⟩
      rcases mem_of_mem_insertSorted hx with rfl | hx
      · exact Std.OrientedCmp.lt_of_gt hk
      · exact he x hx

/-- The map without a key. -/
def erase [DecidableEq κ] (m : OrderedMap κ ν) (k : κ) : OrderedMap κ ν :=
  ⟨m.entries.filter (·.1 ≠ k), m.ascending.filter _⟩

/-- The map with every value replaced by an image of its entry. -/
def mapValues {ν' : Type} (f : κ → ν → ν') (m : OrderedMap κ ν) : OrderedMap κ ν' :=
  ⟨m.entries.map fun e => (e.1, f e.1 e.2), List.pairwise_map.2 m.ascending⟩

omit [Ord κ] in
theorem keys_zip_sublist {ν' : Type} (keys : List κ) (values : List ν') :
    List.Sublist ((keys.zip values).map (·.1)) keys := by
  induction keys generalizing values with
  | nil => simp
  | cons k keys ih =>
    cases values with
    | nil => simp
    | cons v values => exact (ih values).cons_cons k

/-- The map of the same keys with other values, given in the order of the keys. -/
def withValues {ν' : Type} (m : OrderedMap κ ν) (values : List ν') : OrderedMap κ ν' :=
  ⟨m.keys.zip values, List.pairwise_map.1
    ((List.pairwise_map.2 m.ascending).sublist (keys_zip_sublist m.keys values))⟩

/-- The map with every value replaced by an image of its entry, under a function that may fail. The
first failure is the failure of the whole. -/
def tryMapValues {ε ν' : Type} (f : κ → ν → Except ε ν') (m : OrderedMap κ ν) :
    Except ε (OrderedMap κ ν') := do
  let values ← m.entries.mapM fun e => f e.1 e.2
  .ok (m.withValues values)

variable [Std.TransOrd κ] [Std.LawfulEqOrd κ]

/-- The map with a key bound to a value, in place of any earlier value. -/
def insert (m : OrderedMap κ ν) (k : κ) (v : ν) : OrderedMap κ ν :=
  ⟨insertSorted k v m.entries, pairwise_insertSorted k v m.ascending⟩

/-- The map with a key bound to a value unless it is bound already. -/
def insertIfNew [DecidableEq κ] (m : OrderedMap κ ν) (k : κ) (v : ν) : OrderedMap κ ν :=
  if m.contains k then m else m.insert k v

/-- The map with a list of entries added, later ones winning. -/
def insertAll (m : OrderedMap κ ν) (l : List (κ × ν)) : OrderedMap κ ν :=
  l.foldl (fun m e => m.insert e.1 e.2) m

/-- The map of a list of entries, later ones winning. -/
def ofList (l : List (κ × ν)) : OrderedMap κ ν :=
  (∅ : OrderedMap κ ν).insertAll l

/-! ## Looking up -/

omit [Ord κ] [Std.TransOrd κ] [Std.LawfulEqOrd κ] in
theorem lookup_cons_eq_ite [DecidableEq κ] (x : κ) (e : κ × ν) (l : List (κ × ν)) :
    (e :: l).lookup x = if x = e.1 then some e.2 else l.lookup x := by
  rw [List.lookup_cons]
  by_cases h : x = e.1
  · simp [h]
  · simp [h, beq_false_of_ne h]

omit [Ord κ] [Std.TransOrd κ] [Std.LawfulEqOrd κ] in
theorem mem_of_lookup_eq_some [DecidableEq κ] {k : κ} {v : ν} {l : List (κ × ν)}
    (h : l.lookup k = some v) : (k, v) ∈ l := by
  induction l with
  | nil => simp at h
  | cons e rest ih =>
    rw [lookup_cons_eq_ite] at h
    split at h
    · rename_i hk
      cases h
      subst hk
      exact List.mem_cons_self
    · exact List.mem_cons_of_mem _ (ih h)

omit [Std.TransOrd κ] [Std.LawfulEqOrd κ] in
theorem mem_keys_of_get? [DecidableEq κ] {m : OrderedMap κ ν} {k : κ} {v : ν}
    (h : m.get? k = some v) : k ∈ m.keys :=
  List.mem_map.2 ⟨(k, v), mem_of_lookup_eq_some h, rfl⟩

omit [Std.TransOrd κ] [Std.LawfulEqOrd κ] in
theorem size_erase_lt [DecidableEq κ] {m : OrderedMap κ ν} {k : κ} (h : m.contains k = true) :
    (m.erase k).size < m.size :=
  List.length_filter_lt_length_iff_exists.2
    ⟨(k, m.get k h), mem_of_lookup_eq_some (get?_eq_some_get h), by simp⟩

omit [Std.TransOrd κ] [Std.LawfulEqOrd κ] in
@[simp] theorem get?_empty [DecidableEq κ] (k : κ) : (∅ : OrderedMap κ ν).get? k = none :=
  rfl

omit [Std.TransOrd κ] in
theorem lookup_insertSorted [DecidableEq κ] (k x : κ) (v : ν) (l : List (κ × ν)) :
    (insertSorted k v l).lookup x = if x = k then some v else l.lookup x := by
  induction l with
  | nil => simp [insertSorted, lookup_cons_eq_ite]
  | cons e rest ih =>
    rw [insertSorted]
    split
    · simp [lookup_cons_eq_ite]
    · rename_i hk
      have hk : k = e.1 := Std.LawfulEqCmp.eq_of_compare hk
      by_cases hx : x = k <;> simp [lookup_cons_eq_ite, hx, ← hk]
    · rename_i hk
      have hne : e.1 ≠ k := by
        intro h
        subst h
        simp at hk
      by_cases hx : x = e.1
      · subst hx
        simp [lookup_cons_eq_ite, hne]
      · simp [lookup_cons_eq_ite, hx, ih]

@[simp] theorem get?_insert [DecidableEq κ] (m : OrderedMap κ ν) (k x : κ) (v : ν) :
    (m.insert k v).get? x = if x = k then some v else m.get? x :=
  lookup_insertSorted k x v m.entries

end OrderedMap

end RewriteSemantics
