/-
# Entries of ordered maps

The keys of an ordered map ascend, so a look-up finds an entry exactly if the entry is there, and
a map is determined by its entries and by what look-ups find. A set is determined by its members.
-/
import Mathlib.Data.List.Perm.Basic
import RewriteSemantics.Ordered.Map

namespace RewriteSemantics

/-- No value comes twice in strictly ascending order. -/
theorem nodup_of_ascends {α : Type} [Ord α] [Std.ReflOrd α] {l : List α} (h : l.Pairwise Ascends) :
    l.Nodup := by
  refine h.imp fun hlt heq => ?_
  rw [heq, Ascends, Std.ReflOrd.compare_self] at hlt
  cases hlt

/-- Sets with the same members are equal. -/
theorem OrderedSet.ext_mem {α : Type} [Ord α] [Std.TransOrd α] {s t : OrderedSet α}
    (h : ∀ x, x ∈ s ↔ x ∈ t) : s = t := by
  have hperm : s.toList.Perm t.toList :=
    (List.perm_ext_iff_of_nodup (nodup_of_ascends s.ascending) (nodup_of_ascends t.ascending)).2 h
  have heq := hperm.eq_of_pairwise (fun a b _ _ hab hba => ?_) s.ascending t.ascending
  · cases s
    cases t
    cases heq
    rfl
  · have hlt := Std.TransCmp.lt_trans hab hba
    simp at hlt

namespace OrderedMap

variable {κ ν : Type} [Ord κ]

theorem nodup_keys [Std.ReflOrd κ] (m : OrderedMap κ ν) : m.keys.Nodup :=
  nodup_of_ascends (List.pairwise_map.2 m.ascending)

theorem nodup_entries [Std.ReflOrd κ] (m : OrderedMap κ ν) : m.entries.Nodup :=
  (List.pairwise_map.1 m.nodup_keys).imp fun hne heq => hne (congrArg Prod.fst heq)

theorem ext_entries {m n : OrderedMap κ ν} (h : m.entries = n.entries) : m = n := by
  cases m
  cases n
  cases h
  rfl

variable [DecidableEq κ]

theorem contains_iff {m : OrderedMap κ ν} {k : κ} :
    m.contains k = true ↔ ∃ v, m.get? k = some v := by
  rw [contains, Option.isSome_iff_exists]

theorem get?_eq_none_iff {m : OrderedMap κ ν} {k : κ} :
    m.get? k = none ↔ ¬m.contains k = true := by
  rw [contains, Option.not_isSome_iff_eq_none]

theorem get_eq_of_get? {m : OrderedMap κ ν} {k : κ} {v : ν} (h : m.get? k = some v)
    (hk : m.contains k = true) : m.get k hk = v := by
  have hget := get?_eq_some_get hk
  rw [h] at hget
  exact (Option.some.inj hget).symm

theorem mem_entries_of_get? {m : OrderedMap κ ν} {k : κ} {v : ν} (h : m.get? k = some v) :
    (k, v) ∈ m.entries :=
  mem_of_lookup_eq_some h

theorem get?_erase (m : OrderedMap κ ν) (k x : κ) :
    (m.erase k).get? x = if x = k then none else m.get? x := by
  show (m.entries.filter (·.1 ≠ k)).lookup x = if x = k then none else m.entries.lookup x
  induction m.entries with
  | nil => simp
  | cons e rest ih =>
    rw [List.filter_cons, lookup_cons_eq_ite]
    by_cases he : e.1 = k
    · rw [if_neg (by simp [he]), ih]
      by_cases hx : x = k
      · rw [if_pos hx, if_pos hx]
      · rw [if_neg hx, if_neg hx, if_neg (by rwa [he])]
    · rw [if_pos (by simp [he]), lookup_cons_eq_ite, ih]
      by_cases hx : x = e.1
      · rw [if_pos hx, if_pos hx, if_neg (by rwa [hx])]
      · rw [if_neg hx, if_neg hx]

variable [Std.TransOrd κ] [Std.LawfulEqOrd κ]

omit [Std.TransOrd κ] in
theorem lookup_of_mem {l : List (κ × ν)} (hl : l.Pairwise fun a b => Ascends a.1 b.1) {k : κ}
    {v : ν} (h : (k, v) ∈ l) : l.lookup k = some v := by
  induction l with
  | nil => nomatch h
  | cons e rest ih =>
    obtain ⟨he, hrest⟩ := List.pairwise_cons.1 hl
    rw [lookup_cons_eq_ite]
    rcases List.mem_cons.1 h with rfl | h
    · rw [if_pos rfl]
    · have hne : k ≠ e.1 := by
        intro hk
        have hlt := he (k, v) h
        rw [← hk] at hlt
        exact absurd hlt (by simp [Ascends])
      rw [if_neg hne]
      exact ih hrest h

omit [Std.TransOrd κ] in
theorem get?_eq_some_iff {m : OrderedMap κ ν} {k : κ} {v : ν} :
    m.get? k = some v ↔ (k, v) ∈ m.entries :=
  ⟨mem_entries_of_get?, lookup_of_mem m.ascending⟩

omit [Std.TransOrd κ] in
/-- A map is empty if it has no key. -/
theorem isEmpty_iff {m : OrderedMap κ ν} : m.isEmpty = true ↔ ∀ k, m.get? k = none := by
  rw [isEmpty, List.isEmpty_iff, List.eq_nil_iff_forall_not_mem]
  constructor
  · intro h k
    rw [Option.eq_none_iff_forall_ne_some]
    exact fun v hv => h _ (mem_entries_of_get? hv)
  · intro h e he
    have hget := get?_eq_some_iff.2 he
    rw [h e.1] at hget
    cases hget

omit [Std.TransOrd κ] in
/-- A value of a map is the value of some key. -/
theorem mem_values_iff {m : OrderedMap κ ν} {v : ν} :
    v ∈ m.values ↔ ∃ k, m.get? k = some v := by
  constructor
  · intro h
    obtain ⟨e, he, rfl⟩ := List.mem_map.1 h
    exact ⟨e.1, get?_eq_some_iff.2 he⟩
  · rintro ⟨k, h⟩
    exact List.mem_map.2 ⟨(k, v), mem_entries_of_get? h, rfl⟩

omit [Std.TransOrd κ] in
theorem insertSorted_perm {k : κ} (v : ν) {l : List (κ × ν)} (h : l.lookup k = none) :
    (insertSorted k v l).Perm ((k, v) :: l) := by
  induction l with
  | nil => exact .rfl
  | cons e rest ih =>
    rw [lookup_cons_eq_ite] at h
    rw [insertSorted]
    split
    · exact .rfl
    · rename_i hk
      rw [if_pos (Std.LawfulEqCmp.eq_of_compare hk)] at h
      cases h
    · split at h
      · cases h
      · exact ((ih h).cons e).trans (List.Perm.swap (k, v) e rest)

/-- Binding a key again puts the new value in the place of the old one. -/
theorem entries_insert_of_get? {m : OrderedMap κ ν} {k : κ} {v : ν} (h : m.get? k = some v)
    (w : ν) : (m.insert k w).entries = m.entries.map fun e => if e.1 = k then (k, w) else e := by
  obtain ⟨l, hl⟩ := m
  have hmem : (k, v) ∈ l := mem_entries_of_get? h
  clear h
  show insertSorted k w l = l.map fun e => if e.1 = k then (k, w) else e
  induction l with
  | nil => nomatch hmem
  | cons e rest ih =>
    obtain ⟨he, hrest⟩ := List.pairwise_cons.1 hl
    rw [insertSorted, List.map_cons]
    split
    · rename_i hk
      rcases List.mem_cons.1 hmem with rfl | hmem
      · simp at hk
      · have hlt := Std.TransCmp.lt_trans hk (he (k, v) hmem)
        simp at hlt
    · rename_i hk
      have hk : k = e.1 := Std.LawfulEqCmp.eq_of_compare hk
      have hsame : rest.map (fun x => if x.1 = k then (k, w) else x) = rest.map id := by
        refine List.map_congr_left fun x hx => if_neg fun hxk => ?_
        have hlt := he x hx
        rw [hxk, hk] at hlt
        simp [Ascends] at hlt
      rw [if_pos hk.symm, hsame, List.map_id]
    · rename_i hk
      have hne : e.1 ≠ k := by
        intro heq
        rw [heq] at hk
        simp at hk
      rcases List.mem_cons.1 hmem with heq | hmem
      · rw [← heq] at hne
        exact absurd rfl hne
      · rw [if_neg hne, ih hrest hmem]

/-- Binding a new key adds one value. -/
theorem values_insert_perm {m : OrderedMap κ ν} {k : κ} (v : ν) (h : m.get? k = none) :
    (m.insert k v).values.Perm (v :: m.values) :=
  (insertSorted_perm v h).map Prod.snd

theorem get?_insertIfNew (m : OrderedMap κ ν) (k x : κ) (v : ν) :
    (m.insertIfNew k v).get? x = (m.get? x).or (if x = k then some v else none) := by
  unfold insertIfNew
  split
  · rename_i hk
    obtain ⟨w, hw⟩ := contains_iff.1 hk
    by_cases hx : x = k
    · rw [hx, hw]
      rfl
    · rw [if_neg hx, Option.or_none]
  · rename_i hk
    rw [get?_insert]
    by_cases hx : x = k
    · rw [if_pos hx, if_pos hx, hx, get?_eq_none_iff.2 hk]
      rfl
    · rw [if_neg hx, if_neg hx, Option.or_none]

/-- Of the values that are bound to a key one after the other unless it is bound already, the first
one counts. -/
theorem get?_foldl_insertIfNew {α : Type} (key : α → κ) (value : α → ν) (l : List α)
    (m : OrderedMap κ ν) (x : κ) :
    (l.foldl (fun m a => m.insertIfNew (key a) (value a)) m).get? x =
      (m.get? x).or ((l.find? (key · = x)).map value) := by
  induction l generalizing m with
  | nil => exact Option.or_none.symm
  | cons a l ih =>
    rw [List.foldl_cons, ih, get?_insertIfNew, Option.or_assoc, List.find?_cons]
    by_cases hx : x = key a
    · rw [if_pos hx, decide_eq_true hx.symm]
      rfl
    · rw [if_neg hx, decide_eq_false (Ne.symm hx)]
      rfl

/-- Maps that bind the same keys to the same values are equal. -/
theorem ext_get? {m n : OrderedMap κ ν} (h : ∀ k, m.get? k = n.get? k) : m = n := by
  have hmem : ∀ e, e ∈ m.entries ↔ e ∈ n.entries := by
    rintro ⟨k, v⟩
    rw [← get?_eq_some_iff, ← get?_eq_some_iff, h]
  have hperm : m.entries.Perm n.entries :=
    (List.perm_ext_iff_of_nodup m.nodup_entries n.nodup_entries).2 hmem
  refine ext_entries (hperm.eq_of_pairwise (fun a b _ _ hab hba => ?_) m.ascending n.ascending)
  have hlt := Std.TransCmp.lt_trans hab hba
  simp at hlt

/-- Of the values that are bound to a key one after the other, the last one counts. -/
theorem get?_insertAll (l : List (κ × ν)) (m : OrderedMap κ ν) (k : κ) :
    (m.insertAll l).get? k = (l.reverse.lookup k).or (m.get? k) := by
  induction l generalizing m with
  | nil => rfl
  | cons e l ih =>
    have hstep : m.insertAll (e :: l) = (m.insert e.1 e.2).insertAll l := rfl
    rw [hstep, ih, get?_insert, List.reverse_cons, List.lookup_append, Option.or_assoc,
      lookup_cons_eq_ite, List.lookup_nil]
    split <;> rfl

theorem get?_ofList (l : List (κ × ν)) (k : κ) :
    (ofList l).get? k = l.reverse.lookup k := by
  rw [ofList, get?_insertAll, get?_empty, Option.or_none]

omit [Std.TransOrd κ] in
/-- Each key has one entry, so the last one found is the first. -/
theorem lookup_reverse_entries (m : OrderedMap κ ν) (k : κ) :
    m.entries.reverse.lookup k = m.get? k := by
  cases h : m.entries.reverse.lookup k with
  | some v =>
    have hmem := List.mem_reverse.1 (mem_of_lookup_eq_some h)
    exact (get?_eq_some_iff.2 hmem).symm
  | none =>
    refine (Option.eq_none_iff_forall_ne_some.2 fun v hv => ?_).symm
    have hmem := List.mem_reverse.2 (mem_entries_of_get? hv)
    exact absurd rfl (bne_iff_ne.1 (List.lookup_eq_none_iff.1 h _ hmem))

end OrderedMap

end RewriteSemantics
