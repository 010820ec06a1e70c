/-
# What a registry keeps in order

A registry has two accounts of its symbols: the buckets, which hold them, and the count, which
numbers them. Every operation changes both or neither. So the ordinals in the buckets are the
numbers below the count, each once; every symbol lies in the bucket of its own signatures and
attributes, under its own label; and a symbol that a key has been given once is found under that
key ever after.
-/
import Mathlib.Data.List.Nodup
import Mathlib.Data.List.Perm.Basic
import RewriteSemantics.Proofs.Ordered.Map
import RewriteSemantics.Registry

namespace RewriteSemantics

/-! ## Buckets -/

/-- A key is its bucket and its label. -/
theorem SymbolKey.eq_iff {a b : SymbolKey} :
    a = b ↔ a.bucket = b.bucket ∧ a.label = b.label := by
  constructor
  · rintro rfl
    exact ⟨rfl, rfl⟩
  · rintro ⟨hbucket, hlabel⟩
    obtain ⟨hsignatures, hattributes⟩ := Bucket.mk.inj hbucket
    cases a
    cases b
    simp_all

namespace Buckets

theorem lookup_put (key : SymbolKey) (s : Symbol) (b : Buckets) (bucket : Bucket) :
    (b.put key s).lookup bucket =
      if bucket = key.bucket then some (((b.lookup bucket).getD ∅).insert key.label s)
      else b.lookup bucket := by
  induction b with
  | nil => simp [put, OrderedMap.lookup_cons_eq_ite]
  | cons e rest ih =>
    obtain ⟨c, table⟩ := e
    rw [put]
    by_cases hc : c = key.bucket
    · by_cases hb : bucket = key.bucket <;> simp [OrderedMap.lookup_cons_eq_ite, hc, hb]
    · rw [if_neg hc, OrderedMap.lookup_cons_eq_ite, OrderedMap.lookup_cons_eq_ite, ih]
      by_cases hb : bucket = key.bucket
      · have hne : key.bucket ≠ c := fun h => hc h.symm
        simp [hb, hne]
      · simp [hb]

/-- Putting a symbol under a key changes what is found under that key only. -/
theorem find?_put (key : SymbolKey) (s : Symbol) (b : Buckets) (k : SymbolKey) :
    (b.put key s).find? k = if k = key then some s else b.find? k := by
  rw [find?, lookup_put, find?]
  by_cases hb : k.bucket = key.bucket
  · by_cases hl : k.label = key.label
    · rw [if_pos hb, if_pos (SymbolKey.eq_iff.2 ⟨hb, hl⟩)]
      simp [hl]
    · have hk : k ≠ key := fun h => hl (h ▸ rfl)
      rw [if_pos hb, if_neg hk]
      cases b.lookup k.bucket <;> simp [hl]
  · have hk : k ≠ key := fun h => hb (h ▸ rfl)
    rw [if_neg hb, if_neg hk]

theorem mem_put_keys {key : SymbolKey} {s : Symbol} {b : Buckets} {bucket : Bucket} :
    bucket ∈ (b.put key s).map (·.1) ↔ bucket = key.bucket ∨ bucket ∈ b.map (·.1) := by
  induction b with
  | nil => simp [put]
  | cons e rest ih =>
    obtain ⟨c, table⟩ := e
    rw [put]
    split
    · rename_i hc
      subst hc
      simp
    · rw [List.map_cons, List.map_cons, List.mem_cons, List.mem_cons, ih]
      exact or_left_comm

theorem nodup_put {key : SymbolKey} {s : Symbol} {b : Buckets} (h : (b.map (·.1)).Nodup) :
    ((b.put key s).map (·.1)).Nodup := by
  induction b with
  | nil => simp [put]
  | cons e rest ih =>
    obtain ⟨c, table⟩ := e
    obtain ⟨hc, hrest⟩ := List.nodup_cons.1 h
    rw [put]
    split
    · exact h
    · rename_i hne
      refine List.nodup_cons.2 ⟨fun hmem => ?_, ih hrest⟩
      exact (mem_put_keys.1 hmem).elim hne hc

/-- Putting a symbol under a new key adds this symbol and loses none. -/
theorem symbols_put_perm {key : SymbolKey} (s : Symbol) {b : Buckets} (h : b.find? key = none) :
    ((b.put key s).flatMap (·.2.values)).Perm (s :: b.flatMap (·.2.values)) := by
  induction b with
  | nil => exact .rfl
  | cons e rest ih =>
    obtain ⟨c, table⟩ := e
    rw [find?, OrderedMap.lookup_cons_eq_ite] at h
    rw [put]
    split
    · rename_i hc
      rw [if_pos hc.symm] at h
      exact (OrderedMap.values_insert_perm s h).append_right _
    · rename_i hc
      rw [if_neg fun h => hc h.symm] at h
      exact ((ih h).append_left table.values).trans List.perm_middle

theorem lookup_of_mem {b : Buckets} (h : (b.map (·.1)).Nodup)
    {e : Bucket × OrderedMap String Symbol} (he : e ∈ b) : b.lookup e.1 = some e.2 := by
  induction b with
  | nil => nomatch he
  | cons a rest ih =>
    obtain ⟨ha, hrest⟩ := List.nodup_cons.1 h
    rw [OrderedMap.lookup_cons_eq_ite]
    rcases List.mem_cons.1 he with rfl | he
    · rw [if_pos rfl]
    · have hne : e.1 ≠ a.1 := fun h => ha (List.mem_map.2 ⟨e, he, h⟩)
      rw [if_neg hne, ih hrest he]

theorem mem_flatMap_of_find? {b : Buckets} {key : SymbolKey} {s : Symbol}
    (h : b.find? key = some s) : s ∈ b.flatMap (·.2.values) := by
  obtain ⟨table, htable, hs⟩ := Option.bind_eq_some_iff.1 h
  exact List.mem_flatMap.2 ⟨_, OrderedMap.mem_of_lookup_eq_some htable,
    OrderedMap.mem_values_iff.2 ⟨_, hs⟩⟩

end Buckets

/-! ## The invariant -/

namespace Registry

/-- A registry whose buckets and count agree. -/
structure Kept (r : Registry) : Prop where
  distinct : (r.buckets.map (·.1)).Nodup
  placed : ∀ bucket table, r.buckets.lookup bucket = some table →
    ∀ label s, table.get? label = some s → s.key.bucket = bucket ∧ s.label = label
  dense : (r.symbols.map (·.ordinal)).Perm (List.range r.count)

theorem kept_empty : Kept ∅ :=
  ⟨.nil, fun _ _ h => (nomatch h), .rfl⟩

/-- What is found under a key has this key. -/
theorem Kept.key_of_lookup {r : Registry} (h : r.Kept) {key : SymbolKey} {s : Symbol}
    (hs : r.lookup key = some s) : s.key = key := by
  obtain ⟨table, htable, hs⟩ := Option.bind_eq_some_iff.1 hs
  exact SymbolKey.eq_iff.2 (h.placed _ _ htable _ _ hs)

theorem mem_symbols_of_lookup {r : Registry} {key : SymbolKey} {s : Symbol}
    (hs : r.lookup key = some s) : s ∈ r.symbols :=
  Buckets.mem_flatMap_of_find? hs

/-- A symbol is told by its ordinal. -/
theorem Kept.eq_of_ordinal {r : Registry} (h : r.Kept) {s t : Symbol} (hs : s ∈ r.symbols)
    (ht : t ∈ r.symbols) (hst : s.ordinal = t.ordinal) : s = t :=
  List.inj_on_of_nodup_map (h.dense.nodup_iff.2 List.nodup_range) hs ht hst

theorem Kept.ordinal_lt {r : Registry} (h : r.Kept) {s : Symbol} (hs : s ∈ r.symbols) :
    s.ordinal < r.count :=
  List.mem_range.1 (h.dense.mem_iff.1 (List.mem_map_of_mem hs))

/-! ## Single operations -/

theorem lookup_push (r : Registry) (s : Symbol) (key : SymbolKey) :
    (r.push s).lookup key = if key = s.key then some s else r.lookup key :=
  Buckets.find?_put s.key s r.buckets key

theorem Kept.push {r : Registry} (h : r.Kept) {s : Symbol} (hordinal : s.ordinal = r.count)
    (hnew : r.lookup s.key = none) : (r.push s).Kept := by
  refine ⟨Buckets.nodup_put h.distinct, ?_, ?_⟩
  · intro bucket table htable label t ht
    rw [Registry.push, Buckets.lookup_put] at htable
    split at htable
    · rename_i hbucket
      subst hbucket
      cases htable
      rw [OrderedMap.get?_insert] at ht
      split at ht
      · rename_i hlabel
        cases ht
        exact ⟨rfl, hlabel.symm⟩
      · -- an older symbol of the same bucket, if the bucket was there before
        cases hold : r.buckets.lookup s.key.bucket with
        | none => simp [hold] at ht
        | some old => exact h.placed _ old hold label t (by simpa [hold] using ht)
    · exact h.placed bucket table htable label t ht
  · have hsymbols := (Buckets.symbols_put_perm s hnew).map Symbol.ordinal
    refine hsymbols.trans ?_
    rw [List.map_cons, hordinal]
    show (r.count :: r.symbols.map (·.ordinal)).Perm (List.range (r.count + 1))
    rw [List.range_succ]
    exact (h.dense.cons r.count).trans (List.perm_append_singleton r.count _).symm

/-- What is found under a key stays found under it. -/
def Grows (r r' : Registry) : Prop :=
  ∀ key s, r.lookup key = some s → r'.lookup key = some s

theorem Grows.refl (r : Registry) : r.Grows r :=
  fun _ _ h => h

theorem Grows.trans {r r' r'' : Registry} (h : r.Grows r') (h' : r'.Grows r'') : r.Grows r'' :=
  fun key s hs => h' key s (h key s hs)

theorem grows_push {r : Registry} {s : Symbol} (hnew : r.lookup s.key = none) :
    r.Grows (r.push s) := by
  intro key t ht
  rw [lookup_push]
  split
  · rename_i hkey
    rw [hkey, hnew] at ht
    cases ht
  · exact ht

/-- What an operation may do for a key: hand out the symbol of the key, and add it if it is new. -/
structure Gives (r : Registry) (key : SymbolKey) (s : Symbol) (r' : Registry) : Prop where
  kept : r'.Kept
  grows : r.Grows r'
  found : r'.lookup key = some s

theorem Kept.gives_known {r : Registry} (h : r.Kept) {key : SymbolKey} {s : Symbol}
    (hs : r.lookup key = some s) : r.Gives key s r :=
  ⟨h, .refl r, hs⟩

theorem Kept.gives_new {r : Registry} (h : r.Kept) {key : SymbolKey} (hnew : r.lookup key = none)
    (sorts : OrderedSet SortName) :
    r.Gives key (r.nextSymbol key sorts) (r.push (r.nextSymbol key sorts)) := by
  have hkey : (r.nextSymbol key sorts).key = key := Symbol.key_ofKey ..
  rw [← hkey] at hnew
  refine ⟨h.push (Symbol.ordinal_ofKey ..) hnew, grows_push hnew, ?_⟩
  rw [lookup_push, hkey, if_pos rfl]

theorem Kept.intern {r : Registry} (h : r.Kept) (key : SymbolKey) (sorts : OrderedSet SortName) :
    r.Gives key (r.intern key sorts).1 (r.intern key sorts).2 := by
  rw [Registry.intern]
  split
  · rename_i s hs
    exact h.gives_known hs
  · rename_i hnew
    exact h.gives_new hnew sorts

theorem Kept.canonicalize {r r' : Registry} (h : r.Kept) {record : SymbolRecord} {s : Symbol}
    (hs : r.canonicalize record = .ok (s, r')) : r.Gives record.key s r' := by
  rw [Registry.canonicalize] at hs
  split at hs
  · rename_i t ht
    split at hs
    · cases hs
      exact h.gives_known ht
    · cases hs
  · rename_i hnew
    split at hs
    · cases hs
      exact h.gives_new hnew _
    · cases hs

/-! ## Adopting many -/

/-- Adoption keeps the books, whether it goes through or stops at an error. -/
theorem Kept.adopt {r : Registry} (h : r.Kept) (records : List SymbolRecord) :
    (r.adopt records).2.Kept ∧ r.Grows (r.adopt records).2 := by
  induction records generalizing r with
  | nil => exact ⟨h, .refl r⟩
  | cons record rest ih =>
    rw [Registry.adopt]
    split
    · exact ⟨h, .refl r⟩
    · rename_i s r' hs
      have hgives := h.canonicalize hs
      obtain ⟨hkept, hgrows⟩ := ih hgives.kept
      exact ⟨hkept, hgives.grows.trans hgrows⟩

/-- What adoption answers are the symbols of the records, in their order. -/
theorem Kept.adopt_ok {r : Registry} (h : r.Kept) {records : List SymbolRecord}
    {symbols : List Symbol} (hok : (r.adopt records).1 = .ok symbols) :
    symbols.map (some ·) = records.map fun record => (r.adopt records).2.lookup record.key := by
  induction records generalizing r symbols with
  | nil =>
    cases hok
    rfl
  | cons record rest ih =>
    rw [Registry.adopt] at hok ⊢
    split at hok
    · cases hok
    · rename_i s r' hs
      have hgives := h.canonicalize hs
      cases hrest : (r'.adopt rest).1 with
      | error e => simp [hrest, Except.map] at hok
      | ok others =>
        simp only [hrest, Except.map, Except.ok.injEq] at hok
        subst hok
        have hfound := (hgives.kept.adopt rest).2 _ _ hgives.found
        simp [hfound, ih hgives.kept hrest]

end Registry

end RewriteSemantics
