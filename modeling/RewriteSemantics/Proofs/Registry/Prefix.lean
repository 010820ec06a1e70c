/-
# The first symbols of a registry

Whatever has been asked of a registry, its first symbols can be stored and taken up by an empty one.
The stored forms come in any order: the ordinals put them back into theirs, and they are the numbers
below some number, as an empty registry wants them. The flags are derived again from the key and
from the one sort that is stored, and this is enough, since every symbol was derived from its key
and from some sorts. A second time all of them are known under the ordinals they carry, so the
registry answers the same symbols and stays as it is.
-/
import Mathlib
import RewriteSemantics.Proofs.Registry.Acceptance

namespace RewriteSemantics.Registry

variable {r : Registry} {records : List SymbolRecord} {m : Nat}

/-! ## Stored forms -/

/-- The stored forms of the symbols with an ordinal below a number. -/
def storedBelow (r : Registry) (m : Nat) : List SymbolRecord :=
  (r.symbols.filter (·.ordinal < m)).map Symbol.toRecord

theorem mem_storedBelow {record : SymbolRecord} :
    record ∈ r.storedBelow m ↔ ∃ s ∈ r.symbols, s.ordinal < m ∧ s.toRecord = record := by
  simp only [storedBelow, List.mem_map, List.mem_filter, decide_eq_true_eq, and_assoc]

/-- The ordinals of the first symbols are the numbers below their number. -/
theorem Kept.ordinals_storedBelow (h : r.Kept) (hm : m ≤ r.size) :
    ((r.storedBelow m).map (·.ordinal)).Perm (List.range m) := by
  have hcommute : (r.storedBelow m).map (·.ordinal) =
      (r.symbols.map (·.ordinal)).filter (· < m) := by
    rw [storedBelow, List.map_map, List.filter_map]
    rfl
  have hbelow : (List.range r.count).filter (· < m) = List.range m := by
    obtain ⟨n, hn⟩ := Nat.exists_eq_add_of_le hm
    have hsize : r.count = m + n := hn
    rw [hsize, List.range_add, List.filter_append]
    have hfirst : (List.range m).filter (· < m) = List.range m :=
      List.filter_eq_self.2 fun k hk => decide_eq_true (List.mem_range.1 hk)
    have hrest : ((List.range n).map (m + ·)).filter (· < m) = [] := by
      refine List.filter_eq_nil_iff.2 fun k hk => ?_
      obtain ⟨i, -, rfl⟩ := List.mem_map.1 hk
      simp
    rw [hfirst, hrest, List.append_nil]
  rw [hcommute, ← hbelow]
  exact h.dense.filter _

/-- Symbols of one registry are told apart by their keys, and so are their stored forms. -/
theorem Kept.nodup_keys_storedBelow (h : r.Kept) :
    ((r.storedBelow m).map SymbolRecord.key).Nodup := by
  have hsymbols : r.symbols.Nodup := .of_map _ (h.dense.nodup_iff.2 List.nodup_range)
  rw [storedBelow, List.map_map]
  refine (hsymbols.filter _).map_on fun s hs t ht hst => ?_
  have hs := h.lookup_of_mem (List.mem_filter.1 hs).1
  have ht := h.lookup_of_mem (List.mem_filter.1 ht).1
  have hkey : s.key = t.key := hst
  rw [hkey, ht] at hs
  exact (Option.some.inj hs).symm

/-! ## Known symbols -/

/-- Symbols that are all known under the ordinals they carry leave a registry as it is. -/
theorem adopt_of_known (h : ∀ a ∈ records, ∃ s, r.lookup a.key = some s ∧ s.ordinal = a.ordinal) :
    ∃ symbols, r.adopt records = (.ok symbols, r) := by
  induction records with
  | nil => exact ⟨[], rfl⟩
  | cons record rest ih =>
    obtain ⟨⟨s, hfound, hordinal⟩, hrest⟩ := List.forall_mem_cons.1 h
    obtain ⟨others, hothers⟩ := ih hrest
    have hcanonical : r.canonicalize record = .ok (s, r) :=
      canonicalize_eq_ok.2 (.inl ⟨hfound, hordinal, rfl⟩)
    refine ⟨s :: others, ?_⟩
    rw [adopt, hcanonical]
    simp only [hothers]
    rfl

/-- What has been adopted once is adopted again, and nothing is added. -/
theorem Kept.adopt_again (h : r.Kept) {symbols : List Symbol}
    (hok : (r.adopt records).1 = .ok symbols) :
    (r.adopt records).2.adopt records = (.ok symbols, (r.adopt records).2) := by
  obtain ⟨again, hagain⟩ := adopt_of_known (h.lookup_of_adopt_ok hok)
  have hkept := (h.adopt records).1
  have hsame : again.map (some ·) = symbols.map (some ·) := by
    rw [h.adopt_ok hok, hkept.adopt_ok (congrArg Prod.fst hagain), hagain]
  rw [hagain, List.map_injective_iff.2 (Option.some_injective _) hsame]

/-! ## Any order -/

/-- Stored symbols of distinct ordinals have one order. -/
theorem byOrdinal_congr {others : List SymbolRecord} (hperm : others.Perm records)
    (hdistinct : (records.map (·.ordinal)).Nodup) : byOrdinal others = byOrdinal records := by
  have hothers : (byOrdinal others).Perm others := List.mergeSort_perm ..
  have hrecords : (byOrdinal records).Perm records := List.mergeSort_perm ..
  refine (hothers.trans (hperm.trans hrecords.symm)).eq_of_pairwise (fun a b ha hb hab hba => ?_)
    (List.pairwise_map.1 (pairwise_byOrdinal others))
    (List.pairwise_map.1 (pairwise_byOrdinal records))
  refine List.inj_on_of_nodup_map hdistinct ?_ (hrecords.subset hb) (Nat.le_antisymm hab hba)
  exact hperm.subset (hothers.subset ha)

/-- In the order of their ordinals, symbols whose ordinals are the numbers below some number stand
each at the place of its ordinal. -/
theorem getElem?_of_ordinals {symbols : List Symbol}
    (h : symbols.map (·.ordinal) = List.range m) {k : Nat} (hk : k < m) :
    ∃ s ∈ symbols, s.ordinal = k ∧ symbols[k]? = some s := by
  have hlength : symbols.length = m := by
    rw [← List.length_map (f := Symbol.ordinal), h, List.length_range]
  have hk' : k < symbols.length := hlength ▸ hk
  refine ⟨symbols[k], List.getElem_mem hk', ?_, List.getElem?_eq_getElem hk'⟩
  have hordinal : (symbols.map (·.ordinal))[k]? = some k := by rw [h, List.getElem?_range hk]
  rw [List.getElem?_map, List.getElem?_eq_getElem hk'] at hordinal
  exact Option.some.inj hordinal

/-! ## Restoring the first symbols -/

/-- What an empty registry answers to the stored forms of the first symbols of another, and what
becomes of it. -/
structure RestoresBelow (r : Registry) (m : Nat) (symbols : List Symbol) (r' : Registry) :
    Prop where
  length : symbols.length = m
  /-- Each answer is, in every part, the symbol of its place. -/
  same : ∀ k < m, ∃ s ∈ r.symbols, s.ordinal = k ∧ symbols[k]? = some s
  size : r'.size = m
  /-- Offered again in any order, the stored forms are answered the same symbols and add none. -/
  again : ∀ records : List SymbolRecord, records.Perm (r.storedBelow m) →
    r'.canonicalizeAll records = (.ok symbols, r')

/-- An empty registry can adopt stored symbols of distinct keys whose ordinals are the numbers below
some number. -/
theorem adoptable_empty (hkeys : (records.map SymbolRecord.key).Nodup)
    (hordinals : (records.map (·.ordinal)).Perm (List.range m)) :
    (∅ : Registry).Adoptable records m := by
  have hdistinct : (records.map (·.ordinal)).Nodup := hordinals.nodup_iff.2 List.nodup_range
  refine ⟨fun _ _ _ hs => (nomatch hs), fun a ha b hb _ _ => ⟨fun hab => ?_, fun hab => ?_⟩,
    fun n => ?_⟩
  · exact congrArg _ (List.inj_on_of_nodup_map hdistinct ha hb hab)
  · exact congrArg _ (List.inj_on_of_nodup_map hkeys ha hb hab)
  · have hn : n ∈ records.map (·.ordinal) ↔ n < m := by
      rw [hordinals.mem_iff, List.mem_range]
    rw [List.mem_map] at hn
    show (∃ record ∈ records, none = none ∧ record.ordinal = n) ↔ 0 ≤ n ∧ n < 0 + m
    simpa using hn

/-- What the stored forms of derived symbols stand for are these symbols. -/
theorem Kept.mem_symbols_of_storedBelow (h : r.Kept) (hderived : r.Derived) {record : SymbolRecord}
    (hrecord : record ∈ r.storedBelow m) : record.symbol ∈ r.symbols := by
  obtain ⟨s, hs, -, rfl⟩ := mem_storedBelow.1 hrecord
  rw [(hderived _ _ (h.lookup_of_mem hs)).symbol_toRecord]
  exact hs

theorem Kept.restoresBelow (h : r.Kept) (hderived : r.Derived) (hm : m ≤ r.size)
    (hperm : records.Perm (r.storedBelow m)) :
    ∃ symbols r', (∅ : Registry).canonicalizeAll records = (.ok symbols, r') ∧
      r.RestoresBelow m symbols r' := by
  have hordinals : (records.map (·.ordinal)).Perm (List.range m) :=
    (hperm.map _).trans (h.ordinals_storedBelow hm)
  have hkeys : (records.map SymbolRecord.key).Nodup :=
    (hperm.map _).nodup_iff.2 h.nodup_keys_storedBelow
  have hsorted : (byOrdinal records).Perm records := List.mergeSort_perm ..
  obtain ⟨⟨symbols, hok⟩, hsize⟩ :=
    (canonicalizeAll_accepts_iff ∅ records m).1 (adoptable_empty hkeys hordinals)
  have hsymbols : symbols = (byOrdinal records).map (·.symbol) :=
    ((canonicalizeAll_eq_ok_iff hkeys).1 hok).2
  have hplaces : symbols.map (·.ordinal) = List.range m := by
    have hanswered : symbols.map (·.ordinal) = (byOrdinal records).map (·.ordinal) :=
      ordinals_of_adopt hok
    rw [hanswered]
    exact ((hsorted.map _).trans hordinals).eq_of_pairwise' (pairwise_byOrdinal records)
      List.pairwise_le_range
  refine ⟨symbols, ((∅ : Registry).canonicalizeAll records).2, Prod.ext hok rfl, ?_, fun k hk => ?_,
    ?_, fun others hothers => ?_⟩
  · rw [← List.length_map (f := Symbol.ordinal), hplaces, List.length_range]
  · obtain ⟨s, hs, hplace⟩ := getElem?_of_ordinals hplaces hk
    refine ⟨s, ?_, hplace⟩
    rw [hsymbols] at hs
    obtain ⟨record, hrecord, rfl⟩ := List.mem_map.1 hs
    exact h.mem_symbols_of_storedBelow hderived (hperm.subset (hsorted.subset hrecord))
  · rw [hsize]
    exact Nat.zero_add m
  · -- the ordinals put the stored forms into the order they had the first time
    have horder : byOrdinal others = byOrdinal records :=
      byOrdinal_congr (hothers.trans hperm.symm) (hordinals.nodup_iff.2 List.nodup_range)
    rw [canonicalizeAll, horder]
    exact kept_empty.adopt_again hok

/-- After any calls, refused ones among them, the stored forms of the first symbols of a registry
are accepted by an empty one, in whatever order they are given. The symbols are answered by
ascending ordinal, each as it was, flags included, and they are answered again to whoever offers
the stored forms again. -/
theorem restoresBelow_run (calls : List Call) (m : Nat) (records : List SymbolRecord)
    (hm : m ≤ ((∅ : Registry).run calls).2.size)
    (hperm : records.Perm (((∅ : Registry).run calls).2.storedBelow m)) :
    ∃ symbols r', (∅ : Registry).canonicalizeAll records = (.ok symbols, r') ∧
      ((∅ : Registry).run calls).2.RestoresBelow m symbols r' :=
  (kept_empty.run calls).1.restoresBelow (derived_empty.run calls) hm hperm

/-- Four calls, of which one asks for a membership predicate, and one for what is there already. -/
def fourCalls : List Call :=
  [.intern ⟨"foo", ∅, ∅⟩ ∅, .intern isIntKey (.ofList [⟨"Int"⟩]), .intern ⟨"foo", ∅, ∅⟩ ∅,
    .intern ⟨"bar", ∅, ∅⟩ ∅]

/-- The first two of the three symbols are restored from the last one to the first. -/
theorem restoresBelow_fourCalls :
    ∃ symbols r', (∅ : Registry).canonicalizeAll
        [(Symbol.ofKey isIntKey 1 (.ofList [⟨"Int"⟩])).toRecord,
          (Symbol.ofKey ⟨"foo", ∅, ∅⟩ 0 ∅).toRecord] = (.ok symbols, r') ∧
      ((∅ : Registry).run fourCalls).2.RestoresBelow 2 symbols r' :=
  restoresBelow_run fourCalls 2 _ (by decide) (by decide)

end RewriteSemantics.Registry
