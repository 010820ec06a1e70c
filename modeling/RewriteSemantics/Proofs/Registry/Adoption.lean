/-
# Stored symbols in an empty registry

A registry that knows none of the keys of some stored symbols can only create the symbols, and it
creates each with its next free ordinal. So it accepts the stored symbols exactly if their ordinals
are the numbers from the next free one on, without a gap. Then it answers the symbols that had been
stored, flags included.
-/
import Mathlib
import RewriteSemantics.Proofs.Registry.Restoration

namespace RewriteSemantics

/-- The symbol that a stored one stands for where it is not known. -/
def SymbolRecord.symbol (record : SymbolRecord) : Symbol :=
  .ofKey record.key record.ordinal (.ofList record.predicateSort.toList)

/-- A derived symbol is found again behind its stored form. -/
theorem Symbol.Derived.symbol_toRecord {s : Symbol} (h : s.Derived) : s.toRecord.symbol = s :=
  h.ofKey_predicateSort

namespace Registry

variable {r : Registry} {records : List SymbolRecord} {symbols : List Symbol}

theorem adopt_cons_eq_ok {record : SymbolRecord} :
    (r.adopt (record :: records)).1 = .ok symbols ↔ ∃ s r' others,
      r.canonicalize record = .ok (s, r') ∧ (r'.adopt records).1 = .ok others ∧
        symbols = s :: others := by
  rw [adopt]
  cases hrecord : r.canonicalize record with
  | error e => simp
  | ok found =>
    obtain ⟨s, r'⟩ := found
    cases hothers : (r'.adopt records).1 with
    | error e => simp [hothers, Except.map]
    | ok others => simp [hothers, Except.map, eq_comm]

/-- A stored symbol that is not known is accepted exactly if it has the next free ordinal. -/
theorem canonicalize_eq_ok_of_new {r' : Registry} {record : SymbolRecord} {s : Symbol}
    (hnew : r.lookup record.key = none) : r.canonicalize record = .ok (s, r') ↔
      record.ordinal = r.count ∧ s = record.symbol ∧ r' = r.push record.symbol := by
  have hsymbol : record.ordinal = r.count →
      r.nextSymbol record.key (.ofList record.predicateSort.toList) = record.symbol := by
    intro hordinal
    rw [nextSymbol, ← hordinal]
    rfl
  rw [canonicalize_eq_ok]
  constructor
  · rintro (⟨hfound, -⟩ | ⟨-, hordinal, rfl, rfl⟩)
    · rw [hnew] at hfound
      cases hfound
    · rw [hsymbol hordinal]
      exact ⟨hordinal, rfl, rfl⟩
  · rintro ⟨hordinal, rfl, rfl⟩
    exact .inr ⟨hnew, hordinal, (hsymbol hordinal).symm, rfl⟩

/-- New symbols are adopted exactly if their ordinals are the next ones in turn. -/
theorem adopt_eq_ok_iff (hnew : ∀ record ∈ records, r.lookup record.key = none)
    (hdistinct : (records.map SymbolRecord.key).Nodup) :
    (r.adopt records).1 = .ok symbols ↔
      records.map (·.ordinal) = List.range' r.count records.length ∧
        symbols = records.map (·.symbol) := by
  induction records generalizing r symbols with
  | nil =>
    rw [adopt]
    simp [eq_comm]
  | cons record rest ih =>
    obtain ⟨hhead, hrest⟩ := List.forall_mem_cons.1 hnew
    obtain ⟨hkey, hkeys⟩ := List.nodup_cons.1 hdistinct
    have hsymbolKey : record.symbol.key = record.key := Symbol.key_ofKey ..
    -- The new symbol takes no other key.
    have hstill : ∀ other ∈ rest, (r.push record.symbol).lookup other.key = none := by
      intro other hother
      rw [lookup_push, hsymbolKey, if_neg, hrest other hother]
      exact fun heq => hkey (heq ▸ List.mem_map_of_mem hother)
    rw [adopt_cons_eq_ok, List.map_cons, List.map_cons, List.length_cons, List.range'_succ,
      List.cons.injEq]
    constructor
    · rintro ⟨s, r', others, hrecord, hothers, rfl⟩
      obtain ⟨hordinal, rfl, rfl⟩ := (canonicalize_eq_ok_of_new hhead).1 hrecord
      obtain ⟨hordinals, rfl⟩ := (ih hstill hkeys).1 hothers
      exact ⟨⟨hordinal, hordinals⟩, rfl⟩
    · rintro ⟨⟨hordinal, hordinals⟩, rfl⟩
      exact ⟨_, _, _, (canonicalize_eq_ok_of_new hhead).2 ⟨hordinal, rfl, rfl⟩,
        (ih hstill hkeys).2 ⟨hordinals, rfl⟩, rfl⟩

/-! ## Any order -/

theorem pairwise_byOrdinal (records : List SymbolRecord) :
    ((byOrdinal records).map (·.ordinal)).Pairwise (· ≤ ·) := by
  refine List.pairwise_map.2 ?_
  have hsorted : (byOrdinal records).Pairwise fun a b => decide (a.ordinal ≤ b.ordinal) = true :=
    List.pairwise_mergeSort (fun a b c hab hbc => by simp only [decide_eq_true_eq] at *; omega)
      (fun a b => by simp only [Bool.or_eq_true, decide_eq_true_eq]; omega) records
  exact hsorted.imp fun h => by simpa using h

/-- Stored symbols of distinct keys are accepted by an empty registry exactly if their ordinals are
the numbers below some number, in whatever order they are given. What is answered are the symbols
they stand for, by ascending ordinal. -/
theorem canonicalizeAll_eq_ok_iff (hdistinct : (records.map SymbolRecord.key).Nodup) :
    ((∅ : Registry).canonicalizeAll records).1 = .ok symbols ↔
      (records.map (·.ordinal)).Perm (List.range records.length) ∧
        symbols = (byOrdinal records).map (·.symbol) := by
  have hperm : (byOrdinal records).Perm records := List.mergeSort_perm ..
  have hkeys : ((byOrdinal records).map SymbolRecord.key).Nodup :=
    (hperm.map SymbolRecord.key).nodup_iff.2 hdistinct
  have hsorted : (byOrdinal records).map (·.ordinal) = List.range records.length ↔
      (records.map (·.ordinal)).Perm (List.range records.length) := by
    constructor
    · intro h
      rw [← h]
      exact (hperm.map (·.ordinal)).symm
    · intro h
      exact ((hperm.map (·.ordinal)).trans h).eq_of_pairwise' (pairwise_byOrdinal records)
        List.pairwise_le_range
  rw [canonicalizeAll, adopt_eq_ok_iff (fun _ _ => rfl) hkeys, hperm.length_eq]
  show _ = List.range' 0 records.length ∧ _ ↔ _
  rw [← List.range_eq_range', hsorted]

end Registry

end RewriteSemantics
