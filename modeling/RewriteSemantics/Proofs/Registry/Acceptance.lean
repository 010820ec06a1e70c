/-
# Which stored symbols a registry accepts

Stored symbols are adopted by ascending ordinal, and what one of them needs depends on the ones
before it. Taken together they need three things: the ones that are known carry the ordinals they
have here, the new ones are told apart by their ordinals as by their keys, and the new ordinals go
on from the next free one without a gap. None of this speaks of the order they are given in. Where a
registry stops, it has adopted the ones before the first that it cannot take, and nothing else.
-/
import Mathlib
import RewriteSemantics.Proofs.Registry.Adoption

namespace RewriteSemantics.Registry

variable {r r' : Registry} {record : SymbolRecord} {records : List SymbolRecord} {m : Nat}

/-- Stored symbols that a registry can adopt, with `m` new symbols among them. -/
structure Adoptable (r : Registry) (records : List SymbolRecord) (m : Nat) : Prop where
  known : ∀ record ∈ records, ∀ s, r.lookup record.key = some s → s.ordinal = record.ordinal
  keyed : ∀ a ∈ records, ∀ b ∈ records, r.lookup a.key = none → r.lookup b.key = none →
    (a.ordinal = b.ordinal ↔ a.key = b.key)
  dense : ∀ n, (∃ record ∈ records, r.lookup record.key = none ∧ record.ordinal = n) ↔
    r.size ≤ n ∧ n < r.size + m

/-! ## One stored symbol -/

theorem lookup_push_symbol (r : Registry) (record : SymbolRecord) (key : SymbolKey) :
    (r.push record.symbol).lookup key =
      if key = record.key then some record.symbol else r.lookup key := by
  rw [lookup_push, SymbolRecord.symbol, Symbol.key_ofKey]

/-- A registry has not seen a key exactly if it had not before and the key is not the new one. -/
theorem lookup_push_eq_none {key : SymbolKey} :
    (r.push record.symbol).lookup key = none ↔ key ≠ record.key ∧ r.lookup key = none := by
  rw [lookup_push_symbol]
  split
  · rename_i hkey
    simp [hkey]
  · rename_i hkey
    simp [hkey]

theorem ordinal_symbol (record : SymbolRecord) : record.symbol.ordinal = record.ordinal :=
  Symbol.ordinal_ofKey ..

/-- A known symbol makes no difference to the ones behind it. -/
theorem adoptable_cons_of_known {s : Symbol} (hs : r.lookup record.key = some s) :
    r.Adoptable (record :: records) m ↔ s.ordinal = record.ordinal ∧ r.Adoptable records m := by
  have hnot : r.lookup record.key ≠ none := by simp [hs]
  constructor
  · rintro ⟨hknown, hkeyed, hdense⟩
    obtain ⟨hfirst, hknown⟩ := List.forall_mem_cons.1 hknown
    refine ⟨hfirst s hs, hknown, fun a ha b hb => ?_, fun n => ?_⟩
    · exact hkeyed a (List.mem_cons_of_mem _ ha) b (List.mem_cons_of_mem _ hb)
    · rw [← hdense n, List.exists_mem_cons_iff]
      simp [hnot]
  · rintro ⟨hordinal, hknown, hkeyed, hdense⟩
    refine ⟨List.forall_mem_cons.2 ⟨fun t ht => ?_, hknown⟩, ?_, fun n => ?_⟩
    · rw [hs] at ht
      cases ht
      exact hordinal
    · intro a ha b hb hanew hbnew
      rcases List.mem_cons.1 ha with rfl | ha
      · exact absurd hanew hnot
      rcases List.mem_cons.1 hb with rfl | hb
      · exact absurd hbnew hnot
      exact hkeyed a ha b hb hanew hbnew
    · rw [← hdense n, List.exists_mem_cons_iff]
      simp [hnot]

section

variable (hnew : r.lookup record.key = none) (hordinal : record.ordinal = r.count)

include hnew hordinal

/-- A new symbol with the next free ordinal leaves one less to the ones behind it. -/
theorem Adoptable.behind_new (h : r.Adoptable (record :: records) (m + 1)) :
    (r.push record.symbol).Adoptable records m := by
  obtain ⟨hknown, hkeyed, hdense⟩ := h
  have hsize : (r.push record.symbol).size = r.size + 1 := rfl
  have hcount : record.ordinal = r.size := hordinal
  have hsame : ∀ a ∈ records, r.lookup a.key = none →
      (a.ordinal = record.ordinal ↔ a.key = record.key) := fun a ha hanew =>
    hkeyed a (List.mem_cons_of_mem _ ha) record List.mem_cons_self hanew hnew
  refine ⟨fun a ha t ht => ?_, fun a ha b hb hanew hbnew => ?_, fun n => ?_⟩
  · rw [lookup_push_symbol] at ht
    split at ht
    · rename_i hkey
      cases ht
      rw [ordinal_symbol]
      exact ((hsame a ha (hkey ▸ hnew)).2 hkey).symm
    · exact hknown a (List.mem_cons_of_mem _ ha) t ht
  · exact hkeyed a (List.mem_cons_of_mem _ ha) b (List.mem_cons_of_mem _ hb)
      (lookup_push_eq_none.1 hanew).2 (lookup_push_eq_none.1 hbnew).2
  · rw [hsize]
    constructor
    · rintro ⟨a, ha, hanew, rfl⟩
      obtain ⟨hkey, hanew⟩ := lookup_push_eq_none.1 hanew
      have hrange := (hdense a.ordinal).1 ⟨a, List.mem_cons_of_mem _ ha, hanew, rfl⟩
      have hne : a.ordinal ≠ record.ordinal := fun heq => hkey ((hsame a ha hanew).1 heq)
      omega
    · intro hrange
      obtain ⟨a, ha, hanew, han⟩ := (hdense n).2 (by omega)
      have hne : a.ordinal ≠ record.ordinal := by omega
      rcases List.mem_cons.1 ha with rfl | ha
      · exact absurd rfl hne
      · exact ⟨a, ha,
          lookup_push_eq_none.2 ⟨fun hkey => hne ((hsame a ha hanew).2 hkey), hanew⟩, han⟩

omit hnew in
/-- Behind a new symbol, a new key is the one that it has taken, or it is as new as it was. -/
theorem Adoptable.new_cases (h : (r.push record.symbol).Adoptable records m) :
    ∀ a ∈ record :: records, r.lookup a.key = none →
      a.key = record.key ∧ a.ordinal = r.size ∨
        a.key ≠ record.key ∧ a ∈ records ∧ (r.push record.symbol).lookup a.key = none ∧
          r.size < a.ordinal := by
  intro a ha hanew
  have hsize : (r.push record.symbol).size = r.size + 1 := rfl
  by_cases hkey : a.key = record.key
  · refine .inl ⟨hkey, ?_⟩
    rcases List.mem_cons.1 ha with rfl | ha
    · exact hordinal
    · have hfound : (r.push record.symbol).lookup a.key = some record.symbol := by
        rw [lookup_push_symbol, if_pos hkey]
      rw [← h.known a ha _ hfound, ordinal_symbol]
      exact hordinal
  · have hmem : a ∈ records := by
      rcases List.mem_cons.1 ha with rfl | ha
      · exact absurd rfl hkey
      · exact ha
    have hstill := lookup_push_eq_none.2 ⟨hkey, hanew⟩
    have hrange := (h.dense a.ordinal).1 ⟨a, hmem, hstill, rfl⟩
    exact .inr ⟨hkey, hmem, hstill, by omega⟩

/-- A new symbol with the next free ordinal stands in front of what fits behind it. -/
theorem Adoptable.cons_new (h : (r.push record.symbol).Adoptable records m) :
    r.Adoptable (record :: records) (m + 1) := by
  have hcases := h.new_cases hordinal
  have hsize : (r.push record.symbol).size = r.size + 1 := rfl
  refine ⟨fun a ha t ht => ?_, fun a ha b hb hanew hbnew => ?_, fun n => ?_⟩
  · have hkey : a.key ≠ record.key := by
      intro hkey
      rw [hkey, hnew] at ht
      cases ht
    rcases List.mem_cons.1 ha with rfl | ha
    · exact absurd rfl hkey
    · refine h.known a ha t ?_
      rw [lookup_push_symbol, if_neg hkey, ht]
  · rcases hcases a ha hanew with ⟨hakey, hao⟩ | ⟨hakey, hamem, hastill, hao⟩
    · rcases hcases b hb hbnew with ⟨hbkey, hbo⟩ | ⟨hbkey, hbmem, hbstill, hbo⟩
      · simp [hakey, hbkey, hao, hbo]
      · exact ⟨fun heq => by omega, fun heq => absurd (heq.symm.trans hakey) hbkey⟩
    · rcases hcases b hb hbnew with ⟨hbkey, hbo⟩ | ⟨hbkey, hbmem, hbstill, hbo⟩
      · exact ⟨fun heq => by omega, fun heq => absurd (heq.trans hbkey) hakey⟩
      · exact h.keyed a hamem b hbmem hastill hbstill
  · constructor
    · rintro ⟨a, ha, hanew, rfl⟩
      rcases hcases a ha hanew with ⟨-, hao⟩ | ⟨-, hamem, hastill, -⟩
      · omega
      · have hrange := (h.dense a.ordinal).1 ⟨a, hamem, hastill, rfl⟩
        omega
    · intro hrange
      by_cases hn : n = r.size
      · exact ⟨record, List.mem_cons_self, hnew, hordinal.trans hn.symm⟩
      · obtain ⟨a, ha, hastill, han⟩ := (h.dense n).2 (by omega)
        exact ⟨a, List.mem_cons_of_mem _ ha, (lookup_push_eq_none.1 hastill).2, han⟩

theorem adoptable_cons_of_new :
    r.Adoptable (record :: records) (m + 1) ↔ (r.push record.symbol).Adoptable records m :=
  ⟨.behind_new hnew hordinal, .cons_new hnew hordinal⟩

end

/-- The first new symbol of some has the next free ordinal if none has a smaller one. -/
theorem Adoptable.ordinal_eq_count (h : r.Adoptable (record :: records) m)
    (hnew : r.lookup record.key = none) (hleast : ∀ a ∈ records, record.ordinal ≤ a.ordinal) :
    record.ordinal = r.count ∧ ∃ n, m = n + 1 := by
  have hrange := (h.dense record.ordinal).1 ⟨record, List.mem_cons_self, hnew, rfl⟩
  obtain ⟨a, ha, -, hao⟩ := (h.dense r.size).2 (by omega)
  have hle : record.ordinal ≤ a.ordinal := by
    rcases List.mem_cons.1 ha with rfl | ha
    · exact le_refl _
    · exact hleast a ha
  have hcount : r.size = r.count := rfl
  exact ⟨by omega, m - 1, by omega⟩

/-! ## Adoption in the order of the ordinals -/

theorem adopt_cons_of_ok {s : Symbol} (h : r.canonicalize record = .ok (s, r')) :
    (r.adopt (record :: records)).2 = (r'.adopt records).2 := by
  rw [adopt, h]

theorem size_le_adopt (r : Registry) (records : List SymbolRecord) :
    r.size ≤ (r.adopt records).2.size := by
  induction records generalizing r with
  | nil => exact le_refl _
  | cons record rest ih =>
    cases hcanonical : r.canonicalize record with
    | error e =>
      rw [adopt, hcanonical]
    | ok found =>
      obtain ⟨s, r'⟩ := found
      rw [adopt_cons_of_ok hcanonical]
      rcases canonicalize_eq_ok.1 hcanonical with ⟨-, -, rfl⟩ | ⟨-, -, -, rfl⟩
      · exact ih r'
      · exact (Nat.le_succ r.size).trans (ih (r.push s))

/-- Stored symbols in the order of their ordinals are adopted exactly if they are adoptable. -/
theorem adopt_accepts_iff (hsorted : (records.map (·.ordinal)).Pairwise (· ≤ ·)) :
    r.Adoptable records m ↔
      (∃ symbols, (r.adopt records).1 = .ok symbols) ∧ (r.adopt records).2.size = r.size + m := by
  induction records generalizing r m with
  | nil =>
    rw [adopt]
    constructor
    · intro h
      have hnone := (h.dense r.size).2
      refine ⟨⟨[], rfl⟩, ?_⟩
      show r.size = r.size + m
      by_contra hne
      obtain ⟨_, hmem, -⟩ := hnone ⟨le_refl _, by omega⟩
      cases hmem
    · rintro ⟨-, hsize⟩
      have hsize : r.size = r.size + m := hsize
      refine ⟨by simp, by simp, fun n => ?_⟩
      simp only [List.not_mem_nil, false_and, exists_false, false_iff]
      omega
  | cons record rest ih =>
    rw [List.map_cons, List.pairwise_cons] at hsorted
    obtain ⟨hleast, hsorted⟩ := hsorted
    have hleast : ∀ a ∈ rest, record.ordinal ≤ a.ordinal := fun a ha =>
      hleast _ (List.mem_map_of_mem ha)
    simp only [adopt_cons_eq_ok]
    cases hfound : r.lookup record.key with
    | some s =>
      rw [adoptable_cons_of_known hfound, ih hsorted]
      constructor
      · rintro ⟨hordinal, ⟨symbols, hok⟩, hsize⟩
        have hcanonical : r.canonicalize record = .ok (s, r) :=
          canonicalize_eq_ok.2 (.inl ⟨hfound, hordinal, rfl⟩)
        rw [adopt_cons_of_ok hcanonical]
        exact ⟨⟨_, s, r, symbols, hcanonical, hok, rfl⟩, hsize⟩
      · rintro ⟨⟨_, t, r', symbols, hcanonical, hok, -⟩, hsize⟩
        rw [adopt_cons_of_ok hcanonical] at hsize
        rcases canonicalize_eq_ok.1 hcanonical with ⟨ht, hordinal, rfl⟩ | ⟨hnew, -⟩
        · rw [hfound] at ht
          cases ht
          exact ⟨hordinal, ⟨symbols, hok⟩, hsize⟩
        · rw [hfound] at hnew
          cases hnew
    | none =>
      have hsize : (r.push record.symbol).size = r.size + 1 := rfl
      constructor
      · intro h
        obtain ⟨hordinal, n, rfl⟩ := h.ordinal_eq_count hfound hleast
        rw [adoptable_cons_of_new hfound hordinal, ih hsorted, hsize] at h
        obtain ⟨⟨symbols, hok⟩, hgrown⟩ := h
        have hcanonical : r.canonicalize record = .ok (record.symbol, r.push record.symbol) :=
          (canonicalize_eq_ok_of_new hfound).2 ⟨hordinal, rfl, rfl⟩
        rw [adopt_cons_of_ok hcanonical]
        exact ⟨⟨_, _, _, symbols, hcanonical, hok, rfl⟩, by omega⟩
      · rintro ⟨⟨_, s, r', symbols, hcanonical, hok, -⟩, hgrown⟩
        rw [adopt_cons_of_ok hcanonical] at hgrown
        obtain ⟨hordinal, rfl, rfl⟩ := (canonicalize_eq_ok_of_new hfound).1 hcanonical
        have hle := size_le_adopt (r.push record.symbol) rest
        obtain ⟨n, rfl⟩ : ∃ n, m = n + 1 := ⟨m - 1, by omega⟩
        rw [adoptable_cons_of_new hfound hordinal, ih hsorted, hsize]
        exact ⟨⟨symbols, hok⟩, by omega⟩

/-- The answers of an adoption that goes through have the ordinals they were stored with. -/
theorem ordinals_of_adopt {symbols : List Symbol} (h : (r.adopt records).1 = .ok symbols) :
    symbols.map (·.ordinal) = records.map (·.ordinal) := by
  induction records generalizing r symbols with
  | nil =>
    cases h
    rfl
  | cons record rest ih =>
    obtain ⟨s, r', others, hcanonical, hothers, rfl⟩ := adopt_cons_eq_ok.1 h
    have hordinal : s.ordinal = record.ordinal := by
      rcases canonicalize_eq_ok.1 hcanonical with ⟨-, hordinal, -⟩ | ⟨-, hordinal, rfl, -⟩
      · exact hordinal
      · exact (Symbol.ordinal_ofKey ..).trans hordinal.symm
    rw [List.map_cons, List.map_cons, hordinal, ih hothers]

/-! ## Where adoption stops -/

/-- An adoption that stops has adopted some first symbols and is refused the next. -/
theorem exists_refused_of_adopt {e : RegistryError} (h : (r.adopt records).1 = .error e) :
    ∃ front record back symbols, records = front ++ record :: back ∧
      r.adopt front = (.ok symbols, (r.adopt records).2) ∧
      (r.adopt records).2.canonicalize record = .error e := by
  induction records generalizing r with
  | nil => cases h
  | cons record rest ih =>
    cases hcanonical : r.canonicalize record with
    | error e' =>
      have hadopt : r.adopt (record :: rest) = (.error e', r) := by rw [adopt, hcanonical]
      rw [hadopt] at h
      cases h
      rw [hadopt]
      exact ⟨[], record, rest, [], rfl, rfl, hcanonical⟩
    | ok found =>
      obtain ⟨s, r'⟩ := found
      have hrest : (r'.adopt rest).1 = .error e := by
        rw [adopt, hcanonical] at h
        cases hothers : (r'.adopt rest).1 with
        | error e' => simpa [hothers, Except.map] using h
        | ok others => simp [hothers, Except.map] at h
      obtain ⟨front, refused, back, symbols, rfl, hfront, hrefused⟩ := ih hrest
      rw [adopt_cons_of_ok hcanonical]
      refine ⟨record :: front, refused, back, s :: symbols, rfl, ?_, hrefused⟩
      rw [adopt, hcanonical]
      simp only [hfront]
      rfl

/-- What an adoption adds are symbols of the stored ones, under their keys. -/
theorem lookup_of_adopt {key : SymbolKey} {s : Symbol}
    (h : (r.adopt records).2.lookup key = some s) :
    r.lookup key = some s ∨
      r.lookup key = none ∧ ∃ a ∈ records, a.key = key ∧ s = a.symbol := by
  induction records generalizing r with
  | nil => exact .inl h
  | cons record rest ih =>
    cases hcanonical : r.canonicalize record with
    | error e =>
      rw [adopt, hcanonical] at h
      exact .inl h
    | ok found =>
      obtain ⟨t, r'⟩ := found
      rw [adopt_cons_of_ok hcanonical] at h
      rcases canonicalize_eq_ok.1 hcanonical with ⟨-, -, rfl⟩ | ⟨hnew, -⟩
      · rcases ih h with h | ⟨hnone, a, ha, hkey, hs⟩
        · exact .inl h
        · exact .inr ⟨hnone, a, List.mem_cons_of_mem _ ha, hkey, hs⟩
      · obtain ⟨-, rfl, rfl⟩ := (canonicalize_eq_ok_of_new hnew).1 hcanonical
        rcases ih h with h | ⟨hnone, a, ha, hkey, hs⟩
        · rw [lookup_push_symbol] at h
          split at h
          · rename_i hkey
            exact .inr ⟨hkey ▸ hnew, record, List.mem_cons_self, hkey.symm,
              (Option.some.inj h).symm⟩
          · exact .inl h
        · exact .inr ⟨(lookup_push_eq_none.1 hnone).2, a, List.mem_cons_of_mem _ ha, hkey, hs⟩

/-- Every stored symbol of an adoption that goes through is found under its ordinal. -/
theorem Kept.lookup_of_adopt_ok (h : r.Kept) {symbols : List Symbol}
    (hok : (r.adopt records).1 = .ok symbols) :
    ∀ a ∈ records, ∃ s, (r.adopt records).2.lookup a.key = some s ∧ s.ordinal = a.ordinal := by
  induction records generalizing r symbols with
  | nil => simp
  | cons record rest ih =>
    obtain ⟨s, r', others, hcanonical, hothers, rfl⟩ := adopt_cons_eq_ok.1 hok
    have hgives := h.canonicalize hcanonical
    have hordinal : s.ordinal = record.ordinal := by
      have hmap := ordinals_of_adopt hok
      rw [List.map_cons, List.map_cons] at hmap
      exact (List.cons.inj hmap).1
    rw [adopt_cons_of_ok hcanonical]
    refine List.forall_mem_cons.2 ⟨⟨s, ?_, hordinal⟩, ih hgives.kept hothers⟩
    exact (hgives.kept.adopt rest).2 _ _ hgives.found

/-! ## Any order -/

theorem adoptable_congr {others : List SymbolRecord} (h : ∀ a, a ∈ others ↔ a ∈ records) :
    r.Adoptable others m ↔ r.Adoptable records m := by
  constructor
  · rintro ⟨hknown, hkeyed, hdense⟩
    simp only [h] at hknown hkeyed hdense
    exact ⟨hknown, hkeyed, hdense⟩
  · rintro ⟨hknown, hkeyed, hdense⟩
    simp only [← h] at hknown hkeyed hdense
    exact ⟨hknown, hkeyed, hdense⟩

theorem canonicalizeAll_accepts_iff (r : Registry) (records : List SymbolRecord) (m : Nat) :
    r.Adoptable records m ↔ (∃ symbols, (r.canonicalizeAll records).1 = .ok symbols) ∧
      (r.canonicalizeAll records).2.size = r.size + m := by
  rw [← adoptable_congr fun _ => mem_byOrdinal, adopt_accepts_iff (pairwise_byOrdinal records)]
  rfl

theorem exists_canonicalizeAll_eq_ok_iff (r : Registry) (records : List SymbolRecord) :
    (∃ symbols, (r.canonicalizeAll records).1 = .ok symbols) ↔ ∃ m, r.Adoptable records m := by
  constructor
  · intro hok
    have hle := size_le_adopt r (byOrdinal records)
    have hsize : (r.canonicalizeAll records).2.size = (r.adopt (byOrdinal records)).2.size := rfl
    refine ⟨(r.canonicalizeAll records).2.size - r.size, ?_⟩
    exact (canonicalizeAll_accepts_iff r records _).2 ⟨hok, by omega⟩
  · rintro ⟨m, h⟩
    exact ((canonicalizeAll_accepts_iff r records m).1 h).1

/-- What becomes of a registry that is offered some stored symbols. -/
structure Judges (r : Registry) (records : List SymbolRecord) : Prop where
  /-- They are accepted exactly if they are adoptable. -/
  accepts : (∃ symbols, (r.canonicalizeAll records).1 = .ok symbols) ↔
    ∃ m, r.Adoptable records m
  /-- Their order does not matter. -/
  any_order : ∀ others : List SymbolRecord, others.Perm records →
    ((∃ symbols, (r.canonicalizeAll others).1 = .ok symbols) ↔
      ∃ symbols, (r.canonicalizeAll records).1 = .ok symbols)
  size_eq : ∀ m, r.Adoptable records m → (r.canonicalizeAll records).2.size = r.size + m
  /-- The answers have the ordinals that were stored, by ascending ordinal. -/
  ordinals : ∀ symbols, (r.canonicalizeAll records).1 = .ok symbols →
    (symbols.map (·.ordinal)).Perm (records.map (·.ordinal)) ∧
      (symbols.map (·.ordinal)).Pairwise (· ≤ ·)
  /-- The symbols there were are still there, and the ordinals are still dense. -/
  grows : r.Grows (r.canonicalizeAll records).2
  dense : ((r.canonicalizeAll records).2.symbols.map (·.ordinal)).Perm
    (List.range (r.canonicalizeAll records).2.size)
  /-- Where the registry stops, it has added the symbols before the one that it refuses. -/
  stops : ∀ e, (r.canonicalizeAll records).1 = .error e → ∃ front record back,
    byOrdinal records = front ++ record :: back ∧
      (r.canonicalizeAll records).2.canonicalize record = .error e ∧
      (∀ a ∈ front, ∃ s, (r.canonicalizeAll records).2.lookup a.key = some s ∧
        s.ordinal = a.ordinal) ∧
      ∀ key s, (r.canonicalizeAll records).2.lookup key = some s → r.lookup key = some s ∨
        r.lookup key = none ∧ ∃ a ∈ front, a.key = key ∧ s = a.symbol

theorem Kept.judges (h : r.Kept) (records : List SymbolRecord) : r.Judges records where
  accepts := exists_canonicalizeAll_eq_ok_iff r records
  any_order others hperm := by
    rw [exists_canonicalizeAll_eq_ok_iff, exists_canonicalizeAll_eq_ok_iff]
    exact exists_congr fun m => adoptable_congr fun a => hperm.mem_iff
  size_eq m hm := ((canonicalizeAll_accepts_iff r records m).1 hm).2
  ordinals symbols hok := by
    have hperm : (byOrdinal records).Perm records := List.mergeSort_perm ..
    rw [ordinals_of_adopt hok]
    exact ⟨hperm.map _, pairwise_byOrdinal records⟩
  grows := (h.adopt (byOrdinal records)).2
  dense := (h.adopt (byOrdinal records)).1.dense
  stops e he := by
    obtain ⟨front, record, back, symbols, hsplit, hfront, hrefused⟩ := exists_refused_of_adopt he
    have hregistry : (r.canonicalizeAll records).2 = (r.adopt front).2 := by
      rw [hfront]
      rfl
    have haccepted : (r.adopt front).1 = .ok symbols := by rw [hfront]
    have hrefused' : (r.canonicalizeAll records).2.canonicalize record = .error e := hrefused
    rw [hregistry] at hrefused' ⊢
    exact ⟨front, record, back, hsplit, hrefused', h.lookup_of_adopt_ok haccepted,
      fun key s => lookup_of_adopt⟩

/-- After any calls, refused ones among them, a registry accepts exactly the stored symbols that are
adoptable, whatever their order. -/
theorem judges_run (calls : List Call) (records : List SymbolRecord) :
    ((∅ : Registry).run calls).2.Judges records :=
  (kept_empty.run calls).1.judges records

end RewriteSemantics.Registry
