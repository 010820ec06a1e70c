/-
# Histories of a registry

A registry is asked for symbols in any order and any number of times: by key, as a definition
declares a label, by looking up, and by adopting stored symbols one by one or many at once. Some of
these calls are refused. Whatever the calls, the ordinals stay dense, every symbol stays in its
place, and two symbols that were ever handed out are the same exactly if they were asked for under
the same key. Within a registry an instance of a symbol is told by its ordinal: every symbol that is
created takes the count as its ordinal and advances the count.
-/
import RewriteSemantics.Proofs.Registry.Invariant

namespace RewriteSemantics.Registry

/-! ## Calls -/

/-- A call of a registry. -/
inductive Call where
  | intern (key : SymbolKey) (sorts : OrderedSet SortName)
  | internFrom (d : Definition) (label : String)
  | lookup (key : SymbolKey)
  | canonicalize (record : SymbolRecord)
  | canonicalizeAll (records : List SymbolRecord)

/-- The keys a call asks for. -/
def Call.keys : Call → List SymbolKey
  | .intern key _ => [key]
  | .internFrom d label => [keyIn d label]
  | .lookup key => [key]
  | .canonicalize record => [record.key]
  | .canonicalizeAll records => records.map (·.key)

/-- The answer to a call: the symbols it hands out, or why it is refused. A look-up that finds
nothing hands out none. -/
abbrev Answer := Except RegistryError (List Symbol)

/-- The symbols an answer hands out. -/
def Answer.symbols : Answer → List Symbol
  | .ok symbols => symbols
  | .error _ => []

/-- The answer of a registry to a call, and the registry afterwards. -/
def perform (r : Registry) : Call → Answer × Registry
  | .intern key sorts => (.ok [(r.intern key sorts).1], (r.intern key sorts).2)
  | .internFrom d label => (.ok [(r.internFrom d label).1], (r.internFrom d label).2)
  | .lookup key => (.ok (r.lookup key).toList, r)
  | .canonicalize record => match r.canonicalize record with
    | .ok (s, r') => (.ok [s], r')
    | .error e => (.error e, r)
  | .canonicalizeAll records => r.canonicalizeAll records

/-- The answers to some calls one after the other, and the registry afterwards. -/
def run (r : Registry) : List Call → List Answer × Registry
  | [] => ([], r)
  | call :: calls =>
    let (answer, r) := r.perform call
    let (answers, r) := run r calls
    (answer :: answers, r)

/-! ## One call -/

theorem mem_byOrdinal {records : List SymbolRecord} {record : SymbolRecord} :
    record ∈ byOrdinal records ↔ record ∈ records :=
  (List.mergeSort_perm ..).mem_iff

/-- A call keeps the books and forgets nothing. -/
theorem Kept.perform {r : Registry} (h : r.Kept) (call : Call) :
    (r.perform call).2.Kept ∧ r.Grows (r.perform call).2 := by
  cases call with
  | intern key sorts => exact ⟨(h.intern key sorts).kept, (h.intern key sorts).grows⟩
  | internFrom d label => exact ⟨(h.intern _ _).kept, (h.intern _ _).grows⟩
  | lookup key => exact ⟨h, .refl r⟩
  | canonicalize record =>
    rw [Registry.perform]
    split
    · rename_i s r' hs
      exact ⟨(h.canonicalize hs).kept, (h.canonicalize hs).grows⟩
    · exact ⟨h, .refl r⟩
  | canonicalizeAll records => exact h.adopt _

/-- A symbol handed out by a call is the one kept for a key that the call asked for. -/
theorem Kept.found_of_perform {r : Registry} (h : r.Kept) {call : Call} {s : Symbol}
    (hs : s ∈ (r.perform call).1.symbols) :
    s.key ∈ call.keys ∧ (r.perform call).2.lookup s.key = some s := by
  have hgives : ∀ {key : SymbolKey} {r' : Registry}, r.Gives key s r' →
      s.key ∈ [key] ∧ r'.lookup s.key = some s := by
    intro key r' hg
    have hkey := hg.kept.key_of_lookup hg.found
    exact ⟨List.mem_singleton.2 hkey, hkey ▸ hg.found⟩
  cases call with
  | intern key sorts =>
    cases List.mem_singleton.1 hs
    exact hgives (h.intern key sorts)
  | internFrom d label =>
    cases List.mem_singleton.1 hs
    exact hgives (h.intern (keyIn d label) d.allSorts)
  | lookup key =>
    have hfound : r.lookup key = some s := Option.mem_toList.1 hs
    exact hgives (h.gives_known hfound)
  | canonicalize record =>
    cases hc : r.canonicalize record with
    | error e => simp [Registry.perform, hc, Answer.symbols] at hs
    | ok found =>
      obtain ⟨t, r'⟩ := found
      simp only [Registry.perform, hc, Answer.symbols, List.mem_singleton] at hs ⊢
      subst hs
      exact hgives (h.canonicalize hc)
  | canonicalizeAll records =>
    cases hc : (r.canonicalizeAll records).1 with
    | error e => simp [Registry.perform, hc, Answer.symbols] at hs
    | ok symbols =>
      simp only [Registry.perform, hc, Answer.symbols] at hs
      have hall := h.adopt_ok hc
      obtain ⟨record, hrecord, hfound⟩ := List.mem_map.1 (hall ▸ List.mem_map_of_mem hs)
      have hkey := (h.adopt (byOrdinal records)).1.key_of_lookup hfound
      rw [hkey]
      exact ⟨List.mem_map_of_mem (mem_byOrdinal.1 hrecord), hfound⟩

/-- A call that is not refused hands out a symbol for every key that is known before. -/
theorem Kept.mem_of_perform_ok {r : Registry} (h : r.Kept) {call : Call} {symbols : List Symbol}
    (hok : (r.perform call).1 = .ok symbols) {s : Symbol} (hs : r.lookup s.key = some s)
    (hkey : s.key ∈ call.keys) : s ∈ symbols := by
  have hgives : ∀ {t : Symbol} {r' : Registry}, r.Gives s.key t r' → s = t := fun hg =>
    Option.some.inj ((hg.grows _ _ hs).symm.trans hg.found)
  cases call with
  | intern key sorts =>
    cases List.mem_singleton.1 hkey
    cases hok
    exact List.mem_singleton.2 (hgives (h.intern s.key sorts))
  | internFrom d label =>
    have hg := h.intern (keyIn d label) d.allSorts
    rw [← List.mem_singleton.1 hkey] at hg
    cases hok
    rw [internFrom, ← List.mem_singleton.1 hkey]
    exact List.mem_singleton.2 (hgives hg)
  | lookup key =>
    cases List.mem_singleton.1 hkey
    cases hok
    exact Option.mem_toList.2 hs
  | canonicalize record =>
    cases hc : r.canonicalize record with
    | error e => simp [Registry.perform, hc] at hok
    | ok found =>
      obtain ⟨t, r'⟩ := found
      simp only [Registry.perform, hc, Except.ok.injEq] at hok
      subst hok
      have hg := h.canonicalize hc
      rw [← List.mem_singleton.1 hkey] at hg
      exact List.mem_singleton.2 (hgives hg)
  | canonicalizeAll records =>
    obtain ⟨record, hrecord, hkey⟩ := List.mem_map.1 hkey
    have hfound := (h.adopt (byOrdinal records)).2 _ _ hs
    have hmem : some s ∈ symbols.map (some ·) := by
      rw [h.adopt_ok hok]
      exact List.mem_map.2 ⟨record, mem_byOrdinal.2 hrecord, hkey ▸ hfound⟩
    simpa using hmem

/-! ## Whole histories -/

/-- A history keeps the books, and at its end every symbol it ever handed out is found. -/
theorem Kept.run {r : Registry} (h : r.Kept) (calls : List Call) :
    (r.run calls).2.Kept ∧ r.Grows (r.run calls).2 ∧
      ∀ s ∈ (r.run calls).1.flatMap Answer.symbols, (r.run calls).2.lookup s.key = some s := by
  induction calls generalizing r with
  | nil => exact ⟨h, .refl r, fun _ hs => nomatch hs⟩
  | cons call calls ih =>
    obtain ⟨hkept, hgrows⟩ := h.perform call
    obtain ⟨hkept', hgrows', hfound⟩ := ih hkept
    refine ⟨hkept', hgrows.trans hgrows', fun s hs => ?_⟩
    rcases List.mem_append.1 hs with hs | hs
    · exact hgrows' _ _ (h.found_of_perform hs).2
    · exact hfound s hs

/-- What is true of a registry after some calls with their answers. -/
structure Canonical (answers : List Answer) (r : Registry) : Prop where
  /-- The ordinals are the numbers below the size, each once. -/
  dense : (r.symbols.map (·.ordinal)).Perm (List.range r.size)
  /-- Every symbol lies in the bucket of its signatures and attributes, under its label. -/
  placed : ∀ e ∈ r.buckets, ∀ entry ∈ e.2.entries,
    ⟨entry.2.signatures, entry.2.attributes⟩ = e.1 ∧ entry.2.label = entry.1
  /-- Symbols that were handed out are the same instance exactly if their keys agree. -/
  instances : ∀ s ∈ answers.flatMap Answer.symbols, ∀ t ∈ answers.flatMap Answer.symbols,
    (s.ordinal = t.ordinal ↔ s.key = t.key) ∧ (s = t ↔ s.key = t.key)
  /-- A further call that is not refused hands out the known symbols of its keys. -/
  stable : ∀ call symbols, (r.perform call).1 = .ok symbols →
    ∀ s ∈ answers.flatMap Answer.symbols, s.key ∈ call.keys →
      s ∈ symbols ∧ ∀ t ∈ symbols, t.key = s.key → t = s
  lookup_unchanged : ∀ key, (r.perform (.lookup key)).2 = r
  refused_unchanged : ∀ record e, (r.perform (.canonicalize record)).1 = .error e →
    (r.perform (.canonicalize record)).2 = r

/-- After any calls, refused ones among them, a registry is canonical. -/
theorem canonical_run (calls : List Call) :
    Canonical ((∅ : Registry).run calls).1 ((∅ : Registry).run calls).2 := by
  obtain ⟨hkept, -, hfound⟩ := kept_empty.run calls
  generalize ((∅ : Registry).run calls).1 = answers at hfound
  generalize ((∅ : Registry).run calls).2 = r at hkept hfound
  refine ⟨hkept.dense, ?_, ?_, ?_, fun _ => rfl, ?_⟩
  · intro e he entry hentry
    exact hkept.placed _ _ (Buckets.lookup_of_mem hkept.distinct he) _ _
      (OrderedMap.get?_eq_some_iff.2 hentry)
  · intro s hs t ht
    have hsame : s.key = t.key → s = t := fun hkey =>
      Option.some.inj ((hfound s hs).symm.trans (hkey ▸ hfound t ht))
    have hordinal : s.ordinal = t.ordinal → s = t :=
      hkept.eq_of_ordinal (mem_symbols_of_lookup (hfound s hs))
        (mem_symbols_of_lookup (hfound t ht))
    exact ⟨⟨fun h => hordinal h ▸ rfl, fun h => hsame h ▸ rfl⟩, fun h => h ▸ rfl, hsame⟩
  · intro call symbols hok s hs hkey
    refine ⟨hkept.mem_of_perform_ok hok (hfound s hs) hkey, fun t ht htkey => ?_⟩
    -- the call finds its own symbols afterwards, and what was found before is found still
    have hthere : (r.perform call).2.lookup t.key = some t :=
      (hkept.found_of_perform (by rw [hok]; exact ht)).2
    have hbefore := (hkept.perform call).2 _ _ (hfound s hs)
    rw [htkey, hbefore] at hthere
    exact (Option.some.inj hthere).symm
  · intro record e he
    rw [perform] at he ⊢
    split at he
    · cases he
    · rfl

end RewriteSemantics.Registry
