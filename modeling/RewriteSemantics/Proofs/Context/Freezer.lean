/-
# The numbers of contexts

Resolving the contexts of a module walks its sentences with a number. Each sentence gives its own
sentences, and each context moves the number on, so the sentences in front of a context tell where
its heating and cooling rules come to stand, and which number they have.
-/
import RewriteSemantics.Context.Freezer
import RewriteSemantics.Proofs.Definition.Rewriting

namespace RewriteSemantics.Freezer

/-- What one sentence gives, where a context would have the given number. -/
def expand (index : Nat) : Sentence → Except PassError (List Sentence)
  | .context c => sentences c index
  | s => .ok [s]

/-- A context with one hole gives the production of its freezer and its two rules. -/
theorem expand_context_eq_ok {c : Context} {index : Nat} {first : List Sentence} :
    expand index (.context c) = .ok first ↔ holeCount c.body = 1 ∧
      first = [.production (production c index), .rule (heatRule c index),
        .rule (coolRule c index)] := by
  rw [expand, sentences]
  split
  · rename_i hhole
    rw [Except.ok.injEq, eq_comm]
    exact (and_iff_right hhole).symm
  · rename_i hhole
    simp [hhole]

/-- The number of contexts among some sentences. -/
def contextCount (ss : List Sentence) : Nat :=
  (ss.filterMap Sentence.asContext?).length

theorem contextCount_append (ss ss' : List Sentence) :
    contextCount (ss ++ ss') = contextCount ss + contextCount ss' := by
  rw [contextCount, List.filterMap_append, List.length_append]
  rfl

theorem resolveFrom_cons {index : Nat} {s : Sentence} {ss us : List Sentence} :
    resolveFrom index (s :: ss) = .ok us ↔ ∃ first others, expand index s = .ok first ∧
      resolveFrom (index + contextCount [s]) ss = .ok others ∧ us = first ++ others := by
  cases s with
  | context c =>
    rw [resolveFrom, Except.bind_eq_ok]
    constructor
    · rintro ⟨first, hfirst, h⟩
      obtain ⟨others, hothers, h⟩ := Except.bind_eq_ok.1 h
      cases h
      exact ⟨first, others, hfirst, hothers, rfl⟩
    · rintro ⟨first, others, hfirst, hothers, rfl⟩
      exact ⟨first, hfirst, Except.bind_eq_ok.2 ⟨others, hothers, rfl⟩⟩
  | _ =>
    show (do let others ← resolveFrom index ss; .ok (_ :: others)) = _ ↔ _
    rw [Except.bind_eq_ok]
    constructor
    · rintro ⟨others, hothers, h⟩
      cases h
      exact ⟨_, others, rfl, hothers, rfl⟩
    · rintro ⟨first, others, hfirst, hothers, rfl⟩
      cases hfirst
      exact ⟨others, hothers, rfl⟩

theorem resolveFrom_append {index : Nat} {ss ss' us : List Sentence} :
    resolveFrom index (ss ++ ss') = .ok us ↔ ∃ ts ts', resolveFrom index ss = .ok ts ∧
      resolveFrom (index + contextCount ss) ss' = .ok ts' ∧ us = ts ++ ts' := by
  induction ss generalizing index us with
  | nil =>
    constructor
    · intro h
      exact ⟨[], us, rfl, h, rfl⟩
    · rintro ⟨ts, ts', hts, hts', rfl⟩
      cases hts
      exact hts'
  | cons s ss ih =>
    have hcount : contextCount (s :: ss) = contextCount [s] + contextCount ss :=
      contextCount_append [s] ss
    rw [List.cons_append, resolveFrom_cons, hcount, ← Nat.add_assoc]
    constructor
    · rintro ⟨first, others, hfirst, hothers, rfl⟩
      obtain ⟨ts, ts', hts, hts', rfl⟩ := ih.1 hothers
      refine ⟨first ++ ts, ts', resolveFrom_cons.2 ⟨first, ts, hfirst, hts, rfl⟩, hts', ?_⟩
      rw [List.append_assoc]
    · rintro ⟨ts, ts', hts, hts', rfl⟩
      obtain ⟨first, others, hfirst, hothers, rfl⟩ := resolveFrom_cons.1 hts
      refine ⟨first, others ++ ts', hfirst, ih.2 ⟨others, ts', hothers, hts', rfl⟩, ?_⟩
      rw [List.append_assoc]

/-- A context stands for three sentences, and any other sentence for itself. -/
theorem length_expand {index : Nat} {s : Sentence} {first : List Sentence}
    (h : expand index s = .ok first) : first.length = 1 + 2 * contextCount [s] := by
  cases s with
  | context c =>
    obtain ⟨-, rfl⟩ := expand_context_eq_ok.1 h
    rfl
  | _ =>
    cases h
    rfl

theorem length_resolveFrom {index : Nat} {ss ts : List Sentence}
    (h : resolveFrom index ss = .ok ts) : ts.length = ss.length + 2 * contextCount ss := by
  induction ss generalizing index ts with
  | nil =>
    cases h
    rfl
  | cons s ss ih =>
    obtain ⟨first, others, hfirst, hothers, rfl⟩ := resolveFrom_cons.1 h
    have hcount : contextCount (s :: ss) = contextCount [s] + contextCount ss :=
      contextCount_append [s] ss
    rw [List.length_append, length_expand hfirst, ih hothers, List.length_cons, hcount]
    omega

/-- Sentences without contexts stay as they are. -/
theorem resolveFrom_of_noContext {index : Nat} {ss : List Sentence}
    (h : ∀ s ∈ ss, s.asContext? = none) : resolveFrom index ss = .ok ss := by
  induction ss with
  | nil => rfl
  | cons s ss ih =>
    have hs := h s List.mem_cons_self
    have hcount : contextCount [s] = 0 := by
      rw [contextCount, List.filterMap_cons, hs]
      rfl
    refine resolveFrom_cons.2 ⟨[s], ss, ?_, ?_, rfl⟩
    · cases s with
      | context c => cases hs
      | _ => rfl
    · rw [hcount]
      exact ih fun t ht => h t (List.mem_cons_of_mem _ ht)

/-- Resolving contexts is a rewriting. -/
theorem resolve_eq_ok {d e : Definition} :
    resolve d = .ok e ↔
      d.Rewrites (fun name ss ts => resolveFrom (firstIndex d name) ss = .ok ts) e := by
  refine Definition.mapModules_eq_ok fun m m' => ?_
  rw [Except.bind_eq_ok]
  constructor
  · rintro ⟨ts, hts, h⟩
    cases h
    exact ⟨ts, hts, rfl⟩
  · rintro ⟨ts, hts, rfl⟩
    exact ⟨ts, hts, rfl⟩

end RewriteSemantics.Freezer
