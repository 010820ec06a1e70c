/-
# What is demanded of sentences, pass by pass

Which sentences each pass makes of which, as far as demands on productions, rules and contexts are
concerned: what a definition satisfies before the pass, and what is known of the new sentences, give
what it satisfies afterwards. Nothing is demanded of configurations, so passes that change them only
keep all demands.
-/
import RewriteSemantics.Proofs.Definition.Sentences
import RewriteSemantics.Proofs.Pass.Growth

namespace RewriteSemantics

open Definition

variable {d e : Definition} {D E : String → Demand} {P : String → Rule → Prop}
  {C : String → Context → Prop}

/-! ## Productions and contexts -/

theorem Stream.satisfies (h : d.Satisfies D) (he : resolve d = .ok e)
    (hnew : ∀ n, ∀ p ∈ productions, (D n).production p) : e.Satisfies D := by
  obtain ⟨f, hf, he⟩ := Except.bind_eq_ok.1 he
  have hsame : f.Satisfies D := by
    refine h.mapSentences hf fun name s image hs himage t ht => ?_
    cases s with
    | configuration c =>
      obtain ⟨body, -, himage⟩ := Except.bind_eq_ok.1 himage
      cases himage
      rw [List.mem_singleton.1 ht]
      trivial
    | _ =>
      cases himage
      rw [List.mem_singleton.1 ht]
      exact hs
  split at he
  · cases he
    exact hsame
  · refine hsame.appendToMain he fun s hs => ?_
    obtain ⟨p, hp, rfl⟩ := List.mem_map.1 hs
    exact hnew _ p (List.mem_filter.1 hp).1

/-- Strict productions bring contexts in. The productions stay, so what the result is known to
satisfy is known of them. -/
theorem Strict.satisfies (h : d.Satisfies D) (hE : e.Satisfies E)
    (he : d.mapSentences resolveSentence = .ok e) (hkept : ∀ n c, (D n).context c → C n c)
    (hnew : ∀ n p label strictness, (E n).production p →
      ofProduction p = .ok (some (label, strictness)) →
      ∀ c ∈ contexts label p.arity strictness, C n c) :
    e.Satisfies fun n => ⟨(D n).production, (D n).rule, C n⟩ := by
  refine h.rewrites_of hE (mapSentences_eq_ok.1 he) fun name ss ts hss hts himages t ht => ?_
  obtain ⟨s, hs, image, himage, ht⟩ := himages.exists_of_mem ht
  have hdemand := hss s hs
  cases s with
  | production p =>
    obtain ⟨found, hfound, himage⟩ := Except.bind_eq_ok.1 himage
    cases found with
    | none =>
      cases himage
      rw [List.mem_singleton.1 ht]
      exact hdemand
    | some strictness =>
      cases himage
      rcases List.mem_cons.1 ht with rfl | ht
      · exact hdemand
      · obtain ⟨c, hc, rfl⟩ := List.mem_map.1 ht
        obtain ⟨image, himage, hsub⟩ := himages.mem_of_mem hs
        obtain ⟨_, hfound', himage⟩ := Except.bind_eq_ok.1 himage
        cases hfound.symm.trans hfound'
        cases himage
        exact hnew name p _ _ (hts _ (hsub _ List.mem_cons_self)) hfound c hc
  | context c =>
    cases himage
    rw [List.mem_singleton.1 ht]
    exact hkept name c hdemand
  | _ =>
    cases himage
    rw [List.mem_singleton.1 ht]
    exact hdemand

/-- The production of a freezer and the two rules of a context come in for the context. -/
theorem Freezer.satisfies (h : d.Satisfies D) (hE : e.Satisfies E) (he : resolve d = .ok e)
    (hnew : ∀ n c i, (D n).context c → holeCount c.body = 1 → (E n).production (production c i) →
      (D n).production (production c i) ∧ (D n).rule (heatRule c i) ∧ (D n).rule (coolRule c i)) :
    e.Satisfies fun n => ⟨(D n).production, (D n).rule, fun _ => False⟩ := by
  refine h.rewrites_of hE (resolve_eq_ok.1 he) fun name ss ts hss hts hresolve => ?_
  -- The numbers matter for the labels of the freezers only.
  generalize firstIndex d name = index at hresolve
  induction ss generalizing index ts with
  | nil =>
    cases hresolve
    exact fun _ ht => (nomatch ht)
  | cons s ss ih =>
    obtain ⟨first, others, hfirst, hothers, rfl⟩ := resolveFrom_cons.1 hresolve
    obtain ⟨hs, hss⟩ := List.forall_mem_cons.1 hss
    obtain ⟨hfirst', hothers'⟩ := List.forall_mem_append.1 hts
    refine List.forall_mem_append.2 ⟨?_, ih _ hss hothers' _ hothers⟩
    cases s with
    | context c =>
      obtain ⟨hhole, rfl⟩ := expand_context_eq_ok.1 hfirst
      obtain ⟨hproduction, hheat, hcool⟩ :=
        hnew name c index hs hhole (hfirst' _ List.mem_cons_self)
      exact List.forall_mem_cons.2 ⟨hproduction, List.forall_mem_cons.2 ⟨hheat,
        List.forall_mem_singleton.2 hcool⟩⟩
    | _ =>
      cases hfirst
      exact List.forall_mem_singleton.2 hs

theorem SortPredicates.satisfies (h : d.Satisfies D) (he : generate d = .ok e)
    (hnew : ∀ n sort, (D n).production (production sort)) : e.Satisfies D := by
  refine h.rewrites (generate_eq_ok.1 he) ?_
  rintro name ss _ hss rfl
  refine List.forall_mem_append.2 ⟨hss, fun s hs => ?_⟩
  obtain ⟨sort, -, rfl⟩ := List.mem_map.1 hs
  exact hnew name sort

/-! ## Rules -/

theorem Counter.satisfies_extendFirst {D : Demand} {ss : List Sentence}
    (hss : ∀ s ∈ ss, s.Satisfies D) : ∀ s ∈ extendFirst ss, s.Satisfies D := by
  induction ss with
  | nil => exact hss
  | cons s ss ih =>
    obtain ⟨hs, hrest⟩ := List.forall_mem_cons.1 hss
    cases s with
    | configuration c => exact List.forall_mem_cons.2 ⟨trivial, hrest⟩
    | _ => exact List.forall_mem_cons.2 ⟨hs, ih hrest⟩

theorem Counter.satisfies {cell : String} (h : d.Satisfies D) (he : declare cell d = .ok e) :
    e.Satisfies D := by
  unfold declare at he
  split at he
  · rename_i m hm
    have hmodule := module?_of_mem_closure (List.mem_of_find?_eq_some hm)
    refine h.rewrites ((withModule_eq_ok hmodule).1 (Except.mapError_eq_ok.1 he)) ?_
    rintro name ss _ hss rfl
    split
    · exact satisfies_extendFirst hss
    · exact hss
  · exact h.appendToMain he (List.forall_mem_singleton.2 trivial)

theorem FreshConstants.satisfies {cell : String} (h : d.Satisfies D) (he : resolve cell d = .ok e)
    (hrule : ∀ n r r', (D n).rule r → resolveRule d r = .ok r' → P n r') :
    e.Satisfies fun n => ⟨(D n).production, P n, (D n).context⟩ := by
  obtain ⟨f, hf, he⟩ := Except.bind_eq_ok.1 he
  have hresolved := h.mapRules hf hrule
  split at he
  · cases he
    exact hresolved
  · exact Counter.satisfies hresolved he

theorem ComputationCell.satisfies {cell : String} (h : d.Satisfies D) (he : add cell d = .ok e)
    (hrule : ∀ n r, (D n).rule r → P n (addToRule cell d r)) :
    e.Satisfies fun n => ⟨(D n).production, P n, (D n).context⟩ := by
  obtain ⟨f, hf, he⟩ := Except.bind_eq_ok.1 he
  have hwrapped : f.Satisfies fun n => ⟨(D n).production, P n, (D n).context⟩ := by
    refine h.mapRules hf fun n r r' hr hr' => ?_
    cases hr'
    exact hrule n r hr
  split at he
  · exact hwrapped.appendToMain he (List.forall_mem_singleton.2 trivial)
  · cases he
    exact hwrapped

theorem StrategyCell.satisfies {enabled : Bool} (h : d.Satisfies D) (he : add enabled d = .ok e)
    (hrule : ∀ tree, enabled = true → CellTree.ofModule d d.main = .ok tree →
      tree.contains cellName = true → ∀ n r, (D n).rule r → (D n).rule (addToRule d r)) :
    e.Satisfies D := by
  unfold add at he
  split at he
  · rename_i henabled
    obtain ⟨tree, htree, he⟩ := Except.bind_eq_ok.1 he
    split at he
    · rename_i hcell
      refine h.mapRules he fun n r r' hr hr' => ?_
      cases hr'
      exact hrule tree henabled (Except.mapError_eq_ok.1 htree) hcell n r hr
    · cases he
      exact h
  · cases he
    exact h

theorem Concretization.satisfies (h : d.Satisfies D) (he : resolve d = .ok e)
    (hrule : ∀ tree, CellTree.ofModule d d.main = .ok tree →
      ∀ n r r', (D n).rule r → resolveRule tree d r = .ok r' → P n r') :
    e.Satisfies fun n => ⟨(D n).production, P n, (D n).context⟩ := by
  obtain ⟨tree, htree, he⟩ := Except.bind_eq_ok.1 he
  exact h.mapRules he (hrule tree (Except.mapError_eq_ok.1 htree))

end RewriteSemantics
