/-
# Cooling undoes heating

The two rules of a context are made of the same two terms, the body of the context and the hole in
front of the freezer: heating rewrites the first to the second, and cooling the second to the first.
They go through the passes apart from each other. Each keeps its demand on the hole. They stay each
other's reversal as long as nothing makes one of them special: the body rewrites nothing itself,
makes up no value and belongs to no function, no cast of the side condition sorts a variable of the
body, and no new variable of the cooling rule is taken in the side condition.
-/
import Mathlib
import RewriteSemantics.Proofs.Concretization.Reversal
import RewriteSemantics.Proofs.Pass.Standing
import RewriteSemantics.Proofs.Rule.SideCondition

namespace RewriteSemantics

namespace Freezer

open SemanticCasts

variable {c : Context} {i : Nat}

/-- The label of a freezer is no cast. -/
theorem castSort?_label : Label.castSort? (label c i) = none := by
  rw [Label.castSort?, Label.behind?, label, String.toList_append, String.toList_append]
  rfl

theorem hole_mem_variableNames (hhole : holeCount c.body = 1) :
    Variable.hole ∈ c.body.variableNames := by
  have hpos : 0 < c.body.occurrences.countP (·.name = Variable.hole) := by
    show 0 < holeCount c.body
    omega
  obtain ⟨v, hv, hname⟩ := List.countP_pos_iff.1 hpos
  exact Term.mem_variableNames.2 ⟨v, hv, of_decide_eq_true hname⟩

theorem mem_frozenVariables {x : String} :
    x ∈ frozenVariables c ↔ x ∈ c.body.variableNames ∧ x ≠ Variable.hole := by
  rw [frozenVariables, List.mem_filter, decide_eq_true_iff]
  rfl

/-- The hole and its freezer have the variables of the context. -/
theorem mem_variableNames_heated (hhole : holeCount c.body = 1) {x : String} :
    x ∈ (heated c i).variableNames ↔ x ∈ c.body.variableNames := by
  have hfrozen : x ∈ (frozen c i).variableNames ↔ x ∈ frozenVariables c := by
    simp [frozen, Term.ofName]
  have hseq : x ∈ (heated c i).variableNames ↔ Variable.hole = x ∨ x ∈ frozenVariables c := by
    rw [heated, Term.mem_variableNames_seq, List.exists_mem_cons_iff, Term.ofName,
      Term.mem_variableNames_var, ← hfrozen]
    simp
  rw [hseq, mem_frozenVariables]
  constructor
  · rintro (rfl | ⟨hx, -⟩)
    · exact hole_mem_variableNames hhole
    · exact hx
  · intro hx
    by_cases hname : x = Variable.hole
    · exact .inl hname.symm
    · exact .inr ⟨hx, hname⟩

/-- Nothing is cast there. -/
theorem get?_castsOf_heated (x : String) : (castsOf [heated c i]).get? x = none := by
  rw [get?_castsOf_children rfl]
  refine get?_castsOf_eq_none fun t ht => ?_
  rcases List.mem_cons.1 ht with rfl | ht
  · rfl
  · rw [List.mem_singleton.1 ht, frozen,
      get?_castsOf_children (castHere?_of_castSort? castSort?_label _)]
    refine get?_castsOf_eq_none fun t ht => ?_
    obtain ⟨y, -, rfl⟩ := List.mem_map.1 ht
    rfl

/-- Nothing is rewritten there. -/
theorem lhs_strip_heated (casts : Casts) :
    (strip casts (heated c i)).lhs = (strip casts (heated c i)).rhs := by
  have hvar : ∀ name, (strip casts (.ofName name)).lhs = (strip casts (.ofName name)).rhs := by
    intro name
    rw [Term.ofName, strip_var]
    rfl
  have hfrozen : (strip casts (frozen c i)).lhs = (strip casts (frozen c i)).rhs := by
    rw [frozen, strip_app_of_castSort? castSort?_label, Term.lhs, Term.rhs, Term.lhsAll_eq_map,
      Term.rhsAll_eq_map]
    refine congrArg _ (List.map_congr_left fun u hu => ?_)
    obtain ⟨t, ht, rfl⟩ := List.mem_map.1 hu
    obtain ⟨name, -, rfl⟩ := List.mem_map.1 ht
    exact hvar name
  rw [heated, strip_seq]
  show Term.seq [_, _] = .seq [_, _]
  rw [hvar, hfrozen]

/-! ## The two rules -/

theorem isHeat_heatRule : (heatRule c i).isHeat = true := by
  simp [Rule.isHeat, heatRule, OrderedMap.contains, Attributes.withMarker]

theorem isCool_coolRule : (coolRule c i).isCool = true := by
  simp [Rule.isCool, coolRule, OrderedMap.contains, Attributes.withMarker]

theorem isHeat_coolRule : (coolRule c i).isHeat = c.attributes.contains Attributes.heat := by
  have hne : Attributes.heat ≠ Attributes.cool := by decide
  simp [Rule.isHeat, coolRule, OrderedMap.contains, Attributes.withMarker, hne]

theorem mem_variableNames_heatRule (hhole : holeCount c.body = 1) {x : String}
    (hx : x ∈ (heatRule c i).variableNames) :
    x ∈ c.body.variableNames ∨ ∃ t ∈ c.requires, x ∈ t.variableNames := by
  obtain ⟨t, ht, hx⟩ := Rule.mem_variableNames.1 hx
  rcases List.mem_cons.1 ht with rfl | ht
  · rcases Term.mem_variableNames_rewrite.1 hx with hx | hx
    · exact .inl hx
    · exact .inl ((mem_variableNames_heated hhole).1 hx)
  · rw [heatRule, Option.toList_none, List.append_nil] at ht
    exact .inr ⟨t, Option.mem_toList.1 ht, hx⟩

theorem mem_variableNames_coolRule (hhole : holeCount c.body = 1) {x : String}
    (hx : x ∈ (coolRule c i).variableNames) : x ∈ c.body.variableNames := by
  obtain ⟨t, ht, hx⟩ := Rule.mem_variableNames.1 hx
  rcases List.mem_cons.1 ht with rfl | ht
  · rcases Term.mem_variableNames_rewrite.1 hx with hx | hx
    · exact (mem_variableNames_heated hhole).1 hx
    · exact hx
  · nomatch ht

/-- The heating rule has the casts of its context. -/
theorem body_heatRule {skip : Bool} {r : Rule} (h : HeatCool.resolveRule (heatRule c i) = .ok r) :
    (SemanticCasts.resolveRule skip r).body =
      .rewrite (strip (castsOf c.terms) c.body) (strip (castsOf c.terms) (heated c i)) := by
  have hcondition := HeatCool.condition?_of_heat (isHeat_heatRule (c := c) (i := i))
  obtain ⟨-, rfl⟩ := (HeatCool.resolveRule_eq_ok hcondition).1 h
  have hcasts : ∀ x, (castsOf [.rewrite c.body (heated c i),
      .andBool c.requires (HeatCool.isNoResult none)]).get? x = (castsOf c.terms).get? x := by
    intro x
    rw [get?_castsOf_cons, get?_castsOf_rewrite, get?_castsOf_heated, Option.or_none,
      get?_castsOf_andBool (get?_castsOf_condition hcondition x)]
    exact (get?_castsOf_cons c.body c.requires.toList x).symm
  exact congrArg₂ Term.rewrite (strip_congr fun x _ => hcasts x) (strip_congr fun x _ => hcasts x)

/-- The cooling rule has the casts of the body of its context only. -/
theorem body_coolRule {skip : Bool} {r : Rule} (h : HeatCool.resolveRule (coolRule c i) = .ok r) :
    (SemanticCasts.resolveRule skip r).body =
      .rewrite (strip (castsOf [c.body]) (heated c i)) (strip (castsOf [c.body]) c.body) := by
  obtain ⟨condition, hcondition⟩ := HeatCool.exists_condition? (r := coolRule c i)
    (.inr isCool_coolRule)
  obtain ⟨-, rfl⟩ := (HeatCool.resolveRule_eq_ok hcondition).1 h
  have hcasts : ∀ x, (castsOf [.rewrite (heated c i) c.body,
      .andBool none condition]).get? x = (castsOf [c.body]).get? x := by
    intro x
    rw [get?_castsOf_cons, get?_castsOf_rewrite, get?_castsOf_heated,
      get?_castsOf_andBool (get?_castsOf_condition hcondition x)]
    exact Option.or_none
  exact congrArg₂ Term.rewrite (strip_congr fun x _ => hcasts x) (strip_congr fun x _ => hcasts x)

end Freezer

/-! ## Through the passes -/

section

variable {o : Options} {d e : Definition} {tree : CellTree} {r r' : Rule}

/-- A demand on the hole is kept up to the sort of the hole. -/
theorem Rule.CompilesTo.demands {t : Option SortName → Term} (hr : r.CompilesTo o d e tree r')
    (hdemands : ∀ r₁, HeatCool.resolveRule r = .ok r₁ → r₁.Demands (t none))
    (hstrip : ∀ casts sort, SemanticCasts.strip casts (t sort) =
      t ((casts.get? Variable.hole).or sort))
    (hreplace : ∀ values, Variable.hole ∉ values.map (·.1) →
      ∀ sort, FreshConstants.replace values (t sort) = t sort)
    (htrue : ∀ sort, (t sort).isTrue = false) : ∃ sort, r'.Demands (t sort) := by
  obtain ⟨r₁, r₂, hr₁, hr₂, hr'⟩ := hr
  have hcast : (SemanticCasts.resolveRule o.skipSortPredicates r₁).Demands _ :=
    SemanticCasts.demands_resolveRule (hdemands r₁ hr₁) (by rw [hstrip]; exact htrue _)
  rw [hstrip] at hcast
  obtain ⟨condition, hrequires, hconjunct⟩ :=
    FreshConstants.demands_resolveRule hr₂ hcast fun values hvalues => hreplace values hvalues _
  refine ⟨_, condition, ?_, hconjunct⟩
  -- The cells are put around the body only.
  rw [Concretization.requires_resolveRule hr', ComputationCell.requires_addToRule, hrequires]

theorem isFunctionRule_of_rewrite {a b : Term} (hbody : r.body = .rewrite a b) :
    e.isFunctionRule r = e.isFunctionRule (.ofBody a) := by
  rw [Definition.isFunctionRule, hbody]
  rfl

/-- A rewrite whose cells can be placed has none yet, so it belongs into the computation cell. -/
theorem ComputationCell.addToRule_of_rewrite {cell : String} {a b : Term}
    (hbody : r.body = .rewrite a b) (hfunction : e.isFunctionRule r = false)
    (h : Concretization.resolveRule tree e (addToRule cell e r) = .ok r') :
    addToRule cell e r = { r with body := .openCell cell (.rewrite a b) } := by
  have hadd : addToRule cell e r = { r with body := wrap cell r.body } := by
    rw [addToRule, hfunction]
    rfl
  rw [hadd, hbody] at h ⊢
  unfold wrap at h ⊢
  split at h
  · have hplain : e.isFunctionRule { r with body := .rewrite a b } = false := by
      rw [isFunctionRule_of_rewrite rfl, ← isFunctionRule_of_rewrite hbody, hfunction]
    change Concretization.resolveRule tree e { r with body := .rewrite a b } = _ at h
    rw [Concretization.resolveRule, hplain] at h
    cases h
  · rename_i hcells
    rw [if_neg hcells]

/-- What is placed of a rule that is a rewrite once its casts are removed, has no promise, makes up
no value and belongs to no function. -/
theorem Rule.CompilesTo.exists_placed {a b : Term} (hr : r.CompilesTo o d e tree r')
    (hensures : r.ensures = none)
    (hbody : ∀ r₁, HeatCool.resolveRule r = .ok r₁ →
      (SemanticCasts.resolveRule o.skipSortPredicates r₁).body = .rewrite a b)
    (hunmarked : ∀ x ∈ (Term.rewrite a b).variableNames, Variable.isFreshName x = false)
    (hfunction : e.isFunctionRule (.ofBody a) = false) :
    ∃ q : Rule, q.body = .openCell o.computationCell (.rewrite a b) ∧
      (∀ x ∈ q.variableNames, x ∈ r.variableNames) ∧
      Concretization.resolveRule tree e q = .ok r' := by
  obtain ⟨r₁, r₂, hr₁, hr₂, hr'⟩ := hr
  have hbody₁ := hbody r₁ hr₁
  have hensures₁ : (SemanticCasts.resolveRule o.skipSortPredicates r₁).ensures = none := by
    show r₁.ensures.map _ = none
    rw [HeatCool.ensures_of_resolveRule hr₁, hensures]
    rfl
  have hfresh : FreshConstants.freshVariables
      (SemanticCasts.resolveRule o.skipSortPredicates r₁) = ∅ := by
    refine FreshConstants.freshVariables_eq_empty ?_ ?_
    · rw [hbody₁]
      exact hunmarked
    · rw [hensures₁]
      exact fun t ht => nomatch ht
  -- So the pass over made-up values leaves the rule as it is.
  have hkept : FreshConstants.resolveRule d (SemanticCasts.resolveRule o.skipSortPredicates r₁) =
      .ok (SemanticCasts.resolveRule o.skipSortPredicates r₁) := by
    refine FreshConstants.resolveRule_of_noFresh ?_
    rw [hfresh]
    rfl
  cases hkept.symm.trans hr₂
  have hadd := ComputationCell.addToRule_of_rewrite hbody₁
    ((isFunctionRule_of_rewrite hbody₁).trans hfunction) hr'
  rw [hadd] at hr'
  refine ⟨_, rfl, fun x hx => ?_, hr'⟩
  have hx₁ : x ∈ (SemanticCasts.resolveRule o.skipSortPredicates r₁).variableNames := by
    obtain ⟨t, ht, hx⟩ := Rule.mem_variableNames.1 hx
    refine Rule.mem_variableNames.2 ?_
    rcases List.mem_cons.1 ht with rfl | ht
    · refine ⟨_, List.mem_cons_self, ?_⟩
      rw [hbody₁]
      exact Term.mem_variableNames_cell.1 hx
    · exact ⟨t, List.mem_cons_of_mem _ ht, hx⟩
  exact HeatCool.mem_variableNames_of_resolveRule hr₁
    (SemanticCasts.mem_variableNames_of_resolveRule hx₁)

end

/-! ## Reversal -/

/-- Each of two rules is what the other one is with its sides exchanged. -/
def Rule.Reverses (h k : Rule) : Prop :=
  h.body.lhs = k.body.rhs ∧ h.body.rhs = k.body.lhs

instance (h k : Rule) : Decidable (h.Reverses k) :=
  inferInstanceAs (Decidable (_ ∧ _))

namespace Freezer

open SemanticCasts

variable {c : Context} {i : Nat} {o : Options} {d e : Definition} {tree : CellTree} {h k : Rule}

/-- The body of a context as the cooling rule has it, without casts. -/
def bare (c : Context) : Term :=
  strip (castsOf [c.body]) c.body

/-- What it takes for a compiled cooling rule to undo the heating rule of the same context. -/
structure Reversible (e : Definition) (c : Context) (k : Rule) : Prop where
  /-- The body of the context does not rewrite anything itself. -/
  sides : (bare c).lhs = (bare c).rhs
  /-- The body makes up no values. -/
  unmarked : ∀ x ∈ c.body.variableNames, Variable.isFreshName x = false
  /-- The body is not headed by a function. -/
  noFunction : e.isFunctionRule (.ofBody (bare c)) = false
  /-- The side condition casts no variable of the body that is not cast in the body. -/
  casts : ∀ x ∈ c.body.variableNames, (castsOf c.terms).get? x = (castsOf [c.body]).get? x
  /-- The cooling rule shares variables with the side condition only if the body has them. -/
  apart : ∀ t ∈ c.requires, ∀ x ∈ t.variableNames, x ∈ k.body.variableNames →
    x ∈ c.body.variableNames

theorem exists_demand_heatRule (hh : (heatRule c i).CompilesTo o d e tree h) :
    ∃ sort, h.Demands (HeatCool.isNoResult sort) :=
  hh.demands (fun _ hr => HeatCool.demands_of_heat hr isHeat_heatRule)
    (fun _ => strip_isNoResult) (fun _ => FreshConstants.replace_isNoResult) fun _ => rfl

theorem exists_demand_coolRule (hheat : c.attributes.contains Attributes.heat = false)
    (hk : (coolRule c i).CompilesTo o d e tree k) :
    ∃ sort, k.Demands (HeatCool.isResult sort) :=
  hk.demands
    (fun _ hr => HeatCool.demands_of_cool hr (isHeat_coolRule.trans hheat) isCool_coolRule)
    (fun _ => strip_isResult) (fun _ => FreshConstants.replace_isResult) fun _ => rfl

/-- The compiled rules of a context are each other's reversal. -/
theorem reversed_of_compilesTo {configuration : Term}
    (htree : CellTree.ofTerm configuration = .ok tree) (hhole : holeCount c.body = 1)
    (hh : (heatRule c i).CompilesTo o d e tree h) (hk : (coolRule c i).CompilesTo o d e tree k)
    (hrev : Reversible e c k) : h.Reverses k := by
  have hbare : strip (castsOf c.terms) c.body = bare c := strip_congr hrev.casts
  have hheated : strip (castsOf c.terms) (heated c i) = strip (castsOf [c.body]) (heated c i) :=
    strip_congr fun x hx => hrev.casts x ((mem_variableNames_heated hhole).1 hx)
  -- Both rules rewrite the same two terms, which have the variables of the body.
  have hunmarked : ∀ x, x ∈ (bare c).variableNames ∨
      x ∈ (strip (castsOf [c.body]) (heated c i)).variableNames →
      Variable.isFreshName x = false := by
    intro x hx
    rw [bare, mem_variableNames_strip, mem_variableNames_strip, mem_variableNames_heated hhole,
      or_self] at hx
    exact hrev.unmarked x hx
  -- What is placed is this rewrite in the computation cell, either way round.
  obtain ⟨q, hq, hqnames, hqh⟩ := hh.exists_placed (a := bare c)
    (b := strip (castsOf [c.body]) (heated c i)) rfl
    (fun r hr => by rw [body_heatRule hr, hbare, hheated])
    (fun x hx => hunmarked x (Term.mem_variableNames_rewrite.1 hx)) hrev.noFunction
  obtain ⟨w, hw, hwnames, hwk⟩ := hk.exists_placed
    (a := strip (castsOf [c.body]) (heated c i)) (b := bare c) rfl (fun r hr => body_coolRule hr)
    (fun x hx => hunmarked x (Term.mem_variableNames_rewrite.1 hx).symm)
    (by rw [heated, strip_seq]; rfl)
  -- Names that only the side condition has are in the heating rule alone.
  have hbody : ∀ {r : Rule} {t : Term}, r.body = .openCell o.computationCell t →
      (∀ x ∈ (bare c).variableNames, x ∈ t.variableNames) →
      ∀ x ∈ c.body.variableNames, x ∈ r.variableNames := by
    intro r t hr ht x hx
    refine Rule.mem_variableNames.2 ⟨r.body, List.mem_cons_self, ?_⟩
    rw [hr, Term.openCell, Term.mem_variableNames_cell]
    exact ht x (mem_variableNames_strip.2 hx)
  refine Concretization.resolveRule_reversed htree hq hw hrev.sides (lhs_strip_heated _) hqh hwk
    (fun x hx => ?_) fun x hxk hx => ?_
  · refine hbody hq (fun y hy => Term.mem_variableNames_rewrite.2 (.inl hy)) x ?_
    exact mem_variableNames_coolRule hhole (hwnames x hx)
  · refine hbody hw (fun y hy => Term.mem_variableNames_rewrite.2 (.inr hy)) x ?_
    rcases mem_variableNames_heatRule hhole (hqnames x hx) with hx | ⟨t, ht, hx⟩
    · exact hx
    · exact hrev.apart t ht x hx hxk

end Freezer

/-- Take a context that is there once strict productions are resolved. If the passes succeed up to
the one that places cells, its two rules stand behind the production of its freezer. The heating
rule demands that the term at the hole is no result, and the cooling rule that it is one, unless the
context itself is marked as heating. If the context is reversible, each rule is the other way round
what the other one is. -/
theorem Pass.reversed_of_context {o : Options} (ho : o.heatCoolStrategies = false)
    {d d₂ e : Definition} (h₂ : (Pipeline.run ((standard o).take 2) d).result = .ok d₂)
    (he : (Pipeline.run ((standard o).take 11) d).result = .ok e) {name : String} {m : Module}
    (hm : d₂.module? name = some m) {c : Context} {front back : List Sentence}
    (hc : m.sentences = front ++ .context c :: back) :
    ∃ i h k, e.StandsAt name (front.length + 2 * Freezer.contextCount front)
        [.production (Freezer.production (AnonymousVariables.resolveContext c) i),
          .rule h, .rule k] ∧
      (∃ sort, h.Demands (HeatCool.isNoResult sort)) ∧
      (c.attributes.contains Attributes.heat = false →
        ∃ sort, k.Demands (HeatCool.isResult sort)) ∧
      (Freezer.Reversible e (AnonymousVariables.resolveContext c) k → h.Reverses k) := by
  have hsplit : (standard o).take 11 =
      (standard o).take 2 ++ (resolveAnonymous :: resolveContexts :: finishing o) := rfl
  rw [hsplit, Pipeline.run_append] at he
  obtain ⟨d₂', h₂', he⟩ := he
  cases h₂.symm.trans h₂'
  obtain ⟨d₃, h₃, he⟩ := Pipeline.run_cons.1 he
  obtain ⟨d₄, h₄, he⟩ := Pipeline.run_cons.1 he
  -- The context is followed to the pass that resolves it, and its rules from there on.
  obtain ⟨m₃, front₃, back₃, hm₃, hc₃, hlength, hcount⟩ :=
    Definition.exists_context_of_mapRulesAndContexts hm hc h₃
  obtain ⟨i, hhole, hss⟩ := Definition.standsAt_of_context hm₃ hc₃ h₄
  rw [hlength, hcount] at hss
  obtain ⟨f, tree, configuration, h, k, htree, hh, hk, hss⟩ := exists_compilesTo ho hss he
  exact ⟨i, h, k, hss, Freezer.exists_demand_heatRule hh,
    fun hheat => Freezer.exists_demand_coolRule (c := AnonymousVariables.resolveContext c) hheat hk,
    Freezer.reversed_of_compilesTo htree hhole hh hk⟩

/-- What is told of a module in a result is told of a module that is there. -/
theorem Definition.exists_module_of_toOption {ε α : Type} {x : Except ε Definition} {name : String}
    {f : Module → α} {a : α} (h : (x.toOption.bind fun e => (e.module? name).map f) = some a) :
    ∃ e m, x = .ok e ∧ e.module? name = some m ∧ f m = a := by
  obtain ⟨e, he, hmodule⟩ := Option.bind_eq_some_iff.1 h
  obtain ⟨m, hm, hf⟩ := Option.map_eq_some_iff.1 hmodule
  exact ⟨e, m, Except.toOption_eq_some.1 he, hm, hf⟩

/-! ### A strict sum -/

/-- The production of a sum that is strict in its first argument. -/
def sumProduction : Production :=
  ⟨.int, some "plus", [.int, .int], (∅ : Attributes).insert Attributes.strict (.positions [1])⟩

def sumModule : Module :=
  ⟨"M", [], [.production sumProduction], ∅⟩

def sumDefinition : Definition :=
  ⟨"M", .insert ∅ sumModule.name sumModule, ∅, ModuleMap.named_empty.insert sumModule, by cbv⟩

/-- The context `plus(HOLE, _)`. -/
def sumContext : Context :=
  Strict.contextAt "plus" 2 1 []

theorem Pass.reversed_of_sumContext : ∃ e i h k,
    (Pipeline.run ((standard .default).take 11) sumDefinition).result = .ok e ∧
      e.StandsAt "M" 1
        [.production (Freezer.production (AnonymousVariables.resolveContext sumContext) i),
          .rule h, .rule k] ∧
      (∃ sort, h.Demands (HeatCool.isNoResult sort)) ∧
      (∃ sort, k.Demands (HeatCool.isResult sort)) ∧ h.Reverses k := by
  have hstrict : ((Pipeline.run ((standard .default).take 2) sumDefinition).result.toOption.bind
      fun d => (d.module? "M").map (·.sentences)) =
        some [.production sumProduction, .context sumContext] := by cbv
  have hfunction : ((Pipeline.run ((standard .default).take 11) sumDefinition).result.toOption.map
      fun e => e.isFunctionRule
        (.ofBody (Freezer.bare (AnonymousVariables.resolveContext sumContext)))) = some false := by
    cbv
  obtain ⟨d₂, m, h₂, hm, hsentences⟩ := Definition.exists_module_of_toOption hstrict
  obtain ⟨e, he, hfunction⟩ := Option.map_eq_some_iff.1 hfunction
  have hfront : m.sentences = [.production sumProduction] ++ .context sumContext :: [] := hsentences
  obtain ⟨i, h, k, hss, hheat, hcool, hreverses⟩ := reversed_of_context (o := .default) rfl
    h₂ (Except.toOption_eq_some.1 he) hm hfront
  refine ⟨e, i, h, k, Except.toOption_eq_some.1 he, hss, hheat, hcool rfl, hreverses ?_⟩
  have hnamed : AnonymousVariables.resolveContext sumContext =
      ⟨.app "plus" [.ofName Variable.hole, .ofName "_Gen0"], none, ∅⟩ := by cbv
  rw [hnamed] at hfunction ⊢
  exact ⟨by decide, by decide, hfunction, fun _ _ => rfl,
    fun _ ht => absurd ht (Option.not_mem_none _)⟩

/-! ### Contexts that are not reversible -/

/-- A context `foo(HOLE, t)`. -/
def fooContext (t : Term) (requires : Option Term) (attributes : Attributes) : Context :=
  ⟨.app "foo" [.ofName Variable.hole, t], requires, attributes⟩

/-- Contexts that are special in one way each: the body rewrites something, it is headed by a
function, only the side condition casts a variable of it, the side condition takes the name of a new
variable, and the context is marked as heating. -/
def specialContexts : List Context :=
  [fooContext (.rewrite (.ofName "X") (.ofName "Y")) none ∅,
   ⟨.app "plus" [.ofName Variable.hole, .ofName "X"], none, ∅⟩,
   fooContext (.ofName "X") (some (.app "isInt" [.app (Label.cast .int) [.ofName "X"]])) ∅,
   fooContext (.ofName "X") (some (.app "isInt" [.ofName "DotVar0"])) ∅,
   fooContext (.ofName "X") none ((∅ : Attributes).withMarker Attributes.heat)]

def specialModule : Module :=
  ⟨"M", [], .production ⟨.int, some "plus", [.int, .int], (∅ : Attributes).withMarker
    Attributes.function⟩ :: specialContexts.map .context, ∅⟩

def specialDefinition : Definition :=
  ⟨"M", .insert ∅ specialModule.name specialModule, ∅,
    ModuleMap.named_empty.insert specialModule, by cbv⟩

/-- The production of a function that makes up integers. -/
def generatorProduction : Production :=
  ⟨.int, some "freshInt", [.int], (∅ : Attributes).withMarker Attributes.freshGenerator⟩

/-- The context `foo(HOLE, !X)`, whose body makes up a value. -/
def valueContext : Context :=
  fooContext (.ofName "!X") none ∅

def valueModule : Module :=
  ⟨"M", [], [.production generatorProduction, .context valueContext], ∅⟩

def valueDefinition : Definition :=
  ⟨"M", .insert ∅ valueModule.name valueModule, ∅,
    ModuleMap.named_empty.insert valueModule, by cbv⟩

/-- Rules in pairs, as those of contexts are. -/
def Rule.pairs : List Rule → List (Rule × Rule)
  | h :: k :: rules => (h, k) :: pairs rules
  | _ => []

/-- The variable for the counter in the rules of the context that makes up a value. -/
def counterVariable : Term :=
  .sortedVar "_Gen0" .int

/-- A term with the value that is made up. -/
def withValue (t : Term) : Term :=
  FreshConstants.replace [("!X", FreshConstants.value "freshInt" counterVariable 0)] t

/-- A rewrite in the computation cell, beside the counter that goes on by one. -/
def countedBody (a b : Term) : Term :=
  .bag [.openCell "k" (.rewrite (withValue a) (withValue b)),
    FreshConstants.counterCell counterVariable 1]

/-- The module with the rules of the context before their cells are placed. Either rule advances the
counter from its left-hand side to its right-hand side. -/
def countedModule : Module :=
  ⟨"M", [], [.production generatorProduction, .production (Freezer.production valueContext 0),
    .rule ⟨countedBody valueContext.body (Freezer.heated valueContext 0),
      some (HeatCool.isNoResult none), none, (∅ : Attributes).withMarker Attributes.heat⟩,
    .rule ⟨countedBody (Freezer.heated valueContext 0) valueContext.body,
      some (HeatCool.isResult none), none, (∅ : Attributes).withMarker Attributes.cool⟩,
    .production (SortPredicates.production .int), .production (SortPredicates.production .kitem),
    Counter.defaultSentence "k"], ∅⟩

def countedDefinition : Definition :=
  ⟨"M", .insert ∅ countedModule.name countedModule, ∅,
    ModuleMap.named_empty.insert countedModule, by cbv⟩

/-- The cell tree of a computation and the counter. -/
def countedTree : CellTree :=
  ⟨Counter.topName, .ofList [
    (Counter.topName, ⟨Counter.topName, none, ["k", Counter.cellName], none, ∅⟩),
    ("k", ⟨"k", some Counter.topName, [], some (.sortedVar Variable.pgm .k), ∅⟩),
    (Counter.cellName, ⟨Counter.cellName, some Counter.topName, [], some (.int 0), ∅⟩)]⟩

theorem Pass.run_valueDefinition :
    (Pipeline.run ((standard .default).take 9) valueDefinition).result = .ok countedDefinition := by
  cbv

theorem cellTree_countedDefinition :
    CellTree.ofModule countedDefinition countedDefinition.main = .ok countedTree := by
  have hconfiguration : countedDefinition.configuration? countedDefinition.main =
      some ⟨.closedCell Counter.topName
        (.bag [CellTree.defaultConfiguration "k", Counter.initialCell]), ∅⟩ := by cbv
  rw [CellTree.ofModule, hconfiguration]
  decide

/-- The rules of the context that makes up a value are not each other's reversal. -/
theorem Pass.exists_irreversible_value : ∃ e m,
    (Pipeline.run ((standard .default).take 11) valueDefinition).result = .ok e ∧
      e.module? "M" = some m ∧
      (Rule.pairs m.rules).map (fun p => decide (p.1.Reverses p.2)) = [false] := by
  have hpairs : ((countedDefinition.mapRules
      (Concretization.resolveRule countedTree countedDefinition)).toOption.bind
        fun e => (e.module? "M").map fun m => (Rule.pairs m.rules).map fun p =>
          decide (p.1.Reverses p.2)) = some [false] := by cbv
  obtain ⟨e, m, he, hm, hreverses⟩ := Definition.exists_module_of_toOption hpairs
  have hplaced : Concretization.resolve countedDefinition = .ok e :=
    Except.bind_eq_ok.2 ⟨countedTree, Except.mapError_eq_ok.2 cellTree_countedDefinition, he⟩
  have hsplit : (standard .default).take 11 =
      (standard .default).take 9 ++ [addStrategyCell false, concretizeCells] := rfl
  refine ⟨e, m, ?_, hm, hreverses⟩
  rw [hsplit, Pipeline.run_append]
  exact ⟨countedDefinition, run_valueDefinition, Pipeline.run_cons.2 ⟨_,
    StrategyCell.add_disabled.2 rfl, Pipeline.run_cons.2 ⟨e, hplaced, Pipeline.run_nil.2 rfl⟩⟩⟩

/-- The rules of the first four special contexts are not each other's reversal, and the cooling rule
of the last one demands that the hole is no result. Nor are the rules of a context that makes up a
value. -/
theorem Pass.exists_irreversible :
    (∃ e m, (Pipeline.run ((standard .default).take 11) specialDefinition).result = .ok e ∧
      e.module? "M" = some m ∧
      (Rule.pairs m.rules).map (fun p => decide (p.1.Reverses p.2)) =
        [false, false, false, false, true] ∧
      ∃ k, m.rules.getLast? = some k ∧ ¬ ∃ sort, k.Demands (HeatCool.isResult sort)) ∧
    ∃ e m, (Pipeline.run ((standard .default).take 11) valueDefinition).result = .ok e ∧
      e.module? "M" = some m ∧
      (Rule.pairs m.rules).map (fun p => decide (p.1.Reverses p.2)) = [false] := by
  refine ⟨?_, exists_irreversible_value⟩
  have hpairs : ((Pipeline.run ((standard .default).take 11) specialDefinition).result.toOption.bind
      fun e => (e.module? "M").map fun m => ((Rule.pairs m.rules).map fun p =>
        decide (p.1.Reverses p.2), m.rules.getLast?.map (·.requires))) =
      some ([false, false, false, false, true], some (some (HeatCool.isNoResult none))) := by cbv
  obtain ⟨e, m, he, hm, hvalues⟩ := Definition.exists_module_of_toOption hpairs
  obtain ⟨hreverses, hlast⟩ := Prod.mk.inj hvalues
  obtain ⟨k, hk, hrequires⟩ := Option.map_eq_some_iff.1 hlast
  refine ⟨e, m, he, hm, hreverses, k, hk, ?_⟩
  rintro ⟨sort, condition, hcondition, hconjunct⟩
  have hnot := Option.some.inj (hrequires.symm.trans hcondition)
  cases hconjunct with
  | self => exact absurd (Term.app.inj hnot).1 (by decide)
  | left _ => exact absurd (Term.app.inj hnot).1 (by decide)
  | right _ => exact absurd (Term.app.inj hnot).1 (by decide)

end RewriteSemantics
