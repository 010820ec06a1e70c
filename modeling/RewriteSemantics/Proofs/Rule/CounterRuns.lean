/-
# Runs of the counter

Rules that make up values number them by the counter. When such a rule is applied, its counter
variable stands for the current number, its generators are called with numbers from there on, and
the counter cell gets the first number that was not used. What one application keeps is therefore a
stretch of numbers to itself, one for each name that is made up, and from the counter left by one
application the next one goes on: over a whole run no number is passed twice.
-/
import Mathlib
import RewriteSemantics.Proofs.FreshNames
import RewriteSemantics.Proofs.Rule.FreshConstants
import RewriteSemantics.Proofs.Term.Cells
import RewriteSemantics.Proofs.Term.Places

namespace RewriteSemantics

open FreshConstants

/-! ## Integers -/

/-- The integer a term stands for, if its variables stand for integers: numerals and sums have
one. -/
def Term.intValue? (binding : String → Option Int) : Term → Option Int
  | .var v => binding v.name
  | .token text sort => if sort = .int then text.toInt? else none
  | .app label [left, right] =>
    if label = plusLabel then do
      let m ← left.intValue? binding
      let n ← right.intValue? binding
      return m + n
    else none
  | _ => none

namespace FreshConstants

variable {d : Definition} {r r' : Rule} {x : String} {binding : String → Option Int}

theorem intValue?_int (n : Int) : (Term.int n).intValue? binding = some n :=
  Int.toInt?_repr n

theorem intValue?_plus {t u : Term} {m n : Int} (ht : t.intValue? binding = some m)
    (hu : u.intValue? binding = some n) : (plus t u).intValue? binding = some (m + n) := by
  show (do
    let m ← t.intValue? binding
    let n ← u.intValue? binding
    return m + n) = some (m + n)
  rw [ht, hu]
  rfl

/-! ## Firings -/

/-- The content of a counter cell is rewritten. -/
def RewritesCounter (t old new : Term) : Prop :=
  t.HasCell fun tag body => tag.name = Counter.cellName ∧ body = .rewrite old new

/-- A label is that of a production that is marked as a generator. -/
def IsGenerator (d : Definition) (label : String) : Prop :=
  ∃ p ∈ d.productions, p.label = some label ∧
    p.attributes.contains Attributes.freshGenerator = true

/-- A rule makes up a value for a name: the name is marked, and a variable of the right-hand side
or of the promise has it. -/
def MakesUp (r : Rule) (x : String) : Prop :=
  Variable.isFreshName x = true ∧ ∃ t ∈ r.body.rhs :: r.ensures.toList, x ∈ t.variableNames

/-- At a place of a rule stands a variable of a name. -/
def NamesAt (r : Rule) (p : Rule.Place) (x : String) : Prop :=
  ∃ v, r.at? p = some (.var v) ∧ v.name = x

/-- One application of a rule: the rule as it was written, the rule with its made-up values, and
the integers its variables stand for. -/
structure Firing where
  source : Rule
  rule : Rule
  binding : String → Option Int

namespace Firing

/-- A firing takes the counter from one number to another. The rule got its made-up values, and did
not rewrite a counter cell before. The cell that it rewrites now holds the old number, and is left
with the new one. -/
structure Steps (d : Definition) (f : Firing) (n n' : Int) : Prop where
  silent : ∀ old new, ¬ RewritesCounter f.source.body old new
  marked : (freshVariables f.source).isEmpty = false
  resolved : resolveRule d f.source = .ok f.rule
  counter : ∃ old new, RewritesCounter f.rule.body old new ∧
    old.intValue? f.binding = some n ∧ new.intValue? f.binding = some n'

/-- What stood at a place of the rule has become the call of a generator, which is passed an
integer. -/
def Passes (d : Definition) (f : Firing) (p : Rule.Place) (k : Int) : Prop :=
  ∃ label arg, IsGenerator d label ∧
    f.rule.at? (f.source.placeBeside p) = some (.app label [arg]) ∧
    arg.intValue? f.binding = some k

end Firing

/-- The counter goes from one number to another while some rules are applied, one after the
other. -/
inductive Run (d : Definition) : Int → List Firing → Int → Prop
  | done (n : Int) : Run d n [] n
  | step {n n' m : Int} {f : Firing} {fs : List Firing} (h : f.Steps d n n')
    (hrun : Run d n' fs m) : Run d n (f :: fs) m

/-! ## Values in rules -/

section

variable {values : List (String × Term)} {t : Term}

/-- Each name has the value of its own number. -/
theorem lookup_valuesFrom {counter : Term} {offset : Nat} {l : List (String × SortName)}
    (h : valuesFrom d counter offset l = .ok values) (hx : x ∈ l.map (·.1)) :
    ∃ label, IsGenerator d label ∧
      values.lookup x = some (value label counter (offset + (l.map (·.1)).idxOf x)) := by
  induction l generalizing offset values with
  | nil => cases hx
  | cons e l ih =>
    obtain ⟨label, hlabel, h⟩ := Except.bind_eq_ok.1 h
    obtain ⟨others, hothers, h⟩ := Except.bind_eq_ok.1 h
    cases h
    rw [List.map_cons] at hx
    rw [List.map_cons, OrderedMap.lookup_cons_eq_ite]
    by_cases he : x = e.1
    · rw [if_pos he, he, List.idxOf_cons_self]
      exact ⟨label, exists_production_of_generatorFor hlabel, rfl⟩
    · obtain ⟨label', hlabel', hlookup⟩ := ih hothers ((List.mem_cons.1 hx).resolve_left he)
      rw [if_neg he, List.idxOf_cons_ne _ (Ne.symm he), hlookup]
      refine ⟨label', hlabel', ?_⟩
      rw [Nat.add_assoc, Nat.add_comm 1]

theorem at?_replace {place : List Nat} {u : Term} (h : t.at? place = some u) :
    (replace values t).at? place = some (replace values u) := by
  induction place generalizing t with
  | nil =>
    cases h
    rfl
  | cons i place ih =>
    obtain ⟨c, hc, h⟩ := Term.at?_cons_eq_some.1 h
    have ht : t.asVariable? = none := by
      cases t with
      | var v => cases hc
      | _ => rfl
    refine Term.at?_cons_eq_some.2 ⟨replace values c, ?_, ih h⟩
    rw [(children_replace values ht).2, List.getElem?_map, hc]
    rfl

theorem isCell_replace (ht : t.asVariable? = none) : (replace values t).isCell = t.isCell := by
  cases t with
  | var v => cases ht
  | _ => rfl

/-- The cells of a term with values are those of the term, if the values have none. -/
theorem hasCell_of_replace {P : CellTag → Term → Prop} (hvalues : ∀ e ∈ values, ¬ e.2.HasCell P)
    (h : (replace values t).HasCell P) : t.HasCell fun tag body => P tag (replace values body) := by
  induction t using Term.induct_children with
  | step t ih =>
    cases ht : t.asVariable? with
    | some v =>
      rw [Term.eq_var_of_asVariable? ht] at h
      rcases replace_var values v with ⟨e, he, hvalue⟩ | ⟨-, hvar⟩
      · exact absurd (hvalue ▸ h) (hvalues e he)
      · exact absurd (hvar ▸ h) (Term.not_hasCell_var v)
    | none =>
      cases hcell : t.isCell with
      | true =>
        cases t with
        | cell tag body =>
          refine Term.hasCell_cell.2 ((Term.hasCell_cell.1 h).imp_right fun h => ?_)
          exact ih body List.mem_cons_self h
        | _ => cases hcell
      | false =>
        rw [Term.hasCell_children ((isCell_replace ht).trans hcell), (children_replace values ht).2]
          at h
        obtain ⟨_, hmem, h⟩ := h
        obtain ⟨c, hc, rfl⟩ := List.mem_map.1 hmem
        exact (Term.hasCell_children hcell).2 ⟨c, hc, ih c hc h⟩

/-- A value has no cell. -/
theorem not_hasCell_value {P : CellTag → Term → Prop} (label : String) (counter : Variable)
    (offset : Nat) : ¬ (value label (.var counter) offset).HasCell P :=
  fun h => Bool.false_ne_true h.hasCells

theorem exists_eq_value_of_mem {offset : Nat} {l : List (String × SortName)}
    (h : valuesFrom d (counterOf r) offset l = .ok values) :
    ∀ e ∈ values, ∃ label counter offset, e.2 = value label (.var counter) offset := by
  intro e he
  obtain ⟨label, k, -, heq⟩ := exists_value_of_mem h he
  exact ⟨label, _, k, heq⟩

variable (hvalues : ∀ e ∈ values, ∃ label counter offset, e.2 = value label (.var counter) offset)

include hvalues

/-- What a variable has become is a call, or still the variable. -/
theorem replace_var_eq_app_or (v : Variable) :
    (∃ label args, replace values (.var v) = .app label args) ∨
      replace values (.var v) = .var v := by
  rcases replace_var values v with ⟨e, he, hvalue⟩ | ⟨-, hvar⟩
  · obtain ⟨label, counter, offset, heq⟩ := hvalues e he
    exact .inl ⟨label, _, hvalue.trans heq⟩
  · exact .inr hvar

/-- No value is a rewrite, so a counter cell is rewritten with the values only if it was before. -/
theorem rewritesCounter_of_replace {old new : Term}
    (h : RewritesCounter (replace values t) old new) :
    ∃ old' new', RewritesCounter t old' new' := by
  have hcells : ∀ e ∈ values, ¬ e.2.HasCell fun tag body =>
      tag.name = Counter.cellName ∧ body = .rewrite old new := by
    intro e he
    obtain ⟨label, counter, offset, heq⟩ := hvalues e he
    rw [heq]
    exact not_hasCell_value label counter offset
  obtain ⟨tag, body, hmem, hname, hbody⟩ := hasCell_of_replace hcells h
  cases body with
  | rewrite l u => exact ⟨l, u, tag, _, hmem, hname, rfl⟩
  | var v =>
    rcases replace_var_eq_app_or hvalues v with ⟨label, args, hv⟩ | hv
    · cases hv.symm.trans hbody
    · cases hv.symm.trans hbody
  | _ => cases hbody

theorem placeBeside_replace (place : List Nat) :
    (replace values t).placeBeside place = t.placeBeside place := by
  cases t with
  | var v =>
    rcases replace_var_eq_app_or hvalues v with ⟨label, args, hv⟩ | hv
    · rw [hv]
      rfl
    · rw [hv]
  | _ => rfl

/-- What a variable of a rule has become stands in its place. -/
theorem at?_of_var {p : Rule.Place} {v : Variable} (h : r.at? p = some (.var v)) (extra : Term) :
    Rule.at? ⟨(replace values r.body).beside extra, r.requires.map (replace values),
      r.ensures.map (replace values), r.attributes⟩ (r.placeBeside p) =
      some (replace values (.var v)) := by
  have hoptional : ∀ {o : Option Term} {place : List Nat}, o.bind (·.at? place) = some (.var v) →
      (o.map (replace values)).bind (·.at? place) = some (replace values (.var v)) := by
    intro o place h
    obtain ⟨t, rfl, h⟩ := Option.bind_eq_some_iff.1 h
    exact at?_replace h
  cases p with
  | body place =>
    have hbag : ∀ items, replace values (.var v) ≠ .bag items := by
      intro items hbag
      rcases replace_var_eq_app_or hvalues v with ⟨label, args, hv⟩ | hv
      · cases hv.symm.trans hbag
      · cases hv.symm.trans hbag
    have hbeside := Term.at?_beside (at?_replace h) hbag extra
    rwa [placeBeside_replace hvalues] at hbeside
  | requires place => exact hoptional h
  | ensures place => exact hoptional h

end

/-- The counter cell that a rule gets rewrites the counter, and nothing else. -/
theorem rewritesCounter_counterCell {counter : Variable} {count : Nat} {old new : Term} :
    RewritesCounter (counterCell (.var counter) count) old new ↔
      old = .var counter ∧ new = plus (.var counter) (.int count) := by
  rw [RewritesCounter, counterCell, Term.closedCell, Term.hasCell_cell]
  have hbelow : ¬ (Term.rewrite (.var counter) (plus (.var counter) (.int count))).HasCell
      fun tag body => tag.name = Counter.cellName ∧ body = .rewrite old new :=
    fun h => Bool.false_ne_true h.hasCells
  rw [or_iff_left hbelow]
  constructor
  · rintro ⟨-, h⟩
    cases h
    exact ⟨rfl, rfl⟩
  · rintro ⟨rfl, rfl⟩
    exact ⟨rfl, rfl⟩

/-! ## One firing -/

/-- The number of a name among those that a rule makes up. -/
def offset (r : Rule) (x : String) : Nat :=
  (freshVariables r).keys.idxOf x

theorem offset_lt (hx : x ∈ (freshVariables r).keys) : offset r x < (freshVariables r).size := by
  have hlt := List.idxOf_lt_length_iff.2 hx
  rwa [OrderedMap.keys, List.length_map] at hlt

theorem MakesUp.mem_keys (hx : MakesUp r x) : x ∈ (freshVariables r).keys := by
  obtain ⟨hfresh, t, ht, hx⟩ := hx
  exact mem_map_fst_freshVariables hfresh ht hx

/-- A name for which a value is made up stands in the rule. -/
theorem MakesUp.exists_namesAt (hx : MakesUp r x) : ∃ p, NamesAt r p x := by
  obtain ⟨-, t, ht, hx⟩ := hx
  rcases List.mem_cons.1 ht with rfl | ht
  · obtain ⟨place, v, hv, hx⟩ :=
      Term.exists_at?_of_mem_variableNames (Term.mem_variableNames_of_rhs hx)
    exact ⟨.body place, v, hv, hx⟩
  · obtain ⟨place, v, hv, hx⟩ := Term.exists_at?_of_mem_variableNames hx
    exact ⟨.ensures place, v, Option.bind_eq_some_iff.2 ⟨t, Option.mem_toList.1 ht, hv⟩, hx⟩

namespace Firing

variable {f : Firing} {n n' k : Int} {p q : Rule.Place}

/-- What a step has done: the values are over the counter, which stands for the old number, and the
new one is greater by the number of values. -/
theorem Steps.exists_values (h : f.Steps d n n') : ∃ values,
    valuesFrom d (counterOf f.source) 0 (freshVariables f.source).entries = .ok values ∧
      f.rule = ⟨(replace values f.source.body).beside
          (counterCell (counterOf f.source) (freshVariables f.source).size),
        f.source.requires.map (replace values), f.source.ensures.map (replace values),
        f.source.attributes⟩ ∧
      (counterOf f.source).intValue? f.binding = some n ∧
      n' = n + (freshVariables f.source).size := by
  obtain ⟨old, new, hrewrites, hold, hnew⟩ := h.counter
  rcases resolveRule_eq_ok h.resolved with ⟨hempty, -⟩ | ⟨values, hvalues, hrule⟩
  · have hmarked := h.marked
    rw [hempty] at hmarked
    cases hmarked
  · rw [hrule] at hrewrites
    rcases Term.hasCell_beside.1 hrewrites with hbody | hcounter
    · obtain ⟨old', new', hbody⟩ :=
        rewritesCounter_of_replace (exists_eq_value_of_mem hvalues) hbody
      exact absurd hbody (h.silent old' new')
    · obtain ⟨rfl, rfl⟩ := rewritesCounter_counterCell.1 hcounter
      rw [intValue?_plus hold (intValue?_int _)] at hnew
      exact ⟨values, hvalues, hrule, hold, (Option.some.inj hnew).symm⟩

/-- At a place of a name stands a call if a value is made up for the name. It is passed the number
of the name, counted from the counter on. -/
theorem Steps.passes_iff (h : f.Steps d n n') (hp : NamesAt f.source p x) :
    f.Passes d p k ↔ x ∈ (freshVariables f.source).keys ∧ k = n + offset f.source x := by
  obtain ⟨values, hvalues, hrule, hcounter, -⟩ := h.exists_values
  obtain ⟨v, hv, rfl⟩ := hp
  have hat : f.rule.at? (f.source.placeBeside p) = some (replace values (.var v)) := by
    rw [hrule]
    exact at?_of_var (exists_eq_value_of_mem hvalues) hv _
  have hreplace : replace values (.var v) = (values.lookup v.name).getD (.var v) := rfl
  by_cases hx : v.name ∈ (freshVariables f.source).keys
  · obtain ⟨label, hlabel, hlookup⟩ := lookup_valuesFrom hvalues hx
    have harg := intValue?_plus hcounter (intValue?_int (offset f.source v.name))
    rw [hreplace, hlookup, Nat.zero_add] at hat
    constructor
    · rintro ⟨label', arg, -, hcall, hk⟩
      cases hat.symm.trans hcall
      exact ⟨hx, Option.some.inj (hk.symm.trans harg)⟩
    · rintro ⟨-, rfl⟩
      exact ⟨label, _, hlabel, hat, harg⟩
  · have hnone : values.lookup v.name = none := by
      rw [lookup_eq_none_iff, map_fst_valuesFrom hvalues]
      exact hx
    rw [hreplace, hnone] at hat
    refine iff_of_false ?_ fun h => hx h.1
    rintro ⟨label, arg, -, hcall, -⟩
    cases hat.symm.trans hcall

/-- A step uses numbers from the old counter on, up to the new one. -/
theorem Steps.bounds (h : f.Steps d n n') (hp : NamesAt f.source p x) (hk : f.Passes d p k) :
    n ≤ k ∧ k < n' := by
  obtain ⟨-, -, -, -, hn'⟩ := h.exists_values
  obtain ⟨hx, hk⟩ := (h.passes_iff hp).1 hk
  have hlt := offset_lt hx
  omega

/-- No number is passed for two names in a step. -/
theorem Steps.name_eq {y : String} (h : f.Steps d n n') (hp : NamesAt f.source p x)
    (hq : NamesAt f.source q y) (hx : f.Passes d p k) (hy : f.Passes d q k) : x = y := by
  obtain ⟨hmem, hx⟩ := (h.passes_iff hp).1 hx
  obtain ⟨-, hy⟩ := (h.passes_iff hq).1 hy
  have hoffset : offset f.source x = offset f.source y := by omega
  exact (List.idxOf_inj hmem).1 hoffset

/-- A step advances the counter. -/
theorem Steps.le (h : f.Steps d n n') : n ≤ n' := by
  obtain ⟨-, -, -, -, hn'⟩ := h.exists_values
  omega

end Firing

/-! ## Runs -/

namespace Run

variable {n m k : Int} {fs : List Firing} {f g : Firing} {p q : Rule.Place}

theorem exists_steps (h : Run d n fs m) (hf : f ∈ fs) : ∃ n₁ n₂, f.Steps d n₁ n₂ := by
  induction h with
  | done n => cases hf
  | step hstep hrun ih =>
    rcases List.mem_cons.1 hf with rfl | hf
    · exact ⟨_, _, hstep⟩
    · exact ih hf

/-- No firing of a run passes a number below the counter that the run started with. -/
theorem le_of_passes (h : Run d n fs m) (hf : f ∈ fs) (hp : NamesAt f.source p x)
    (hk : f.Passes d p k) : n ≤ k := by
  induction h with
  | done n => cases hf
  | step hstep hrun ih =>
    rcases List.mem_cons.1 hf with rfl | hf
    · exact (hstep.bounds hp hk).1
    · exact hstep.le.trans (ih hf)

/-- The first firing of a run uses the numbers below the counter that it leaves, those behind it use
the numbers from there on. -/
theorem not_passes_of_steps {n' : Int} (h : f.Steps d n n') (hrun : Run d n' fs m) (hg : g ∈ fs)
    {y : String} (hp : NamesAt f.source p x) (hq : NamesAt g.source q y) (hx : f.Passes d p k) :
    ¬ g.Passes d q k := by
  intro hy
  have hlt := (h.bounds hp hx).2
  have hle := hrun.le_of_passes hg hq hy
  omega

/-- No number is passed for two names, in one firing or in two. -/
theorem eq_of_passes (h : Run d n fs m) {i j : Nat} (hf : fs[i]? = some f) (hg : fs[j]? = some g)
    {y : String} (hp : NamesAt f.source p x) (hq : NamesAt g.source q y) (hx : f.Passes d p k)
    (hy : g.Passes d q k) : i = j ∧ x = y := by
  induction h generalizing i j with
  | done n => cases hf
  | step hstep hrun ih =>
    cases i with
    | zero =>
      cases hf
      cases j with
      | zero =>
        cases hg
        exact ⟨rfl, hstep.name_eq hp hq hx hy⟩
      | succ j =>
        exact absurd hy (not_passes_of_steps hstep hrun (List.mem_of_getElem? hg) hp hq hx)
    | succ i =>
      cases j with
      | zero =>
        cases hg
        exact absurd hx (not_passes_of_steps hstep hrun (List.mem_of_getElem? hf) hq hp hy)
      | succ j =>
        obtain ⟨rfl, hxy⟩ := ih hf hg
        exact ⟨rfl, hxy⟩

end Run

/-- Made-up values are unique. Wherever a name stands for which a firing makes up a value, the call
of a generator comes to stand, and each of them is passed the same number. No number is passed for
another name, nor in another firing. -/
theorem distinct_of_run {fs : List Firing} {m : Int} (h : Run d 0 fs m) :
    (∀ f ∈ fs, ∀ x, MakesUp f.source x → (∃ p, NamesAt f.source p x) ∧
      ∃ k, ∀ p, NamesAt f.source p x → f.Passes d p k) ∧
    ∀ (i j : Nat) (f g : Firing), fs[i]? = some f → fs[j]? = some g → ∀ p q x y k,
      NamesAt f.source p x → NamesAt g.source q y → f.Passes d p k → g.Passes d q k →
      i = j ∧ x = y := by
  refine ⟨fun f hf x hx => ?_, fun i j f g hf hg p q x y k => h.eq_of_passes hf hg⟩
  obtain ⟨n₁, n₂, hstep⟩ := h.exists_steps hf
  exact ⟨hx.exists_namesAt, n₁ + offset f.source x,
    fun p hp => (hstep.passes_iff hp).2 ⟨hx.mem_keys, rfl⟩⟩

/-! ## Rules can be applied -/

/-- A rule with made-up values can be applied at every counter, whatever the variables of the rule
as it was written stand for: the counter variable is none of them. -/
theorem exists_steps (hsilent : ∀ old new, ¬ RewritesCounter r.body old new)
    (hmarked : (freshVariables r).isEmpty = false) (hresolved : resolveRule d r = .ok r')
    (binding : String → Option Int) (n : Int) :
    ∃ f : Firing, f.source = r ∧ f.rule = r' ∧ (∀ x ∈ r.variableNames, f.binding x = binding x) ∧
      f.Steps d n (n + (freshVariables r).size) := by
  have hnew := FreshNames.fresh_notMem (FreshNames.avoiding r.variableNames) generatedStem
  have hcounter : (counterOf r).intValue? (Function.update binding
      ((FreshNames.avoiding r.variableNames).fresh generatedStem).1 (some n)) = some n :=
    Function.update_self ..
  refine ⟨⟨r, r', Function.update binding _ (some n)⟩, rfl, rfl, fun x hx => ?_,
    hsilent, hmarked, hresolved, counterOf r, plus (counterOf r) (.int (freshVariables r).size), ?_,
    hcounter, intValue?_plus hcounter (intValue?_int _)⟩
  · refine Function.update_of_ne ?_ ..
    rintro rfl
    exact hnew hx
  · rcases resolveRule_eq_ok hresolved with ⟨hempty, -⟩ | ⟨values, -, rfl⟩
    · rw [hempty] at hmarked
      cases hmarked
    · exact Term.hasCell_beside.2 (.inr (rewritesCounter_counterCell.2 ⟨rfl, rfl⟩))

/-- Rules with made-up values can be applied in any order, from any counter on. -/
theorem exists_run {rules : List Rule}
    (h : ∀ r ∈ rules, (∀ old new, ¬ RewritesCounter r.body old new) ∧
      (freshVariables r).isEmpty = false ∧ ∃ r', resolveRule d r = .ok r') (n : Int) :
    ∃ fs m, Run d n fs m ∧ fs.map (·.source) = rules := by
  induction rules generalizing n with
  | nil => exact ⟨[], n, .done n, rfl⟩
  | cons r rules ih =>
    obtain ⟨⟨hsilent, hmarked, r', hresolved⟩, hrest⟩ := List.forall_mem_cons.1 h
    obtain ⟨f, rfl, -, -, hstep⟩ := exists_steps hsilent hmarked hresolved (fun _ => none) n
    obtain ⟨fs, m, hrun, rfl⟩ := ih hrest (n + (freshVariables f.source).size)
    exact ⟨f :: fs, m, .step hstep hrun, rfl⟩

/-! ### Pairs of new integers -/

/-- The function that makes up integers. -/
def generatorModule : Module :=
  ⟨"M", [], [.production ⟨.int, some "freshInt", [.int],
    (∅ : Attributes).insert Attributes.freshGenerator .marker⟩], ∅⟩

def generatorDefinition : Definition :=
  ⟨"M", .insert ∅ generatorModule.name generatorModule, ∅,
    ModuleMap.named_empty.insert generatorModule, by cbv⟩

/-- A rule that makes up two integers, and uses one of them twice. -/
def newPairRule : Rule :=
  .ofBody (.rewrite (.constant "pair") (.app "p" [.ofName "!A", .ofName "!B", .ofName "!A"]))

/-- The rule is applied twice. -/
theorem distinct_of_run_newPairRule : ∃ fs m, Run generatorDefinition 0 fs m ∧
    fs.map (·.source) = [newPairRule, newPairRule] ∧
    (∀ f ∈ fs, ∀ x, MakesUp f.source x → (∃ p, NamesAt f.source p x) ∧
      ∃ k, ∀ p, NamesAt f.source p x → f.Passes generatorDefinition p k) ∧
    ∀ (i j : Nat) (f g : Firing), fs[i]? = some f → fs[j]? = some g → ∀ p q x y k,
      NamesAt f.source p x → NamesAt g.source q y → f.Passes generatorDefinition p k →
      g.Passes generatorDefinition q k → i = j ∧ x = y := by
  have hsilent : newPairRule.body.hasCells = false := by decide
  have hmarked : (freshVariables newPairRule).isEmpty = false := by cbv
  have hresolved : (resolveRule generatorDefinition newPairRule).toOption.isSome = true := by cbv
  obtain ⟨r', hr'⟩ := Option.isSome_iff_exists.1 hresolved
  have hrule : (∀ old new, ¬ RewritesCounter newPairRule.body old new) ∧
      (freshVariables newPairRule).isEmpty = false ∧
      ∃ r', resolveRule generatorDefinition newPairRule = .ok r' := by
    refine ⟨fun old new h => ?_, hmarked, r', Except.toOption_eq_some.1 hr'⟩
    rw [h.hasCells] at hsilent
    cases hsilent
  obtain ⟨fs, m, hrun, hsources⟩ :=
    exists_run (List.forall_mem_cons.2 ⟨hrule, List.forall_mem_singleton.2 hrule⟩) 0
  exact ⟨fs, m, hrun, hsources, distinct_of_run hrun⟩

end FreshConstants

end RewriteSemantics
