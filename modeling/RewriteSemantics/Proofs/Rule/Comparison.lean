/-
# What comparing rules tells

Legible rules that are compared as the same agree word by word, up to the numbers of generated
names. The numbers are compared with nothing, so this does not make one rule a renaming of the
other. It does exactly if generated names are repeated at the same places in both.
-/
import RewriteSemantics.Proofs.Rule.Legible
import RewriteSemantics.Proofs.Rule.Renaming
import RewriteSemantics.Proofs.Rule.Variables

namespace RewriteSemantics

open GeneratedNames
open RuleText (Fits IsBare isStart_nil)
open RuleText.Place (Closes assembled assembled_inj keywords)
open Scan (IsIdentifier)

namespace Rule

variable {l r : Rule} {ρ : Equiv.Perm (List Char)}

/-! ## Parts -/

/-- The texts of the conditions of a rule, each with its keyword. -/
def conditions (r : Rule) : List (String × String) :=
  (r.requires.toList.map fun t => ("requires", t.shown)) ++
    r.ensures.toList.map fun t => ("ensures", t.shown)

/-- The texts that are compared of a rule: that of the body, with no keyword, and those of the
conditions. -/
def parts (r : Rule) : List (String × String) :=
  ("", r.body.shown) :: r.conditions

/-- A rule whose body and conditions are legible. -/
def Legible (r : Rule) : Prop :=
  ∀ t ∈ r.terms, t.Legible

/-- A part as it is compared. -/
def comparedPart (p : String × String) : List Char × List Char :=
  (p.1.toList, blur p.2.toList)

theorem toList_normalize (text : String) : (normalize text).toList = blur text.toList :=
  String.toList_ofList

/-- The text that is compared is put together from the parts. -/
theorem toList_comparedText (r : Rule) :
    r.comparedText.toList =
      assembled (blur r.body.shown.toList) (r.conditions.map comparedPart) := by
  obtain ⟨body, requires, ensures, attributes⟩ := r
  rw [comparedText, conditions]
  cases requires <;> cases ensures <;>
    simp [comparedCondition, comparedPart, assembled, toList_normalize]

theorem exists_keyword_of_mem_conditions {p : String × String} (h : p ∈ r.conditions) :
    p.1.toList ∈ keywords ∧ ∃ t ∈ r.terms, p.2 = t.shown := by
  rw [conditions, List.mem_append, List.mem_map, List.mem_map] at h
  rcases h with ⟨t, ht, rfl⟩ | ⟨t, ht, rfl⟩
  · exact ⟨List.mem_cons_self, t, List.mem_cons_of_mem _ (List.mem_append_left _ ht), rfl⟩
  · exact ⟨List.mem_cons_of_mem _ (List.mem_singleton_self _), t,
      List.mem_cons_of_mem _ (List.mem_append_right _ ht), rfl⟩

theorem exists_term_of_mem_parts {p : String × String} (h : p ∈ r.parts) :
    ∃ t ∈ r.terms, p.2 = t.shown := by
  rcases List.mem_cons.1 h with rfl | h
  · exact ⟨r.body, List.mem_cons_self, rfl⟩
  · exact (exists_keyword_of_mem_conditions h).2

section Legible

variable (hnames : ∀ x ∈ r.variableNames, IsIdentifier x) (hlegible : r.Legible)

include hnames hlegible

theorem isRead_part {p : String × String} (hp : p ∈ r.parts) : RuleText.IsRead p.2.toList := by
  obtain ⟨t, ht, heq⟩ := exists_term_of_mem_parts hp
  rw [heq]
  exact RuleText.isRead_shown (hlegible t ht) fun x hx => hnames x (mem_variableNames.2 ⟨t, ht, hx⟩)

theorem unmarked_part {p : String × String} (hp : p ∈ r.parts) : Unmarked (words p.2.toList) := by
  obtain ⟨_, -, hread⟩ := isRead_part hnames hlegible hp [] isStart_nil
  exact hread.unmarked

theorem closes_part {p : String × String} (hp : p ∈ r.parts) : Closes (blur p.2.toList) := by
  obtain ⟨chunk, hchunk, hread⟩ := isRead_part hnames hlegible hp [] isStart_nil
  exact ⟨chunk, hchunk, hread.walk⟩

theorem closes_condition : ∀ p ∈ r.conditions.map comparedPart, p.1 ∈ keywords ∧ Closes p.2 := by
  intro p hp
  obtain ⟨q, hq, rfl⟩ := List.mem_map.1 hp
  exact ⟨(exists_keyword_of_mem_conditions hq).1,
    closes_part hnames hlegible (List.mem_cons_of_mem _ hq)⟩

end Legible

/-- Legible rules are compared part by part. -/
theorem sameUpToNames_iff_map_comparedPart (hln : ∀ x ∈ l.variableNames, IsIdentifier x)
    (hl : l.Legible) (hrn : ∀ x ∈ r.variableNames, IsIdentifier x) (hr : r.Legible) :
    l.sameUpToNames r = true ↔ l.parts.map comparedPart = r.parts.map comparedPart := by
  rw [sameUpToNames, beq_iff_eq, ← String.toList_inj, toList_comparedText, toList_comparedText,
    parts, parts, List.map_cons, List.map_cons, List.cons.injEq]
  constructor
  · intro h
    obtain ⟨hbody, hconditions⟩ := assembled_inj (closes_part hln hl List.mem_cons_self)
      (closes_part hrn hr List.mem_cons_self) (closes_condition hln hl) (closes_condition hrn hr) h
    exact ⟨Prod.ext rfl hbody, hconditions⟩
  · rintro ⟨hbody, hconditions⟩
    have hbody : blur l.body.shown.toList = blur r.body.shown.toList := congrArg Prod.snd hbody
    rw [hbody, hconditions]

/-! ## Word by word -/

/-- Rules with the same conditions whose texts have the same words, up to the numbers of generated
names. -/
def Agrees (l r : Rule) : Prop :=
  List.Forall₂ (fun p q => p.1 = q.1 ∧ List.Forall₂ Alike (words p.2.toList) (words q.2.toList))
    l.parts r.parts

/-- A one-to-one renaming of generated names that keeps their stems turns the texts of one rule into
those of another. -/
def RenamesTo (l r : Rule) : Prop :=
  ∃ ρ, IsRenaming ρ ∧ l.parts.map (Prod.map id (renamed ρ)) = r.parts

/-- The generated names in the texts of a rule, in order. -/
def generatedNames (r : Rule) : List (List Char) :=
  r.parts.flatMap fun p => names (words p.2.toList)

theorem comparedPart_eq_of_alike {p q : String × String} (hkeyword : p.1 = q.1)
    (h : List.Forall₂ Alike (words p.2.toList) (words q.2.toList)) :
    comparedPart p = comparedPart q := by
  have hblurred : List.Forall₂ (· = ·) ((words p.2.toList).map blurred)
      ((words q.2.toList).map blurred) :=
    List.forall₂_map_left_iff.2 (List.forall₂_map_right_iff.2 (h.imp fun _ _ => Alike.blurred_eq))
  refine Prod.ext (congrArg String.toList hkeyword) ?_
  change blur p.2.toList = blur q.2.toList
  rw [List.forall₂_eq_eq_eq] at hblurred
  rw [blur_eq, blur_eq, hblurred]

theorem alike_of_comparedPart_eq {p q : String × String} (hp : Unmarked (words p.2.toList))
    (hq : Unmarked (words q.2.toList)) (h : comparedPart p = comparedPart q) :
    p.1 = q.1 ∧ List.Forall₂ Alike (words p.2.toList) (words q.2.toList) := by
  obtain ⟨hkeyword, htext⟩ := Prod.mk.inj h
  rw [blur_eq, blur_eq] at htext
  exact ⟨String.toList_inj.1 hkeyword, forall₂_alike (spaced_words _) (spaced_words _) hp hq htext⟩

/-- Legible rules are compared as the same exactly if they agree. -/
theorem sameUpToNames_iff_agrees (hln : ∀ x ∈ l.variableNames, IsIdentifier x) (hl : l.Legible)
    (hrn : ∀ x ∈ r.variableNames, IsIdentifier x) (hr : r.Legible) :
    l.sameUpToNames r = true ↔ l.Agrees r := by
  rw [sameUpToNames_iff_map_comparedPart hln hl hrn hr, ← List.forall₂_eq_eq_eq,
    List.forall₂_map_left_iff, List.forall₂_map_right_iff, Agrees, List.forall₂_iff_zip,
    List.forall₂_iff_zip]
  refine and_congr_right fun _ => ⟨fun h p q hpq => ?_, fun h p q hpq => ?_⟩
  · obtain ⟨hp, hq⟩ := List.of_mem_zip hpq
    exact alike_of_comparedPart_eq (unmarked_part hln hl hp) (unmarked_part hrn hr hq) (h hpq)
  · exact comparedPart_eq_of_alike (h hpq).1 (h hpq).2

/-! ## Renamings -/

theorem agrees_of_renamesTo (h : l.RenamesTo r) : l.Agrees r := by
  obtain ⟨ρ, hρ, hparts⟩ := h
  rw [Agrees, ← hparts, List.forall₂_map_right_iff, List.forall₂_same]
  refine fun p _ => ⟨rfl, ?_⟩
  rw [Prod.map_snd, hρ.words_renamed, List.forall₂_map_right_iff, List.forall₂_same]
  exact fun w _ => hρ.alike w

theorem generatedNames_of_renaming (hρ : IsRenaming ρ)
    (hparts : l.parts.map (Prod.map id (renamed ρ)) = r.parts) :
    r.generatedNames = l.generatedNames.map ρ := by
  rw [generatedNames, ← hparts, List.flatMap_map, generatedNames, List.map_flatMap]
  congr 1
  funext p
  rw [Prod.map_snd, hρ.words_renamed, names_map hρ]

/-- Pairs that stand at the same places of two texts stand at the same places of the texts that have
these as parts. -/
theorem forall₂_zip_flatMap {α β : Type} {R : α → α → Prop} {f : α → List β} {P : β × β → Prop}
    {xs ys : List α} (h : List.Forall₂ R xs ys)
    (hlength : ∀ x y, R x y → (f x).length = (f y).length)
    (hall : ∀ p ∈ (xs.flatMap f).zip (ys.flatMap f), P p) :
    List.Forall₂ (fun x y => R x y ∧ ∀ p ∈ (f x).zip (f y), P p) xs ys := by
  induction h with
  | nil => exact .nil
  | cons hxy _ ih =>
    rw [List.flatMap_cons, List.flatMap_cons, List.zip_append (hlength _ _ hxy),
      List.forall_mem_append] at hall
    exact .cons ⟨hxy, hall.1⟩ (ih hall.2)

theorem forall₂_generatedNames (h : l.Agrees r) :
    List.Forall₂ Alike l.generatedNames r.generatedNames :=
  List.rel_flatMap h fun _ _ hpq => forall₂_names hpq.2

/-- Rules that agree are renamed to each other if generated names are repeated at the same
places. -/
theorem renamesTo_of_agrees (h : l.Agrees r)
    (hpattern : SamePattern l.generatedNames r.generatedNames) : l.RenamesTo r := by
  have hstem : ∀ p ∈ l.generatedNames.zip r.generatedNames,
      ∃ stem, IsGenerated stem p.1 ∧ IsGenerated stem p.2 := by
    intro p hp
    have hname : IsName p.1 := by
      obtain ⟨_, -, hp⟩ := List.mem_flatMap.1 (List.of_mem_zip hp).1
      exact of_decide_eq_true (List.mem_filter.1 hp).2
    exact ((List.forall₂_iff_zip.1 (forall₂_generatedNames h)).2 hp).exists_stem hname
  obtain ⟨ρ, hρ, hpairs⟩ := exists_isRenaming hstem hpattern
  refine ⟨ρ, hρ, ?_⟩
  -- The renaming fits the names of all parts in a row, so it fits those of each part.
  have hparts := forall₂_zip_flatMap h (fun _ _ hpq => (forall₂_names hpq.2).length_eq) hpairs
  rw [← List.forall₂_eq_eq_eq, List.forall₂_map_left_iff]
  refine hparts.imp fun p q hpq => Prod.ext hpq.1.1 ?_
  obtain ⟨⟨-, halike⟩, hnames⟩ := hpq
  change renamed ρ p.2 = q.2
  rw [renamed, map_eq_of_forall₂ hρ halike hnames, flatten_words, String.ofList_toList]

theorem samePattern_of_renamesTo (h : l.RenamesTo r) :
    SamePattern l.generatedNames r.generatedNames := by
  obtain ⟨ρ, hρ, hparts⟩ := h
  rw [generatedNames_of_renaming hρ hparts]
  exact samePattern_map _

/-- **What comparing rules tells.** Rules whose variables are named by identifiers and whose other
texts are legible are compared as the same exactly if they agree word by word, up to the numbers of
generated names. A one-to-one renaming turns one into the other exactly if generated names are
repeated at the same places as well. -/
theorem renamesTo_iff_sameUpToNames (hln : ∀ x ∈ l.variableNames, IsIdentifier x) (hl : l.Legible)
    (hrn : ∀ x ∈ r.variableNames, IsIdentifier x) (hr : r.Legible) :
    (l.sameUpToNames r = true ↔ l.Agrees r) ∧
      (l.RenamesTo r ↔
        l.sameUpToNames r = true ∧ SamePattern l.generatedNames r.generatedNames) := by
  have hiff := sameUpToNames_iff_agrees hln hl hrn hr
  refine ⟨hiff, fun h => ?_, fun h => renamesTo_of_agrees (hiff.1 h.1) h.2⟩
  exact ⟨hiff.2 (agrees_of_renamesTo h), samePattern_of_renamesTo h⟩

theorem renamesTo_swapped_names :
    let rule (x y : String) : Rule :=
      ⟨.openCell "k" (.rewrite (.app "_+_" [.ofName x, .sortedVar "DotVar1" .int]) (.ofName x)),
        some (.app "f" [.ofName y, .token "a requires b" .string]), none, ∅⟩
    let l := rule "_Gen0" "_Gen1"
    let r := rule "_Gen1" "_Gen0"
    (∀ x ∈ l.variableNames, IsIdentifier x) ∧ l.Legible ∧
      (∀ x ∈ r.variableNames, IsIdentifier x) ∧ r.Legible ∧ l.Agrees r ∧ l.RenamesTo r := by
  intro rule l r
  have hidentifier {r : Rule}
      (h : ∀ x ∈ r.variableNames.toList, x = "_Gen0" ∨ x = "_Gen1" ∨ x = "DotVar1") :
      ∀ x ∈ r.variableNames, IsIdentifier x := by
    intro x hx
    rcases h x hx with rfl | rfl | rfl <;> exact Scan.exists_tokenize (by cbv)
  have hlegible (x y : String) : (rule x y).Legible := by
    have hplus : Label.Legible "_+_" :=
      .quoted (by decide) ⟨by decide, RuleText.unmarked_of_notMem_tail (by decide)⟩
    have htext : Term.Legible (.token "a requires b" .string) :=
      .quoted (by decide) ⟨by decide, RuleText.unmarked_of_notMem_tail (by decide)⟩
        ⟨by decide, RuleText.unmarked_of_notMem_tail (by decide)⟩
    have hname : IsBare "k" := RuleText.isBare_of_all (by decide) (by decide)
    have hvariable (x : String) : (Term.ofName x).Legible :=
      .var fun _ hsort => absurd hsort (Option.not_mem_none _)
    have hsorted : (Term.sortedVar "DotVar1" .int).Legible := .var fun _ hint =>
      Option.mem_some.1 hint ▸ RuleText.isBare_of_all (by decide) (by decide)
    refine List.forall_mem_cons.2 ⟨.cell hname (.rewrite (.app hplus ?_) (hvariable x)),
      List.forall_mem_singleton.2 (.app (.plain (by decide) (by decide)) ?_)⟩
    · exact List.forall_mem_cons.2 ⟨hvariable x, List.forall_mem_singleton.2 hsorted⟩
    · exact List.forall_mem_cons.2 ⟨hvariable y, List.forall_mem_singleton.2 htext⟩
  have hln := hidentifier (r := l) (by decide)
  have hrn := hidentifier (r := r) (by decide)
  have hmain := renamesTo_iff_sameUpToNames hln (hlegible _ _) hrn (hlegible _ _)
  have hsame : l.sameUpToNames r = true := by decide
  have hpattern : SamePattern l.generatedNames r.generatedNames := by decide
  exact ⟨hln, hlegible _ _, hrn, hlegible _ _, hmain.1.1 hsame, hmain.2.2 ⟨hsame, hpattern⟩⟩

/-- Rules whose variables are named by identifiers are compared as the same, and yet no renaming
turns one into the other. -/
def Confused (l r : Rule) : Prop :=
  (∀ x ∈ l.variableNames, IsIdentifier x) ∧ (∀ x ∈ r.variableNames, IsIdentifier x) ∧
    l.sameUpToNames r = true ∧ ¬ l.RenamesTo r

/-- Rules are confused if one repeats a generated name where the other has two of them. Rules that
are not legible are confused for other reasons: a label is a keyword, a label has the mark for
numbers behind a stem, or there are quotation marks in a literal text. -/
theorem sameUpToNames_not_renamesTo :
    Confused (ofBody (.app "f" [.ofName "_Gen0", .ofName "_Gen0"]))
        (ofBody (.app "f" [.ofName "_Gen0", .ofName "_Gen1"])) ∧
      Confused (ofBody (.bag [.constant "a", .constant "requires", .constant "b"]))
        ⟨.constant "a", some (.constant "b"), none, ∅⟩ ∧
      Confused (ofBody (.constant "_Gen#")) (ofBody (.constant "_Gen0")) ∧
      Confused (ofBody (.token "a\" requires \"b" .string))
        ⟨.token "a" .string, some (.token "b" .string), none, ∅⟩ := by
  have hidentifier {r : Rule} (h : ∀ x ∈ r.variableNames.toList, x = "_Gen0" ∨ x = "_Gen1") :
      ∀ x ∈ r.variableNames, IsIdentifier x := by
    intro x hx
    rcases h x hx with rfl | rfl <;> exact Scan.exists_tokenize (by cbv)
  refine ⟨⟨hidentifier (by decide), hidentifier (by decide), by decide, fun h => ?_⟩,
    ⟨hidentifier (by decide), hidentifier (by decide), by decide, fun h => ?_⟩,
    ⟨hidentifier (by decide), hidentifier (by decide), by decide, fun h => ?_⟩,
    ⟨hidentifier (by decide), hidentifier (by decide), by decide, fun h => ?_⟩⟩
  · exact absurd (samePattern_of_renamesTo h) (by decide)
  · exact absurd (agrees_of_renamesTo h).length_eq (by decide)
  · exact absurd (List.forall₂_cons.1 (agrees_of_renamesTo h)).1.2.length_eq (by decide)
  · exact absurd (agrees_of_renamesTo h).length_eq (by decide)

end Rule

end RewriteSemantics
