/-
# Renaming generated names

A renaming is one-to-one on all words, keeps the stems of generated names and leaves other words as
they are. Texts that are alike word by word come from each other by a renaming if generated names
are repeated at the same places in both.
-/
import Mathlib.Logic.Equiv.Basic
import RewriteSemantics.Proofs.Rule.GeneratedNames

namespace RewriteSemantics.GeneratedNames

open Scan (headIs)

variable {stem : String} {v w : List Char} {vs ws : List (List Char)}
  {pairs : List (List Char × List Char)} {ρ : Equiv.Perm (List Char)}

/-! ## Renamings -/

/-- A one-to-one renaming of generated names that keeps their stems. -/
structure IsRenaming (ρ : Equiv.Perm (List Char)) : Prop where
  generated : ∀ {stem w}, IsGenerated stem w → IsGenerated stem (ρ w)
  other : ∀ {w}, ¬ IsName w → ρ w = w

/-- A text with all of its words renamed. -/
def renamed (ρ : Equiv.Perm (List Char)) (text : String) : String :=
  String.ofList ((words text.toList).map ρ).flatten

namespace IsRenaming

theorem refl : IsRenaming (Equiv.refl _) :=
  ⟨id, fun _ => rfl⟩

theorem trans {σ : Equiv.Perm (List Char)} (hρ : IsRenaming ρ) (hσ : IsRenaming σ) :
    IsRenaming (ρ.trans σ) where
  generated h := hσ.generated (hρ.generated h)
  other h := by rw [Equiv.trans_apply, hρ.other h, hσ.other h]

theorem swap (hv : IsGenerated stem v) (hw : IsGenerated stem w) : IsRenaming (Equiv.swap v w) where
  generated {stem' u} hu := by
    rw [Equiv.swap_apply_def]
    split
    · rename_i h
      obtain rfl := hu.stem_eq (h ▸ hv)
      exact hw
    · split
      · rename_i h
        obtain rfl := hu.stem_eq (h ▸ hw)
        exact hv
      · exact hu
  other h := Equiv.swap_apply_of_ne_of_ne (fun heq => h ⟨stem, heq ▸ hv⟩) fun heq =>
    h ⟨stem, heq ▸ hw⟩

theorem alike (hρ : IsRenaming ρ) (w : List Char) : Alike w (ρ w) := by
  by_cases h : IsName w
  · obtain ⟨stem, h⟩ := h
    exact .inr ⟨stem, h, hρ.generated h⟩
  · exact .inl (hρ.other h).symm

/-- Renamed words stand apart as before. -/
theorem spaced (hρ : IsRenaming ρ) (h : Spaced ws) : Spaced (ws.map ρ) := by
  induction h with
  | nil => exact .nil
  | mark hc _ ih =>
    rw [List.map_cons, hρ.other (not_isName_mark hc)]
    exact .mark hc ih
  | @word w ws hne hw hbreak hws ih =>
    -- Behind a word stands nothing or a mark, and marks are not renamed.
    have hbreak : headIs isWordChar (ws.map ρ).flatten = false := by
      cases hws with
      | nil => rfl
      | mark hc _ =>
        rw [List.map_cons, hρ.other (not_isName_mark hc)]
        exact hc
      | @word v _ hne hv _ _ =>
        cases v with
        | nil => exact absurd rfl hne
        | cons c v => exact absurd (hv c List.mem_cons_self) (Bool.eq_false_iff.1 hbreak)
    rcases hρ.alike w with heq | ⟨stem, -, hgen⟩
    · rw [List.map_cons, ← heq]
      exact .word hne hw hbreak ih
    · exact .word hgen.ne_nil hgen.isWordChar hbreak ih

theorem words_renamed (hρ : IsRenaming ρ) (text : String) :
    words (renamed ρ text).toList = (words text.toList).map ρ := by
  rw [renamed, String.toList_ofList, (hρ.spaced (spaced_words _)).words_flatten]

end IsRenaming

/-! ## Generated names of a text -/

/-- The generated names among some words, in order. -/
def names (ws : List (List Char)) : List (List Char) :=
  ws.filter IsName

/-- Two lists of names repeat their members at the same places. -/
def SamePattern (vs ws : List (List Char)) : Prop :=
  ∀ p ∈ vs.zip ws, ∀ q ∈ vs.zip ws, p.1 = q.1 ↔ p.2 = q.2

instance (vs ws : List (List Char)) : Decidable (SamePattern vs ws) :=
  inferInstanceAs (Decidable (∀ p ∈ vs.zip ws, ∀ q ∈ vs.zip ws, _))

theorem Alike.isName_iff (h : Alike v w) : IsName v ↔ IsName w := by
  rcases h with rfl | ⟨stem, hv, hw⟩
  · rfl
  · exact ⟨fun _ => ⟨stem, hw⟩, fun _ => ⟨stem, hv⟩⟩

theorem Alike.exists_stem (h : Alike v w) (hv : IsName v) :
    ∃ stem, IsGenerated stem v ∧ IsGenerated stem w := by
  rcases h with rfl | h
  · exact hv.imp fun _ h => ⟨h, h⟩
  · exact h

theorem forall₂_names (h : List.Forall₂ Alike vs ws) : List.Forall₂ Alike (names vs) (names ws) :=
  List.rel_filter (fun v w hvw => by simpa using hvw.isName_iff) h

/-- Names with the same stems that are repeated at the same places are renamed to each other: each
pair is put right behind the others by a swap, which leaves those alone. -/
theorem exists_isRenaming (hstem : ∀ p ∈ pairs, ∃ stem, IsGenerated stem p.1 ∧ IsGenerated stem p.2)
    (hpattern : ∀ p ∈ pairs, ∀ q ∈ pairs, p.1 = q.1 ↔ p.2 = q.2) :
    ∃ ρ, IsRenaming ρ ∧ ∀ p ∈ pairs, ρ p.1 = p.2 := by
  induction pairs with
  | nil => exact ⟨_, .refl, List.forall_mem_nil _⟩
  | cons p pairs ih =>
    obtain ⟨⟨stem, hp, hp'⟩, hstem⟩ := List.forall_mem_cons.1 hstem
    obtain ⟨ρ, hρ, hpairs⟩ := ih hstem fun q hq r hr =>
      hpattern q (List.mem_cons_of_mem p hq) r (List.mem_cons_of_mem p hr)
    refine ⟨ρ.trans (Equiv.swap (ρ p.1) p.2), hρ.trans (.swap (hρ.generated hp) hp'), ?_⟩
    refine List.forall_mem_cons.2 ⟨Equiv.swap_apply_left _ _, fun q hq => ?_⟩
    have hiff := hpattern q (List.mem_cons_of_mem p hq) p List.mem_cons_self
    rw [Equiv.trans_apply, hpairs q hq]
    by_cases heq : q.2 = p.2
    · rw [← hiff.2 heq, hpairs q hq, ← heq, Equiv.swap_apply_left]
    · refine Equiv.swap_apply_of_ne_of_ne (fun h => heq (hiff.1 (ρ.injective ?_))) heq
      rw [hpairs q hq, h]

/-- A renaming turns words into alike ones if it turns the generated names among them into those of
the others. -/
theorem map_eq_of_forall₂ (hρ : IsRenaming ρ) (h : List.Forall₂ Alike vs ws)
    (hnames : ∀ p ∈ (names vs).zip (names ws), ρ p.1 = p.2) : vs.map ρ = ws := by
  induction h with
  | nil => rfl
  | @cons v w vs ws hvw _ ih =>
    by_cases hv : IsName v
    · have hw := hvw.isName_iff.1 hv
      rw [names, names, List.filter_cons_of_pos (by simpa using hv),
        List.filter_cons_of_pos (by simpa using hw), List.zip_cons_cons] at hnames
      obtain ⟨hw, hnames⟩ := List.forall_mem_cons.1 hnames
      rw [List.map_cons, ih hnames, hw]
    · have hw := mt hvw.isName_iff.2 hv
      rw [names, names, List.filter_cons_of_neg (by simpa using hv),
        List.filter_cons_of_neg (by simpa using hw)] at hnames
      rcases hvw with rfl | ⟨stem, hgen, -⟩
      · rw [List.map_cons, ih hnames, hρ.other hv]
      · exact absurd ⟨stem, hgen⟩ hv

theorem names_map (hρ : IsRenaming ρ) (ws : List (List Char)) :
    names (ws.map ρ) = (names ws).map ρ := by
  rw [names, List.filter_map, names]
  congr 1
  exact List.filter_congr fun w _ => by simpa using (hρ.alike w).isName_iff.symm

theorem samePattern_map (ws : List (List Char)) : SamePattern ws (ws.map ρ) := by
  have hmap : List.Forall₂ (fun v w => ρ v = w) ws (ws.map ρ) :=
    List.forall₂_map_right_iff.2 (List.forall₂_same.2 fun _ _ => rfl)
  intro p hp q hq
  rw [← (List.forall₂_iff_zip.1 hmap).2 hp, ← (List.forall₂_iff_zip.1 hmap).2 hq,
    ρ.injective.eq_iff]

end RewriteSemantics.GeneratedNames
