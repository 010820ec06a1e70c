/-
# Related lists

Two lists whose members are related one by one, and what follows when the relation is weakened or
composed.
-/
import Mathlib.Data.List.Forall2

namespace List.Forall₂

variable {α β γ δ : Type} {R S : α → β → Prop} {l : List α} {l' : List β}

theorem imp_of_mem (h : Forall₂ R l l') (hRS : ∀ a ∈ l, ∀ b, R a b → S a b) : Forall₂ S l l' := by
  induction h with
  | nil => exact .nil
  | cons hab _ ih =>
    exact .cons (hRS _ mem_cons_self _ hab) (ih fun a ha => hRS a (mem_cons_of_mem _ ha))

theorem map_eq {f : α → γ} {g : β → γ} (h : Forall₂ R l l') (hfg : ∀ a b, R a b → f a = g b) :
    l.map f = l'.map g := by
  induction h with
  | nil => rfl
  | cons hab _ ih => rw [map_cons, map_cons, hfg _ _ hab, ih]

theorem flatMap_eq {f : α → List γ} {g : β → List γ} (h : Forall₂ R l l')
    (hfg : ∀ a b, R a b → f a = g b) : l.flatMap f = l'.flatMap g := by
  induction h with
  | nil => rfl
  | cons hab _ ih => rw [flatMap_cons, flatMap_cons, hfg _ _ hab, ih]

/-- A member of the first list is related to one of the second. -/
theorem exists_of_mem (h : Forall₂ R l l') {a : α} (ha : a ∈ l) : ∃ b ∈ l', R a b := by
  induction h with
  | nil => nomatch ha
  | cons hab _ ih =>
    rcases mem_cons.1 ha with rfl | ha
    · exact ⟨_, mem_cons_self, hab⟩
    · obtain ⟨b, hb, hR⟩ := ih ha
      exact ⟨b, mem_cons_of_mem _ hb, hR⟩

/-- A search for what the relation respects finds related members or nothing. -/
theorem find?_cases {p : α → Bool} {q : β → Bool} (h : Forall₂ R l l')
    (hpq : ∀ a b, R a b → p a = q b) :
    (l.find? p = none ∧ l'.find? q = none) ∨
      ∃ a b, l.find? p = some a ∧ l'.find? q = some b ∧ R a b := by
  induction h with
  | nil => exact .inl ⟨rfl, rfl⟩
  | @cons a b _ _ hab _ ih =>
    rw [find?_cons, find?_cons, ← hpq a b hab]
    cases p a with
    | true => exact .inr ⟨a, b, rfl, rfl, hab⟩
    | false => exact ih

/-- Relations compose member by member. -/
theorem comp {T : β → γ → Prop} {U : α → γ → Prop} {l'' : List γ} (h : Forall₂ R l l')
    (h' : Forall₂ T l' l'') (hU : ∀ a b c, R a b → T b c → U a c) : Forall₂ U l l'' := by
  induction h generalizing l'' with
  | nil =>
    cases h'
    exact .nil
  | cons hab _ ih =>
    cases h' with
    | cons hbc h' => exact .cons (hU _ _ _ hab hbc) (ih h')

/-- The fourth side of a square: if two lists are related, and a third is related to the second,
there is a list between the first and the third. -/
theorem square {T : β → γ → Prop} {U : α → δ → Prop} {V : δ → γ → Prop} {l'' : List γ}
    (h : Forall₂ R l l') (h' : Forall₂ T l' l'')
    (hsquare : ∀ a ∈ l, ∀ b c, R a b → T b c → ∃ d, U a d ∧ V d c) :
    ∃ m, Forall₂ U l m ∧ Forall₂ V m l'' := by
  induction h generalizing l'' with
  | nil =>
    cases h'
    exact ⟨[], .nil, .nil⟩
  | cons hab _ ih =>
    cases h' with
    | cons hbc h' =>
      obtain ⟨d, hU, hV⟩ := hsquare _ mem_cons_self _ _ hab hbc
      obtain ⟨m, hm, hm'⟩ := ih h' fun a ha => hsquare a (mem_cons_of_mem _ ha)
      exact ⟨d :: m, .cons hU hm, .cons hV hm'⟩

end List.Forall₂

/-- If every member of a list is related to something, there is a related list. -/
theorem List.exists_forall₂ {α β : Type} {R : α → β → Prop} {l : List α}
    (h : ∀ a ∈ l, ∃ b, R a b) : ∃ l', Forall₂ R l l' := by
  induction l with
  | nil => exact ⟨[], .nil⟩
  | cons a l ih =>
    obtain ⟨ha, hl⟩ := forall_mem_cons.1 h
    obtain ⟨b, hb⟩ := ha
    obtain ⟨l', hl'⟩ := ih hl
    exact ⟨b :: l', .cons hb hl'⟩
