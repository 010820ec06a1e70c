/-
# Fresh names

A supply of names that are not in use yet. A fresh name is a stem followed by the smallest number
that gives a name not taken, and is taken from then on.

The supply keeps a counter for each stem, and the search for the next name of the stem starts there.
The taken names are shared by all stems, so a candidate of one stem may be in use because it was
drawn for another one. That every candidate below a counter is taken is part of the type, so a
search that starts at the counter finds what one from zero on would find.

The search looks at one number after the other. A candidate that is taken is crossed off the taken
names, so there are only finitely many of them. Candidates of different numbers are different, so
crossing one off does not make a later one look free.
-/
import RewriteSemantics.Ordered.Map

namespace RewriteSemantics

/-- A stem with a number behind it. -/
def FreshNames.candidate (stem : String) (n : Nat) : String :=
  stem ++ toString n

/-- The names in use, and the number from which on the candidates of a stem are tried. -/
structure FreshNames where
  taken : OrderedSet String
  /-- The counters of the stems. A stem without one starts at zero. -/
  counters : OrderedMap String Nat
  passed : ∀ stem n, n < (counters.get? stem).getD 0 → FreshNames.candidate stem n ∈ taken

namespace FreshNames

/-- The supply of names other than some that are in use. -/
def avoiding (taken : OrderedSet String) : FreshNames :=
  ⟨taken, ∅, fun _ n h => absurd h (Nat.not_lt_zero n)⟩

/-- The number from which on the candidates of a stem are tried. -/
def counter (names : FreshNames) (stem : String) : Nat :=
  (names.counters.get? stem).getD 0

/-- The first number from `n` on whose candidate is not among the taken names. -/
def firstFree (stem : String) (taken : List String) (n : Nat) : Nat :=
  if h : candidate stem n ∈ taken then firstFree stem (taken.erase (candidate stem n)) (n + 1)
  else n
termination_by taken.length
decreasing_by
  have := List.length_erase_of_mem h
  have := List.length_pos_of_mem h
  omega

/-- The search passes taken candidates only. -/
theorem mem_of_lt_firstFree {stem : String} {taken : List String} {n k : Nat} (hn : n ≤ k)
    (hk : k < firstFree stem taken n) : candidate stem k ∈ taken := by
  induction taken, n using firstFree.induct stem with
  | case1 taken n h ih =>
    rw [firstFree, dif_pos h] at hk
    rcases Nat.eq_or_lt_of_le hn with rfl | hn
    · exact h
    · exact List.mem_of_mem_erase (ih hn hk)
  | case2 taken n h =>
    rw [firstFree, dif_neg h] at hk
    omega

/-- The number of the next fresh name of a stem. -/
def next (names : FreshNames) (stem : String) : Nat :=
  firstFree stem names.taken.toList (names.counter stem)

/-- The candidates that the search has come past are taken, that of another stem's counter too. -/
theorem passed_next (names : FreshNames) (stem other : String) (n : Nat)
    (h : n < ((names.counters.insert stem (names.next stem + 1)).get? other).getD 0) :
    candidate other n ∈ names.taken.insert (candidate stem (names.next stem)) := by
  rw [OrderedMap.get?_insert] at h
  split at h
  · rename_i heq
    subst heq
    rcases Nat.lt_succ_iff_lt_or_eq.1 h with hlt | rfl
    · refine OrderedSet.mem_insert.2 (.inr ?_)
      by_cases hcounter : n < names.counter other
      · exact names.passed other n hcounter
      · exact mem_of_lt_firstFree (Nat.le_of_not_lt hcounter) hlt
    · exact OrderedSet.mem_insert.2 (.inl rfl)
  · exact OrderedSet.mem_insert.2 (.inr (names.passed other n h))

/-- A fresh name of a stem, and the supply without it. -/
def fresh (names : FreshNames) (stem : String) : String × FreshNames :=
  let name := candidate stem (names.next stem)
  (name, ⟨names.taken.insert name, names.counters.insert stem (names.next stem + 1),
    names.passed_next stem⟩)

end FreshNames

end RewriteSemantics
