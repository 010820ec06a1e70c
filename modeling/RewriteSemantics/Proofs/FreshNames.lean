/-
# The fresh name of a stem

A fresh name is the candidate of the smallest number that is free. The search starts at the counter
of the stem and not at zero, but what lies below a counter is taken. So a fresh name is new, and
which one it is depends only on the candidates that are taken. Names that are drawn one after the
other, for whatever stems, differ from each other and from all names taken before.
-/
import Mathlib.Order.Bounds.Basic
import RewriteSemantics.FreshNames

namespace RewriteSemantics.FreshNames

/-! ## The search -/

theorem candidate_inj {stem : String} {m n : Nat} (h : candidate stem m = candidate stem n) :
    m = n := by
  have hrepr : m.repr = n.repr := (String.append_right_inj stem).1 h
  rw [Nat.repr_eq_ofList_toDigits, Nat.repr_eq_ofList_toDigits, String.ofList_inj] at hrepr
  -- The number is read back from its digits.
  rw [← @Nat.ofDigitChars_ten_toDigits m, hrepr, Nat.ofDigitChars_ten_toDigits]

theorem le_firstFree (stem : String) (taken : List String) (n : Nat) :
    n ≤ firstFree stem taken n := by
  induction taken, n using firstFree.induct stem with
  | case1 taken n h ih =>
    rw [firstFree, dif_pos h]
    omega
  | case2 taken n h =>
    have hfree : firstFree stem taken n = n := by rw [firstFree, dif_neg h]
    omega

/-- The search stops at a candidate that is not taken. Those crossed off have smaller numbers. -/
theorem candidate_firstFree_notMem (stem : String) (taken : List String) (n : Nat) :
    candidate stem (firstFree stem taken n) ∉ taken := by
  induction taken, n using firstFree.induct stem with
  | case1 taken n h ih =>
    rw [firstFree, dif_pos h]
    intro hmem
    refine ih ((List.mem_erase_of_ne fun heq => ?_).2 hmem)
    have hle := le_firstFree stem (taken.erase (candidate stem n)) (n + 1)
    have := candidate_inj heq
    omega
  | case2 taken n h =>
    rw [firstFree, dif_neg h]
    exact h

/-- The search of a stem, number by number: it goes on while candidates are taken, and ends at the
first one that is not. -/
inductive Search (stem : String) (taken : OrderedSet String) : Nat → Nat → Prop where
  | found {n : Nat} (hfree : candidate stem n ∉ taken) : Search stem taken n n
  | passed {n m : Nat} (htaken : candidate stem n ∈ taken) (hrest : Search stem taken (n + 1) m) :
      Search stem taken n m

theorem search_of_forall_mem {stem : String} {taken : OrderedSet String} {n m : Nat} (hn : n ≤ m)
    (hfree : candidate stem m ∉ taken) (htaken : ∀ k, n ≤ k → k < m → candidate stem k ∈ taken) :
    Search stem taken n m := by
  obtain ⟨d, rfl⟩ := Nat.exists_eq_add_of_le hn
  induction d generalizing n with
  | zero => exact .found hfree
  | succ d ih =>
    refine .passed (htaken n (Nat.le_refl n) (by omega)) ?_
    rw [← Nat.add_assoc, Nat.add_right_comm] at hfree htaken ⊢
    exact ih (Nat.le_add_right _ d) hfree fun k hk hlt => htaken k (by omega) hlt

/-- The search from the counter of a stem comes to an end. -/
theorem search_next (names : FreshNames) (stem : String) :
    Search stem names.taken (names.counter stem) (names.next stem) :=
  search_of_forall_mem (le_firstFree ..) (candidate_firstFree_notMem _ _ _)
    fun _ => mem_of_lt_firstFree

/-- It ends at the smallest number that is free, as if it had started at zero. -/
theorem isLeast_next (names : FreshNames) (stem : String) :
    IsLeast {n | candidate stem n ∉ names.taken} (names.next stem) := by
  refine ⟨candidate_firstFree_notMem _ _ _, fun m hm => Nat.le_of_not_lt fun hlt => hm ?_⟩
  by_cases hcounter : m < names.counter stem
  · exact names.passed stem m hcounter
  · exact mem_of_lt_firstFree (Nat.le_of_not_lt hcounter) hlt

/-! ## One name -/

/-- A fresh name has not been taken before. -/
theorem fresh_notMem (names : FreshNames) (stem : String) : (names.fresh stem).1 ∉ names.taken :=
  (isLeast_next names stem).1

/-- A fresh name is taken from then on, and nothing else. -/
theorem mem_taken_fresh {names : FreshNames} {stem x : String} :
    x ∈ (names.fresh stem).2.taken ↔ x = (names.fresh stem).1 ∨ x ∈ names.taken :=
  OrderedSet.mem_insert

/-- More names are taken than in another supply, and what is taken afterwards is the same. -/
theorem fresh_of_wider (stem : String) {names names' : FreshNames}
    (h : ∀ x ∈ names'.taken, x ∈ names.taken)
    (hfree : (names'.fresh stem).1 ∈ names.taken → (names'.fresh stem).1 ∈ names'.taken) :
    (names.fresh stem).1 = (names'.fresh stem).1 ∧
      ∀ x, x ∈ (names.fresh stem).2.taken ↔ x ∈ names.taken ∨ x ∈ (names'.fresh stem).2.taken := by
  have hnotMem := fresh_notMem names' stem
  have hleast : IsLeast {n | candidate stem n ∉ names.taken} (names'.next stem) :=
    ⟨fun hmem => hnotMem (hfree hmem), fun m hm => (isLeast_next names' stem).2 (mt (h _) hm)⟩
  have heq : (names.fresh stem).1 = (names'.fresh stem).1 :=
    congrArg (candidate stem) ((isLeast_next names stem).unique hleast)
  refine ⟨heq, fun x => ?_⟩
  rw [mem_taken_fresh, mem_taken_fresh, heq]
  constructor
  · rintro (hx | hx)
    · exact .inr (.inl hx)
    · exact .inl hx
  · rintro (hx | hx | hx)
    · exact .inr hx
    · exact .inl hx
    · exact .inr (h x hx)

/-! ## Several names -/

/-- Some names have been drawn from a supply: they are distinct, none of them was taken before, and
they are what is taken besides from then on. -/
structure Reserves (names : FreshNames) (new : List String) (names' : FreshNames) : Prop where
  nodup : new.Nodup
  free : ∀ x ∈ new, x ∉ names.taken
  taken : ∀ x, x ∈ names'.taken ↔ x ∈ new ∨ x ∈ names.taken

namespace Reserves

variable {names names' names'' : FreshNames} {new new' : List String}

theorem refl (names : FreshNames) : Reserves names [] names :=
  ⟨.nil, fun _ hx => (nomatch hx), fun _ => by simp⟩

theorem fresh (stem : String) (names : FreshNames) :
    Reserves names [(names.fresh stem).1] (names.fresh stem).2 := by
  refine ⟨List.pairwise_singleton _ _, List.forall_mem_singleton.2 (fresh_notMem names stem),
    fun x => ?_⟩
  rw [mem_taken_fresh, List.mem_singleton]

/-- What is drawn later avoids what has been drawn before. -/
theorem append (h : Reserves names new names') (h' : Reserves names' new' names'') :
    Reserves names (new ++ new') names'' := by
  refine ⟨List.nodup_append.2 ⟨h.nodup, h'.nodup, ?_⟩, fun x hx => ?_, fun x => ?_⟩
  · rintro x hx _ hx' rfl
    exact h'.free x hx' ((h.taken x).2 (.inl hx))
  · rcases List.mem_append.1 hx with hx | hx
    · exact h.free x hx
    · exact fun hmem => h'.free x hx ((h.taken x).2 (.inr hmem))
  · rw [h'.taken, h.taken, List.mem_append]
    rw [or_left_comm, or_assoc]

end Reserves

/-- Some names have been drawn from a supply: each is a number behind the stem, they are distinct,
none of them was taken before, and they are what is taken besides from then on. -/
structure Draws (stem : String) (names : FreshNames) (new : List String) (names' : FreshNames) :
    Prop where
  candidates : ∀ x ∈ new, ∃ n, x = candidate stem n
  nodup : new.Nodup
  free : ∀ x ∈ new, x ∉ names.taken
  taken : ∀ x, x ∈ names'.taken ↔ x ∈ new ∨ x ∈ names.taken

namespace Draws

variable {stem : String} {names names' names'' : FreshNames} {new new' : List String}

theorem of_reserves (hcandidates : ∀ x ∈ new, ∃ n, x = candidate stem n)
    (h : Reserves names new names') : Draws stem names new names' :=
  ⟨hcandidates, h.nodup, h.free, h.taken⟩

theorem reserves (h : Draws stem names new names') : Reserves names new names' :=
  ⟨h.nodup, h.free, h.taken⟩

theorem refl (stem : String) (names : FreshNames) : Draws stem names [] names :=
  .of_reserves (List.forall_mem_nil _) (.refl names)

theorem fresh (stem : String) (names : FreshNames) :
    Draws stem names [(names.fresh stem).1] (names.fresh stem).2 :=
  .of_reserves (List.forall_mem_singleton.2 ⟨_, rfl⟩) (.fresh stem names)

theorem append (h : Draws stem names new names') (h' : Draws stem names' new' names'') :
    Draws stem names (new ++ new') names'' :=
  .of_reserves (List.forall_mem_append.2 ⟨h.candidates, h'.candidates⟩)
    (h.reserves.append h'.reserves)

end Draws

/-! ## Any stems -/

/-- Names for some stems, drawn one after the other. -/
def drawAll : List String → FreshNames → List String × FreshNames
  | [], names => ([], names)
  | stem :: stems, names =>
    let (name, names) := names.fresh stem
    let (others, names) := drawAll stems names
    (name :: others, names)

theorem reserves_drawAll (stems : List String) (names : FreshNames) :
    Reserves names (drawAll stems names).1 (drawAll stems names).2 := by
  induction stems generalizing names with
  | nil => exact .refl names
  | cons stem stems ih => exact (Reserves.fresh stem names).append (ih _)

theorem drawAll_append (stems stems' : List String) (names : FreshNames) :
    (drawAll (stems ++ stems') names).1 =
      (drawAll stems names).1 ++ (drawAll stems' (drawAll stems names).2).1 := by
  induction stems generalizing names with
  | nil => rfl
  | cons stem stems ih => exact congrArg _ (ih _)

theorem length_drawAll (stems : List String) (names : FreshNames) :
    (drawAll stems names).1.length = stems.length := by
  induction stems generalizing names with
  | nil => rfl
  | cons stem stems ih => exact congrArg (· + 1) (ih _)

/-- What a supply that avoids some names gives for some stems, one after the other. -/
structure Serves (avoided : OrderedSet String) (stems given : List String) : Prop where
  length_eq : given.length = stems.length
  /-- The search of each call ends, and it ends at the smallest number whose candidate is neither
  avoided nor given before. -/
  call : ∀ before stem behind, stems = before ++ stem :: behind →
    ∃ n others, given = (drawAll before (avoiding avoided)).1 ++ candidate stem n :: others ∧
      Search stem (drawAll before (avoiding avoided)).2.taken
        ((drawAll before (avoiding avoided)).2.counter stem) n ∧
      IsLeast {m | candidate stem m ∉ avoided ∧
        candidate stem m ∉ (drawAll before (avoiding avoided)).1} n
  nodup : given.Nodup
  new : ∀ x ∈ given, x ∉ avoided

/-- Whatever names are avoided and whatever stems are asked for, each call gives the first candidate
that is new, and all names given are distinct and new. -/
theorem serves_drawAll (avoided : OrderedSet String) (stems : List String) :
    Serves avoided stems (drawAll stems (avoiding avoided)).1 where
  length_eq := length_drawAll stems _
  nodup := (reserves_drawAll stems _).nodup
  new := (reserves_drawAll stems _).free
  call := by
    rintro before stem behind rfl
    have hreserves := reserves_drawAll before (avoiding avoided)
    generalize hdraw : drawAll before (avoiding avoided) = drawn at hreserves ⊢
    refine ⟨drawn.2.next stem, (drawAll behind (drawn.2.fresh stem).2).1, ?_, search_next .., ?_⟩
    · rw [drawAll_append, hdraw]
      rfl
    · have hfree : {m | candidate stem m ∉ avoided ∧ candidate stem m ∉ drawn.1} =
          {m | candidate stem m ∉ drawn.2.taken} := by
        ext m
        rw [Set.mem_ofPred_eq, Set.mem_ofPred_eq, hreserves.taken, not_or, and_comm]
        rfl
      rw [hfree]
      exact isLeast_next drawn.2 stem

-- The name drawn for the longer stem is the next candidate of the shorter one, which passes it.
example : (drawAll ["_Gen1", "_Gen"] (avoiding (.ofList ["_Gen0", "_Gen1", "_Gen2", "_Gen3",
    "_Gen4", "_Gen5", "_Gen6", "_Gen7", "_Gen8", "_Gen9"]))).1 = ["_Gen10", "_Gen11"] := by
  cbv

end RewriteSemantics.FreshNames
