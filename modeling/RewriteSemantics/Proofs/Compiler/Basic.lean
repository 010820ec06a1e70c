/-
# What a compilation gives

A compilation that succeeds has validated the definition and run all passes on it. The compiled
definition holds what the passes made of it, its cell tree, and the symbols that are interned last.
-/
import RewriteSemantics.Compiler.Basic
import RewriteSemantics.Proofs.Result

namespace RewriteSemantics.Compiler

variable {k : Compiler} {asked : Option SortName} {d : Definition} {reg : Registry}
  {c : CompiledDefinition}

/-- The parts of a compiled definition. -/
theorem compileWith_eq_ok (h : (k.compileWith asked d reg).result = .ok c) :
    Violation.anyError (k.validator.validate d) = false ∧
      (Pipeline.run (Pass.standard k.options) d).result = .ok c.compiled ∧
      CellTree.ofModule c.compiled c.compiled.main = .ok c.configuration ∧
      c.symbols = (SymbolTable.build c.compiled c.configuration reg).1 := by
  unfold compileWith at h
  dsimp only at h
  split at h
  · cases h
  · rename_i hvalid
    split at h
    · cases h
    · rename_i compiled hrun
      split at h
      · cases h
      · rename_i tree htree
        cases h
        exact ⟨Bool.eq_false_iff.2 hvalid, hrun, htree, rfl⟩

theorem parsed_of_compileWith (h : (k.compileWith asked d reg).result = .ok c) : c.parsed = d := by
  unfold compileWith at h
  dsimp only at h
  split at h
  · cases h
  · split at h
    · cases h
    · split at h
      · cases h
      · cases h
        rfl

-- This is stated of the function itself: to check an equation between two of its values, the kernel
-- would unfold what is read and read the built-in text.
theorem run_eq : run = fun k text main asked reg => match parseWithBuiltin text main with
    | .error e => .failed [] reg e
    | .ok d => k.compileWith asked d reg :=
  rfl

/-- A text that compiles is read and then compiled. -/
theorem run_eq_ok {text main : String} : (k.run text main asked reg).result = .ok c ↔
    parseWithBuiltin text main = .ok c.parsed ∧
      (k.compileWith asked c.parsed reg).result = .ok c := by
  rw [run_eq]
  cases hread : parseWithBuiltin text main with
  | error e =>
    simp only [hread]
    constructor
    · exact fun h => (nomatch h)
    · exact fun h => (nomatch h.1)
  | ok d =>
    simp only [hread]
    constructor
    · intro h
      rw [parsed_of_compileWith h]
      exact ⟨rfl, h⟩
    · rintro ⟨hparsed, h⟩
      rwa [Except.ok.inj hparsed]

end RewriteSemantics.Compiler
