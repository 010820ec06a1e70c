/-
# Compiling again

A compilation touches the registry last and only by interning keys that depend on the definition
alone. So it either fails without a trace, or all its keys are known from then on: whatever the
registry is used for in between, compiling again finds the same symbols and creates none.
-/
import Mathlib
import RewriteSemantics.Proofs.Compiler.Basic
import RewriteSemantics.Proofs.Symbol.Table

namespace RewriteSemantics

/-! ## Uses of a registry -/

/-- A compilation, of a text or of a definition. -/
inductive Compiler.Job where
  | run (k : Compiler) (text main : String) (asked : Option SortName)
  | runConfigured (k : Compiler) (text : String)
  | compile (k : Compiler) (asked : Option SortName) (d : Definition)

/-- What a compilation leaves behind, given the registry it is made against. -/
def Compiler.Job.perform : Job → Registry → Compilation
  | .run k text main asked => k.run text main asked
  | .runConfigured k text => k.runConfigured text
  | .compile k asked d => k.compileWith asked d

/-- A use of a registry: a call of its own, or a compilation against it. -/
inductive Registry.Use where
  | call (call : Registry.Call)
  | compile (job : Compiler.Job)

namespace Registry

/-- The registry after one use. -/
def use (r : Registry) : Use → Registry
  | .call call => (r.perform call).2
  | .compile job => (job.perform r).registry

/-- The registry after some uses one after the other. -/
def after (r : Registry) (uses : List Use) : Registry :=
  uses.foldl use r

end Registry

namespace Compiler

variable {k : Compiler} {asked : Option SortName} {d : Definition} {r r' : Registry}

/-! ## One compilation -/

/-- Whether a definition compiles, and into what, does not depend on the registry: a compilation
fails and leaves every registry as it is, or it builds the same table from every registry. -/
theorem compileWith_cases (k : Compiler) (asked : Option SortName) (d : Definition) :
    (∃ e, ∀ r, (k.compileWith asked d r).result = .error e ∧
      (k.compileWith asked d r).registry = r) ∨
    ∃ compiled tree, ∀ r,
      (k.compileWith asked d r).result = .ok (assemble k.options asked d compiled tree r).1 ∧
        (k.compileWith asked d r).registry = (SymbolTable.build compiled tree r).2 := by
  by_cases hinvalid : Violation.anyError (k.validator.validate d) = true
  · refine .inl ⟨.invalid (k.validator.validate d), fun r => ?_⟩
    simp only [compileWith, if_pos hinvalid, Compilation.failed, and_self]
  cases hrun : (Pipeline.run (Pass.standard k.options) d).result with
  | error failure =>
    refine .inl ⟨.pass failure, fun r => ?_⟩
    simp only [compileWith, if_neg hinvalid, hrun, and_self]
  | ok compiled =>
    cases htree : CellTree.ofModule compiled compiled.main with
    | error fault =>
      refine .inl ⟨.definition fault, fun r => ?_⟩
      simp only [compileWith, if_neg hinvalid, hrun, htree, and_self]
    | ok tree =>
      refine .inr ⟨compiled, tree, fun r => ?_⟩
      simp only [compileWith, if_neg hinvalid, hrun, htree, assemble, and_self]

/-- A use that may fail, and then leaves no trace, or else gives something and leaves the registry
such that the same use of any later registry gives the same and leaves that one as it is. -/
structure Settles (use : Registry → Compilation) : Prop where
  kept : ∀ r : Registry, r.Kept → (use r).registry.Kept ∧ r.Grows (use r).registry
  failed : ∀ r e, (use r).result = .error e → (use r).registry = r
  again : ∀ r r' c, r.Kept → (use r).result = .ok c → (use r).registry.Grows r' →
    (use r').result = .ok c ∧ (use r').registry = r'

/-- What fails before the registry is touched leaves no trace. -/
theorem settles_failed (log : List LogEntry) (e : CompileError) :
    Settles fun r => .failed log r e where
  kept r h := ⟨h, .refl r⟩
  failed r e _ := rfl
  again r r' c h hok := by cases hok

theorem settles_compileWith (k : Compiler) (asked : Option SortName) (d : Definition) :
    Settles (k.compileWith asked d) := by
  rcases compileWith_cases k asked d with ⟨e, hfails⟩ | ⟨compiled, tree, hbuilds⟩
  · refine ⟨fun r h => ?_, fun r e' _ => (hfails r).2, fun r r' c h hok => ?_⟩
    · rw [(hfails r).2]
      exact ⟨h, .refl r⟩
    · rw [(hfails r).1] at hok
      cases hok
  · refine ⟨fun r h => ?_, fun r e herror => ?_, fun r r' c h hok hgrows => ?_⟩
    · rw [(hbuilds r).2]
      exact SymbolTable.kept_internAll h
    · rw [(hbuilds r).1] at herror
      cases herror
    · rw [(hbuilds r).1] at hok
      rw [(hbuilds r).2] at hgrows
      have hagain : SymbolTable.build compiled tree r' =
          ((SymbolTable.build compiled tree r).1, r') := SymbolTable.internAll_again h hgrows
      cases hok
      rw [(hbuilds r').1, (hbuilds r').2, assemble, assemble, hagain]
      exact ⟨rfl, rfl⟩

theorem settles_run (k : Compiler) (text main : String) (asked : Option SortName) :
    Settles (k.run text main asked) := by
  rw [run_eq]
  cases hread : parseWithBuiltin text main with
  | error e =>
    simp only [hread]
    exact settles_failed [] e
  | ok d =>
    simp only [hread]
    exact settles_compileWith k asked d

theorem settles_runConfigured (k : Compiler) (text : String) : Settles (k.runConfigured text) := by
  cases hmain : k.options.mainModule with
  | none =>
    have hconfigured : k.runConfigured text = fun r => .failed [] r .missingMainModule := by
      funext r
      rw [runConfigured, hmain]
    rw [hconfigured]
    exact settles_failed [] .missingMainModule
  | some main =>
    have hconfigured : k.runConfigured text = k.run text main none := by
      funext r
      rw [runConfigured, hmain]
    rw [hconfigured]
    exact settles_run k text main none

theorem Job.settles (job : Job) : Settles job.perform := by
  cases job with
  | run k text main asked => exact settles_run k text main asked
  | runConfigured k text => exact settles_runConfigured k text
  | compile k asked d => exact settles_compileWith k asked d

end Compiler

/-! ## Histories -/

namespace Registry

variable {r : Registry}

theorem Kept.use (h : r.Kept) (use : Use) : (r.use use).Kept ∧ r.Grows (r.use use) := by
  cases use with
  | call call => exact h.perform call
  | compile job => exact job.settles.kept r h

/-- Whatever a registry is used for, it keeps its books and forgets nothing. -/
theorem Kept.after (h : r.Kept) (uses : List Use) :
    (r.after uses).Kept ∧ r.Grows (r.after uses) := by
  induction uses generalizing r with
  | nil => exact ⟨h, .refl r⟩
  | cons use uses ih =>
    obtain ⟨hkept, hgrows⟩ := h.use use
    obtain ⟨hkept', hgrows'⟩ := ih hkept
    exact ⟨hkept', hgrows.trans hgrows'⟩

end Registry

namespace Compiler

/-- A run against a registry with any history leaves the registry as it was if it fails. If it
succeeds, then whatever the registry is used for afterwards, running again gives the same compiled
definition, with the same symbols, and leaves the registry as it is. -/
theorem run_again (before : List Registry.Use) (k : Compiler) (text main : String)
    (asked : Option SortName) :
    match (k.run text main asked (Registry.after ∅ before)).result with
    | .error _ => (k.run text main asked (.after ∅ before)).registry = .after ∅ before
    | .ok c => ∀ later : List Registry.Use,
      let r := (k.run text main asked (.after ∅ before)).registry.after later
      (k.run text main asked r).result = .ok c ∧ (k.run text main asked r).registry = r := by
  have hsettles := settles_run k text main asked
  have hkept := (Registry.kept_empty.after before).1
  generalize Registry.after ∅ before = r at hkept ⊢
  cases hrun : (k.run text main asked r).result with
  | error e => exact hsettles.failed r e hrun
  | ok c =>
    intro later
    have hgrows := ((hsettles.kept r hkept).1.after later).2
    exact hsettles.again r _ c hkept hrun hgrows

end Compiler

end RewriteSemantics
