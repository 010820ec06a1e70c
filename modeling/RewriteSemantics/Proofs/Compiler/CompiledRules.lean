/-
# Compiled rules

A rule that is compiled against a compiled definition is named, sorted and placed. Each of the three
steps finds nothing to do in what comes out in the end: no anonymous variable and no cast is brought
back by the placing, and a body that has been placed is placed already.
-/
import RewriteSemantics.Proofs.Compiler.Basic
import RewriteSemantics.Proofs.Compiler.SingleRule
import RewriteSemantics.Proofs.Concretization.Rereading
import RewriteSemantics.Proofs.Rule.Clean

namespace RewriteSemantics

/-- Placing the cells of a clean rule leaves it clean. -/
theorem Concretization.clean_resolveRule {configuration : Term} {tree : CellTree} {d : Definition}
    {r r' : Rule} (ht : CellTree.ofTerm configuration = .ok tree) (hclean : r.Clean)
    (hr : resolveRule tree d r = .ok r') : r'.Clean := by
  rcases exists_body_of_resolveRule ht hr with ⟨-, rfl⟩ | ⟨l, f, -, hf, rfl⟩
  · exact hclean
  · obtain ⟨hbody, hrequires, hensures⟩ := Rule.forall_mem_terms.1 hclean
    have hstock := fragmentsOf_of_hereditary Term.hereditary_clean hbody hf
    have hplaced := place_of_hereditary Term.hereditary_clean hstock l f.names
    exact Rule.forall_mem_terms.2 ⟨hplaced, hrequires, hensures⟩

namespace Compiler

variable {k : Compiler} {c : CompiledDefinition} {r r' : Rule}

/-- Compiling a rule is preparing it and placing its cells. -/
theorem compileRule_eq_ok : k.compileRule c r = .ok r' ↔
    Concretization.resolveRule c.configuration c.compiled
      (r.prepared k.options.skipSortPredicates) = .ok r' :=
  Except.mapError_eq_ok

/-- A compiled rule is compiled already: compiling it against the same definition gives it back. -/
theorem compileRule_eq_self {asked : Option SortName} {d : Definition} {reg : Registry}
    (hc : (k.compileWith asked d reg).result = .ok c) (hr : k.compileRule c r = .ok r') :
    k.compileRule c r' = .ok r' := by
  obtain ⟨-, -, htree, -⟩ := compileWith_eq_ok hc
  obtain ⟨configuration, ht⟩ := Definition.exists_configuration htree
  rw [compileRule_eq_ok] at hr ⊢
  have hclean : r'.Clean := Concretization.clean_resolveRule ht (Rule.clean_prepared _ r) hr
  rw [hclean.prepared_eq_self]
  exact Concretization.resolveRule_eq_self ht hr

theorem compileRule_eq_self_fooRule : ∃ c r',
    ((ofOptions .default).compileWith none twoCellDefinition .empty).result = .ok c ∧
      (ofOptions .default).compileRule c fooRule = .ok r' ∧
      (ofOptions .default).compileRule c r' = .ok r' := by
  have hcompiles : (((ofOptions .default).compileWith none twoCellDefinition
      .empty).result.toOption.bind fun c =>
        ((ofOptions .default).compileRule c fooRule).toOption).isSome = true := by cbv
  obtain ⟨r', hr'⟩ := Option.isSome_iff_exists.1 hcompiles
  obtain ⟨c, hc, hr'⟩ := Option.bind_eq_some_iff.1 hr'
  have hc := Except.toOption_eq_some.1 hc
  have hr' := Except.toOption_eq_some.1 hr'
  exact ⟨c, r', hc, hr', compileRule_eq_self hc hr'⟩

end Compiler

end RewriteSemantics
