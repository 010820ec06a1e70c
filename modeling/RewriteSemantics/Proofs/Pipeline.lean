/-
# Runs of passes

A run that succeeds is a chain of successful passes, so it can be cut at any pass, and what holds of
each pass and composes holds of the run.
-/
import RewriteSemantics.Pipeline
import RewriteSemantics.Proofs.Result

namespace RewriteSemantics.Pipeline

variable {p : Pass} {ps qs : List Pass} {d e : Definition}

theorem run_nil : (run [] d).result = .ok e ↔ e = d := by
  rw [run, Except.ok.injEq, eq_comm]

theorem run_cons :
    (run (p :: ps) d).result = .ok e ↔ ∃ d₁, p.run d = .ok d₁ ∧ (run ps d₁).result = .ok e := by
  rw [run]
  cases p.run d with
  | error fault => simp
  | ok d₁ => simp

/-- A run of one list of passes behind another. -/
theorem run_append : (run (ps ++ qs) d).result = .ok e ↔
    ∃ d₁, (run ps d).result = .ok d₁ ∧ (run qs d₁).result = .ok e := by
  induction ps generalizing d with
  | nil => simp [run_nil]
  | cons p ps ih =>
    rw [List.cons_append, run_cons]
    constructor
    · rintro ⟨d₁, hp, h⟩
      obtain ⟨d₂, hps, hqs⟩ := ih.1 h
      exact ⟨d₂, run_cons.2 ⟨d₁, hp, hps⟩, hqs⟩
    · rintro ⟨d₂, hps, hqs⟩
      obtain ⟨d₁, hp, hps⟩ := run_cons.1 hps
      exact ⟨d₁, hp, ih.2 ⟨d₂, hps, hqs⟩⟩

/-- A relation that holds from before to after each pass holds from before to after the run. -/
theorem run_rel {R : Definition → Definition → Prop} (hrefl : ∀ d, R d d)
    (htrans : ∀ d e f, R d e → R e f → R d f)
    (hpass : ∀ p ∈ ps, ∀ d e, p.run d = .ok e → R d e) (h : (run ps d).result = .ok e) :
    R d e := by
  induction ps generalizing d with
  | nil =>
    rw [run_nil.1 h]
    exact hrefl d
  | cons p ps ih =>
    obtain ⟨d₁, hp, hps⟩ := run_cons.1 h
    have hfirst := hpass p List.mem_cons_self d d₁ hp
    exact htrans d d₁ e hfirst (ih (fun q hq => hpass q (List.mem_cons_of_mem _ hq)) hps)

end RewriteSemantics.Pipeline
