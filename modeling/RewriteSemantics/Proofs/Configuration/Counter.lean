/-
# Extending the first configuration

The counter cell goes into the first configuration of a module. Every other sentence stays as it is
and where it is.
-/
import RewriteSemantics.Configuration.Counter

namespace RewriteSemantics.Counter

theorem extendFirst_append (ss ts : List Sentence) :
    extendFirst (ss ++ ts) = if ss.any (·.asConfiguration?.isSome) then extendFirst ss ++ ts
      else ss ++ extendFirst ts := by
  induction ss with
  | nil => rfl
  | cons s ss ih =>
    cases s with
    | configuration c => rfl
    | _ =>
      show _ :: extendFirst (ss ++ ts) = _
      rw [ih]
      by_cases hss : ss.any (·.asConfiguration?.isSome) = true
      · rw [if_pos hss, if_pos (by simpa [Sentence.asConfiguration?] using hss)]
        rfl
      · rw [if_neg hss, if_neg (by simpa [Sentence.asConfiguration?] using hss)]
        rfl

theorem mem_extendFirst {ss : List Sentence} {s : Sentence} (hs : s.asConfiguration? = none)
    (h : s ∈ ss) : s ∈ extendFirst ss := by
  induction ss with
  | nil => exact h
  | cons t ss ih =>
    cases t with
    | configuration c =>
      rcases List.mem_cons.1 h with rfl | h
      · cases hs
      · exact List.mem_cons_of_mem _ h
    | _ =>
      rcases List.mem_cons.1 h with heq | h
      · exact List.mem_cons.2 (.inl heq)
      · exact List.mem_cons_of_mem _ (ih h)

theorem length_extendFirst (ss : List Sentence) : (extendFirst ss).length = ss.length := by
  induction ss with
  | nil => rfl
  | cons s ss ih =>
    cases s with
    | configuration c => rfl
    | _ => exact congrArg (· + 1) ih

end RewriteSemantics.Counter
