/-
Sums over the entries of a table: changing one entry exchanges one summand.
-/
import Mathlib.Algebra.BigOperators.Fin

namespace MiniOs.Library

open Function

/-- A sum over a table, split at one entry: the rest stays when the entry is replaced. -/
theorem exists_sum_rest {ι β M : Type} [DecidableEq ι] [AddCommMonoid M] {s : Finset ι} {i : ι} (hi : i ∈ s)
    (g : β → M) (f : ι → β) :
    ∃ rest, ∑ j ∈ s, g (f j) = rest + g (f i) ∧ ∀ v, ∑ j ∈ s, g (update f i v j) = rest + g v := by
  refine ⟨∑ j ∈ s \ {i}, g (f j), ?_, fun v => ?_⟩
  · exact Finset.sum_eq_sum_sdiff_singleton_add hi fun j => g (f j)
  · have hcomp : (fun j => g (update f i v j)) = update (fun j => g (f j)) i (g v) := by
      funext j
      by_cases e : j = i
      · subst e; simp
      · simp [e]
    rw [hcomp, Finset.sum_update_of_mem hi, add_comm]

end MiniOs.Library
