import Mathlib.Logic.Function.Basic
import Mathlib.Tactic.SplitIfs

/-! Mutual exclusion by names of which each is taken by at most one holder. -/
namespace Capio.Library

variable {ι κ : Type*}

/-- A held name is taken, and by nobody else. -/
structure Excludes (holds : ι → Option κ) (taken : κ → Prop) : Prop where
  taken : ∀ i k, holds i = some k → taken k
  unique : ∀ i j k, holds i = some k → holds j = some k → i = j

namespace Excludes
variable {holds : ι → Option κ} {taken taken' : κ → Prop} {i : ι} {k : κ}

theorem none (taken : κ → Prop) : Excludes (fun _ : ι => (Option.none : Option κ)) taken :=
  ⟨fun _ _ h => (nomatch h), fun _ _ _ h => (nomatch h)⟩

/-- More names are taken, by whomever. -/
theorem mono (h : Excludes holds taken) (ht : ∀ l, taken l → taken' l) : Excludes holds taken' :=
  ⟨fun j l hl => ht l (h.taken j l hl), h.unique⟩

variable [DecidableEq ι]

/-- A free name is taken by one who creates it. -/
theorem acquire (h : Excludes holds taken) (hfree : ¬ taken k) (hk : taken' k)
    (ht : ∀ l, taken l → taken' l) : Excludes (Function.update holds i (some k)) taken' := by
  have hnot (j : ι) : holds j ≠ some k := fun hj => hfree (h.taken j k hj)
  constructor
  · intro j l hl
    rw [Function.update_apply] at hl
    split_ifs at hl
    · cases hl
      exact hk
    · exact ht l (h.taken j l hl)
  · intro j j' l hl hl'
    rw [Function.update_apply] at hl hl'
    split_ifs at hl hl' with hj hj' hj'
    · rw [hj, hj']
    · cases hl
      exact absurd hl' (hnot j')
    · cases hl'
      exact absurd hl (hnot j)
    · exact h.unique j j' l hl hl'

/-- The holder gives its name back. -/
theorem release (h : Excludes holds taken) (hi : holds i = some k)
    (ht : ∀ l, l ≠ k → taken l → taken' l) : Excludes (Function.update holds i Option.none) taken' := by
  constructor
  · intro j l hl
    rw [Function.update_apply] at hl
    split_ifs at hl with hj
    have hne : l ≠ k := by
      rintro rfl
      exact hj (h.unique j i l hl hi)
    exact ht l hne (h.taken j l hl)
  · intro j j' l hl hl'
    rw [Function.update_apply] at hl hl'
    split_ifs at hl hl' with hj hj'
    exact h.unique j j' l hl hl'

end Excludes
end Capio.Library
