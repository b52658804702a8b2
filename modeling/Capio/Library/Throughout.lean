import Mathlib.Data.List.Induction

/-! Properties that each element of a list has of the elements before it, such as
each call of a history of the calls before it. -/
namespace Capio.Library

variable {α : Type*} {P C : List α → α → Prop}

def Throughout (P : List α → α → Prop) (as : List α) : Prop :=
  ∀ pre a post, as = pre ++ a :: post → P pre a

namespace Throughout

theorem nil : Throughout P [] := by
  intro pre a post h
  simp at h

theorem concat_iff {as : List α} {a : α} : Throughout P (as ++ [a]) ↔ Throughout P as ∧ P as a := by
  constructor
  · intro h
    refine ⟨fun pre b post he => h pre b (post ++ [a]) ?_, h as a [] rfl⟩
    rw [he, List.append_assoc, List.cons_append]
  · rintro ⟨hall, hlast⟩ pre b post he
    induction post using List.reverseRecOn with
    | nil =>
      obtain ⟨rfl, hb⟩ := List.append_inj' he rfl
      rw [List.cons.injEq] at hb
      exact hb.1 ▸ hlast
    | append_singleton post c _ =>
      rw [← List.cons_append, ← List.append_assoc] at he
      exact hall pre b post (List.append_inj' he rfl).1

/-- Where an invariant makes a property of the next element the same as a condition on it, and
the property keeps the invariant, the property and the condition hold throughout the same lists.
`W` is what is assumed of the whole list. -/
theorem iff_of_invariant (W I : List α → Prop) (shrink : ∀ as a, W (as ++ [a]) → W as) (h0 : I [])
    (exact : ∀ as a, W (as ++ [a]) → I as → (P as a ↔ C as a))
    (keep : ∀ as a, W (as ++ [a]) → I as → P as a → I (as ++ [a])) (as : List α) (hW : W as) :
    (Throughout P as ↔ Throughout C as) ∧ (Throughout P as → I as) := by
  induction as using List.reverseRecOn with
  | nil => exact ⟨iff_of_true nil nil, fun _ => h0⟩
  | append_singleton as a ih =>
    obtain ⟨hiff, hinv⟩ := ih (shrink as a hW)
    rw [concat_iff, concat_iff]
    refine ⟨?_, fun ⟨hall, hlast⟩ => keep as a hW (hinv hall) hlast⟩
    rw [← hiff]
    exact and_congr_right fun hall => exact as a hW (hinv hall)

end Throughout
end Capio.Library
