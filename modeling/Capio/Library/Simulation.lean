import Capio.Library.Fairness

/-! A system that does in more steps what another does, for runs with and without an end. -/
namespace Capio.Library

variable {σ ι τ κ : Type*} {Part : σ → ι → σ → Prop} {Whole : τ → κ → τ → Prop} {R : σ → τ → Prop}
  {f : Transition σ ι → Option κ} {s t : σ} {a : τ} {ts : List (Transition σ ι)}

/-- Each step in the states of the relation is one of the other system, or leaves its state alone. -/
def Simulates (Part : σ → ι → σ → Prop) (Whole : τ → κ → τ → Prop) (R : σ → τ → Prop)
    (f : Transition σ ι → Option κ) : Prop :=
  ∀ ⦃s l t a⦄, R s a → Part s l t → ∃ b, Stutters Whole a (f ⟨s, l, t⟩) b ∧ R t b

theorem Run.simulated (hsim : Simulates Part Whole R f) (hstart : R s a) (h : Run Part s ts t) :
    ∃ us b, Run Whole a us b ∧ R t b ∧ us.map Transition.label = ts.filterMap f := by
  induction h with
  | nil => exact ⟨[], a, .nil, hstart, rfl⟩
  | @snoc ts t l u _ hstep ih =>
    obtain ⟨us, b, hrun, hr, hlabels⟩ := ih
    obtain ⟨c, hone, hr'⟩ := hsim hr hstep
    cases hf : f ⟨t, l, u⟩ with
    | none =>
      rw [hf] at hone
      obtain rfl : c = b := hone
      refine ⟨us, c, hrun, hr', ?_⟩
      rw [List.filterMap_append, hlabels]
      simp [hf]
    | some k =>
      rw [hf] at hone
      refine ⟨us ++ [⟨b, k, c⟩], c, hrun.snoc hone, hr', ?_⟩
      rw [List.map_append, List.filterMap_append, hlabels]
      simp [hf]

end Capio.Library
