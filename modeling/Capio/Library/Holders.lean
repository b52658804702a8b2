import Mathlib.Data.Finset.Card

/-! How many of any number of processes are in a given phase. -/
namespace Capio.Library

variable {ι : Type*}

/-- Exactly `k` processes have the property. -/
def Holders (p : ι → Prop) (k : Nat) : Prop := ∃ s : Finset ι, (∀ i, i ∈ s ↔ p i) ∧ s.card = k

namespace Holders
variable {p : ι → Prop} {k : Nat} {i : ι}

theorem none (h : ∀ i, ¬ p i) : Holders p 0 :=
  ⟨∅, fun i => iff_of_false (Finset.notMem_empty i) (h i), rfl⟩

theorem eq_zero (h : Holders p k) (hp : ∀ i, ¬ p i) : k = 0 := by
  obtain ⟨s, hs, rfl⟩ := h
  exact Finset.card_eq_zero.mpr (Finset.eq_empty_of_forall_notMem fun i hi => hp i ((hs i).mp hi))

variable [DecidableEq ι] {π : Type*} {phase : ι → π} {P : π → Prop} {x : π}

private theorem update_iff (P : π → Prop) (phase : ι → π) (i : ι) (x : π) (j : ι) :
    P (Function.update phase i x j) ↔ (j = i ∧ P x) ∨ (j ≠ i ∧ P (phase j)) := by
  by_cases hj : j = i
  · subst hj
    simp
  · simp [hj]

/-- A process enters the phase. -/
theorem enter (h : Holders (fun j => P (phase j)) k) (hi : ¬ P (phase i)) (hx : P x) :
    Holders (fun j => P (Function.update phase i x j)) (k + 1) := by
  obtain ⟨s, hs, rfl⟩ := h
  refine ⟨insert i s, ?_, Finset.card_insert_of_notMem (fun hm => hi ((hs i).mp hm))⟩
  intro j
  change j ∈ insert i s ↔ P (Function.update phase i x j)
  rw [Finset.mem_insert, hs, update_iff P phase i x j]
  constructor
  · rintro (hj | hj)
    · exact .inl ⟨hj, hx⟩
    · exact .inr ⟨fun he => hi (he ▸ hj), hj⟩
  · exact Or.imp And.left And.right

/-- A process leaves the phase. -/
theorem leave (h : Holders (fun j => P (phase j)) k) (hi : P (phase i)) (hx : ¬ P x) :
    0 < k ∧ Holders (fun j => P (Function.update phase i x j)) (k - 1) := by
  obtain ⟨s, hs, rfl⟩ := h
  have hm : i ∈ s := (hs i).mpr hi
  refine ⟨Finset.card_pos.mpr ⟨i, hm⟩, s.erase i, ?_, Finset.card_erase_of_mem hm⟩
  intro j
  change j ∈ s.erase i ↔ P (Function.update phase i x j)
  rw [Finset.mem_erase, hs, update_iff P phase i x j]
  exact ⟨.inr, fun hj => hj.elim (fun hj => absurd hj.2 hx) id⟩

/-- A process moves between other phases. -/
theorem stay (h : Holders (fun j => P (phase j)) k) (hi : ¬ P (phase i)) (hx : ¬ P x) :
    Holders (fun j => P (Function.update phase i x j)) k := by
  obtain ⟨s, hs, rfl⟩ := h
  refine ⟨s, ?_, rfl⟩
  intro j
  change j ∈ s ↔ P (Function.update phase i x j)
  rw [hs, update_iff P phase i x j]
  constructor
  · exact fun hj => .inr ⟨fun he => hi (he ▸ hj), hj⟩
  · rintro (⟨_, hj⟩ | ⟨_, hj⟩)
    · exact absurd hj hx
    · exact hj

end Holders
end Capio.Library
