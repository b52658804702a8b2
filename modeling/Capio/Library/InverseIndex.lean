import Capio.Library.UnorderedMap

/-! A table and an index that lists, under each value, the keys mapped to it. The
rules say when a pair of updates keeps the two in step. -/
namespace Capio.Library

variable {κ ν : Type} [DecidableEq κ] [DecidableEq ν]

def Indexes (table : UnorderedMap κ ν) (index : UnorderedMap ν (UnorderedSet κ)) : Prop :=
  ∀ k v, table.lookup k = some v ↔ ∃ ks, index.lookup v = some ks ∧ k ∈ ks

namespace Indexes
variable {table : UnorderedMap κ ν} {index : UnorderedMap ν (UnorderedSet κ)} {k : κ} {v w : ν}
  {ks : UnorderedSet κ}

theorem empty : Indexes (∅ : UnorderedMap κ ν) ∅ := by
  intro k v
  rw [AList.lookup_empty]
  exact iff_of_false (nofun) (fun ⟨_, hks, _⟩ => (nomatch hks))

theorem congr {table' : UnorderedMap κ ν} (h : ∀ k, table'.lookup k = table.lookup k) :
    Indexes table' index ↔ Indexes table index := by
  unfold Indexes
  simp only [h]

theorem mem_iff (h : Indexes table index) (hks : index.lookup v = some ks) :
    k ∈ ks ↔ table.lookup k = some v := by
  rw [h k v, hks]
  simp

/-- The value of a key has a list. -/
theorem listed (h : Indexes table index) (hk : table.lookup k = some v) :
    ∃ ks, index.lookup v = some ks ∧ k ∈ ks :=
  (h k v).mp hk

theorem emplace_nil (h : Indexes table index) (v : ν) :
    Indexes table (UnorderedMap.emplace index v ∅) := by
  intro k u
  rw [h k u, UnorderedMap.lookup_emplace]
  split_ifs with hu
  · subst hu
    cases index.lookup u with
    | none => simp
    | some ks => simp
  · exact Iff.rfl

/-- Listing a key under a value without overwriting what the table has for it keeps
the two in step just when the table has nothing else for it. -/
theorem emplace_iff (h : Indexes table index) (hks : index.lookup v = some ks) :
    Indexes (UnorderedMap.emplace table k v) (AList.insert v (UnorderedMap.emplace ks k ()) index) ↔
      ∀ w, table.lookup k = some w → w = v := by
  constructor
  · intro hnew w hw
    have hlisted : (UnorderedMap.emplace table k v).lookup k = some v :=
      (hnew k v).mpr ⟨_, AList.lookup_insert index, (UnorderedMap.mem_emplace ks k k ()).mpr (.inl rfl)⟩
    rw [UnorderedMap.lookup_emplace, if_pos rfl, hw] at hlisted
    exact Option.some.inj hlisted
  · intro honly i u
    rw [UnorderedMap.lookup_emplace, UnorderedMap.lookup_insert_eq]
    split_ifs with hi hu hu
    · subst hi hu
      refine iff_of_true ?_ ⟨_, rfl, (UnorderedMap.mem_emplace ks i i ()).mpr (.inl rfl)⟩
      cases hw : table.lookup i with
      | none => rfl
      | some w => rw [honly w hw, Option.getD_some]
    · subst hi
      rw [← h i u]
      cases hw : table.lookup i with
      | none => exact iff_of_false (fun he => hu (Option.some.inj he).symm) (nofun)
      | some w => rfl
    · subst hu
      simp only [Option.some.injEq, exists_eq_left', UnorderedMap.mem_emplace, hi, false_or]
      exact (h.mem_iff hks).symm
    · exact h i u

theorem erase (h : Indexes table index) (hk : table.lookup k = some v) (hks : index.lookup v = some ks) :
    Indexes (AList.erase k table) (AList.insert v (AList.erase k ks) index) := by
  intro i u
  rw [UnorderedMap.lookup_erase_eq, UnorderedMap.lookup_insert_eq]
  split_ifs with hi hu hu
  · subst hi
    simp [AList.mem_erase]
  · subst hi
    rw [← h i u, hk]
    exact iff_of_false (nofun) (fun he => hu (Option.some.inj he).symm)
  · subst hu
    simp only [Option.some.injEq, exists_eq_left', AList.mem_erase, ne_eq, hi, not_false_eq_true, true_and]
    exact (h.mem_iff hks).symm
  · exact h i u

/-- A value can lose its list just when it has no keys. -/
theorem erase_value_iff (h : Indexes table index) :
    Indexes table (AList.erase v index) ↔ ∀ k, table.lookup k ≠ some v := by
  constructor
  · intro hnew k hk
    obtain ⟨ks, hks, _⟩ := hnew.listed hk
    rw [AList.lookup_erase] at hks
    cases hks
  · intro hv k u
    rw [h k u, UnorderedMap.lookup_erase_eq]
    split_ifs with hu
    · subst hu
      exact iff_of_false (fun hlisted => hv k ((h k u).mpr hlisted)) (fun ⟨_, hks, _⟩ => (nomatch hks))
    · exact Iff.rfl

/-- A list that is moved to a new value takes its keys along. -/
theorem rename {table' : UnorderedMap κ ν} (h : Indexes table index) (hks : index.lookup v = some ks)
    (hw : (AList.erase v index).lookup w = none)
    (hmoved : ∀ k, table'.lookup k = if k ∈ ks then some w else table.lookup k) :
    Indexes table' (AList.insert w ks (AList.erase v index)) := by
  have hothers (k : κ) (hk : k ∉ ks) (u : ν) :
      table.lookup k = some u ↔ ∃ ls, (AList.erase v index).lookup u = some ls ∧ k ∈ ls := by
    rw [h k u, UnorderedMap.lookup_erase_eq]
    split_ifs with hu
    · subst hu
      rw [hks]
      exact iff_of_false (fun ⟨_, he, hmem⟩ => hk (Option.some.inj he ▸ hmem)) (fun ⟨_, hn, _⟩ => (nomatch hn))
    · exact Iff.rfl
  intro k u
  rw [hmoved k, UnorderedMap.lookup_insert_eq]
  split_ifs with hk hu hu
  · exact iff_of_true (by rw [hu]) ⟨ks, rfl, hk⟩
  · apply iff_of_false (fun he => hu (Option.some.inj he).symm)
    rw [UnorderedMap.lookup_erase_eq]
    split_ifs with huv
    · exact fun ⟨_, hn, _⟩ => (nomatch hn)
    · rw [← h k u, (h.mem_iff hks).mp hk]
      exact fun he => huv (Option.some.inj he).symm
  · rw [hothers k hk u, hu, hw]
    exact iff_of_false (fun ⟨_, hn, _⟩ => (nomatch hn)) (fun ⟨_, he, hmem⟩ => hk (Option.some.inj he ▸ hmem))
  · exact hothers k hk u

end Indexes
end Capio.Library
