import Mathlib.Data.List.Basic
import Mathlib.Data.Nat.ModEq

/-! Slots of equal length laid out around a ring of memory, and the queue of the
slots in use between two positions that wrap. -/
namespace Capio.Library.Ring

variable {β : Type*} {n e : Nat}

abbrev Slot (β : Type*) (e : Nat) := Fin e → β

/-- The `e` cells from an offset. -/
def load (mem : Nat → β) (offset : Nat) : Slot β e := fun i => mem (offset + i)

/-- Copies a slot to an offset. -/
def store (mem : Nat → β) (offset : Nat) (data : Slot β e) : Nat → β :=
  fun a => if h : offset ≤ a ∧ a < offset + e then data ⟨a - offset, by omega⟩ else mem a

theorem load_store_same (mem : Nat → β) (offset : Nat) (data : Slot β e) :
    load (store mem offset data) offset = data := by
  funext i
  have hi : offset ≤ offset + i.val ∧ offset + i.val < offset + e := by omega
  simp only [load, store, dif_pos hi, Nat.add_sub_cancel_left]

theorem load_store_disjoint {e' : Nat} (mem : Nat → β) {offset offset' : Nat} (data : Slot β e)
    (h : offset' + e' ≤ offset ∨ offset + e ≤ offset') :
    load (store mem offset data) offset' = (load mem offset' : Slot β e') := by
  funext i
  have hi : ¬ (offset ≤ offset' + i.val ∧ offset' + i.val < offset + e) := by omega
  simp only [load, store, dif_neg hi]

/-- The byte offset of the `k`-th slot ever used. -/
def offset (n e k : Nat) : Nat := k % n * e

/-- Advancing an offset by a slot modulo the size of the ring. -/
theorem offset_succ (n e k : Nat) : (offset n e k + e) % (n * e) = offset n e (k + 1) := by
  unfold offset
  rw [← Nat.succ_mul, Nat.mul_mod_mul_right, Nat.succ_eq_add_one, Nat.mod_add_mod]

private theorem mod_ne {i j : Nat} (hij : i < j) (hj : j < i + n) : i % n ≠ j % n := by
  intro h
  have hd : n ∣ j - i := (Nat.modEq_iff_dvd' (Nat.le_of_lt hij)).mp h
  have hz : j - i = 0 := Nat.eq_zero_of_dvd_of_lt hd (by omega)
  omega

private theorem slots_apart {a b : Nat} (h : a ≠ b) : a * e + e ≤ b * e ∨ b * e + e ≤ a * e := by
  rcases Nat.lt_or_gt_of_ne h with hlt | hgt
  · left
    calc a * e + e = (a + 1) * e := (Nat.succ_mul a e).symm
      _ ≤ b * e := Nat.mul_le_mul_right e hlt
  · right
    calc b * e + e = (b + 1) * e := (Nat.succ_mul b e).symm
      _ ≤ a * e := Nat.mul_le_mul_right e hgt

/-- Slots used less than a turn of the ring apart do not overlap. -/
theorem offset_apart {i j : Nat} (hij : i < j) (hj : j < i + n) :
    offset n e i + e ≤ offset n e j ∨ offset n e j + e ≤ offset n e i :=
  slots_apart (mod_ne hij hj)

/-- The ring holds the contents, oldest first, from the slot `head` on. -/
structure Contains (n : Nat) (mem : Nat → β) (head : Nat) (contents : List (Slot β e)) : Prop where
  bounded : contents.length ≤ n
  stored : ∀ j (h : j < contents.length), load mem (offset n e (head + j)) = contents[j]

theorem Contains.empty (mem : Nat → β) (head : Nat) :
    Contains n mem head ([] : List (Slot β e)) :=
  ⟨Nat.zero_le n, fun _ h => absurd h (Nat.not_lt_zero _)⟩

/-- Storing behind the contents adds a slot and disturbs none. -/
theorem Contains.push {mem : Nat → β} {head : Nat} {contents : List (Slot β e)}
    (h : Contains n mem head contents) (hroom : contents.length < n) (data : Slot β e) :
    Contains n (store mem (offset n e (head + contents.length)) data) head (contents ++ [data]) := by
  constructor
  · rw [List.length_append, List.length_singleton]
    omega
  · intro j hj
    rw [List.length_append, List.length_singleton] at hj
    rcases Nat.lt_succ_iff_lt_or_eq.mp hj with hold | rfl
    · rw [load_store_disjoint _ _ (offset_apart (by omega) (by omega)), h.stored j hold,
        List.getElem_append_left hold]
    · rw [load_store_same]
      simp

/-- Loading at the head yields the oldest slot. -/
theorem Contains.head_eq {mem : Nat → β} {head : Nat} {data : Slot β e} {rest : List (Slot β e)}
    (h : Contains n mem head (data :: rest)) : load mem (offset n e head) = data :=
  h.stored 0 (Nat.succ_pos _)

theorem Contains.pop {mem : Nat → β} {head : Nat} {data : Slot β e} {rest : List (Slot β e)}
    (h : Contains n mem head (data :: rest)) : Contains n mem (head + 1) rest := by
  constructor
  · exact Nat.le_of_succ_le h.bounded
  · intro j hj
    rw [Nat.add_right_comm head 1 j, Nat.add_assoc head j 1]
    exact h.stored (j + 1) (Nat.succ_lt_succ hj)

end Capio.Library.Ring
