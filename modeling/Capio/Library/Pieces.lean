import Capio.Library.Ring
import Mathlib.Data.List.OfFn

/-! Copying a range of memory piece by piece. A piece is an address and a length, and
the memory has cells before and behind the range. -/
namespace Capio.Library.Pieces
open Capio.Library.Ring

variable {β : Type*} {src dst : Int → β} {ps : List (Int × Nat)} {n : Nat}

/-- The cells of a piece. -/
def fetch (mem : Int → β) (p : Int) (len : Nat) : Slot β len := fun j => mem (p + j.val)

def place {len : Nat} (mem : Int → β) (p : Int) (data : Slot β len) : Int → β :=
  fun a => if h : p ≤ a ∧ a < p + len then data ⟨(a - p).toNat, by omega⟩ else mem a

theorem place_fetch (src dst : Int → β) (p : Int) (len : Nat) (a : Int) :
    place dst p (fetch src p len) a = if p ≤ a ∧ a < p + len then src a else dst a := by
  unfold place
  split_ifs with h
  · have ha : p + ((a - p).toNat : Int) = a := by omega
    exact congrArg src ha
  · rfl

def copyPieces (src dst : Int → β) (ps : List (Int × Nat)) : Int → β :=
  ps.foldl (fun dst x => place dst x.1 (fetch src x.1 x.2)) dst

def bytesOf (src : Int → β) (ps : List (Int × Nat)) : List β :=
  ps.flatMap fun x => List.ofFn (fetch src x.1 x.2)

theorem copyPieces_snoc (src dst : Int → β) (ps : List (Int × Nat)) (x : Int × Nat) :
    copyPieces src dst (ps ++ [x]) = place (copyPieces src dst ps) x.1 (fetch src x.1 x.2) := by
  simp [copyPieces]

theorem bytesOf_snoc (src : Int → β) (ps : List (Int × Nat)) (x : Int × Nat) :
    bytesOf src (ps ++ [x]) = bytesOf src ps ++ List.ofFn (fetch src x.1 x.2) := by
  simp [bytesOf]

theorem length_bytesOf (src : Int → β) (ps : List (Int × Nat)) :
    (bytesOf src ps).length = (ps.map Prod.snd).sum := by
  simp [bytesOf]

/-- The pieces follow each other from the first cell on and cover `n` cells. -/
inductive Tiles : List (Int × Nat) → Nat → Prop
  | nil : Tiles [] 0
  | snoc {ps : List (Int × Nat)} {n : Nat} (len : Nat) : Tiles ps n → Tiles (ps ++ [((n : Int), len)]) (n + len)

theorem ofFn_fetch_add (src : Int → β) (n len : Nat) :
    List.ofFn (fetch src 0 (n + len)) = List.ofFn (fetch src 0 n) ++ List.ofFn (fetch src n len) := by
  rw [List.ofFn_add]
  congr 2
  funext j
  simp [fetch]

namespace Tiles

/-- Copying the pieces copies the range and leaves the cells around it. -/
theorem copyPieces_eq (h : Tiles ps n) (a : Int) :
    copyPieces src dst ps a = if 0 ≤ a ∧ a < n then src a else dst a := by
  induction h with
  | nil =>
    rw [if_neg (by omega)]
    rfl
  | @snoc ps n len _ ih =>
    rw [copyPieces_snoc, place_fetch, ih]
    split_ifs <;> first | rfl | omega

theorem bytesOf_eq (h : Tiles ps n) : bytesOf src ps = List.ofFn (fetch src 0 n) := by
  induction h with
  | nil => rfl
  | snoc len _ ih => rw [bytesOf_snoc, ih, ofFn_fetch_add]

theorem within (h : Tiles ps n) : ∀ x ∈ ps, 0 ≤ x.1 ∧ x.1 + x.2 ≤ n := by
  induction h with
  | nil => simp
  | @snoc ps n len _ ih =>
    intro x hx
    rcases List.mem_append.mp hx with hold | hnew
    · have hx := ih x hold
      omega
    · rw [List.mem_singleton.mp hnew]
      omega

end Tiles

theorem ofFn_fetch_prefix (src : Int → β) {m n : Nat} (h : m ≤ n) :
    List.ofFn (fetch src 0 m) <+: List.ofFn (fetch src 0 n) := by
  obtain ⟨len, rfl⟩ := Nat.exists_eq_add_of_le h
  exact ⟨_, (ofFn_fetch_add src m len).symm⟩

end Capio.Library.Pieces
