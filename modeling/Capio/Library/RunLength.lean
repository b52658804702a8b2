import Mathlib.Algebra.BigOperators.Group.List.Basic
import Mathlib.Algebra.Order.Ring.Int

/-! Sequences of labelled runs with marks between them: the length that each label has in
all, and the sequence of single elements that the runs stand for. -/
namespace Capio.Library

inductive Piece (κ μ : Type) where
  | run (label : κ) (length : Int)
  | mark (m : μ)

namespace Piece
variable {κ μ : Type} [DecidableEq κ]

def lengthOf (k : κ) : Piece κ μ → Int
  | run label length => if label = k then length else 0
  | mark _ => 0

def total (es : List (Piece κ μ)) (k : κ) : Int := (es.map (lengthOf k)).sum

omit [DecidableEq κ] in
def elements : Piece κ μ → List (κ ⊕ μ)
  | run label length => List.replicate length.toNat (.inl label)
  | mark m => [.inr m]

omit [DecidableEq κ] in
def expand (es : List (Piece κ μ)) : List (κ ⊕ μ) := es.flatMap elements

theorem total_append (es es' : List (Piece κ μ)) (k : κ) : total (es ++ es') k = total es k + total es' k := by
  simp [total]

theorem total_run (label k : κ) (length : Int) :
    total [(run label length : Piece κ μ)] k = if label = k then length else 0 := by
  simp [total, lengthOf]

/-- The same lengths for each label, and the same elements in the same order. -/
structure Same (es es' : List (Piece κ μ)) : Prop where
  total : ∀ k, total es k = Piece.total es' k
  expand : expand es = Piece.expand es'

namespace Same
variable {es es' es'' : List (Piece κ μ)}

theorem refl (es : List (Piece κ μ)) : Same es es := ⟨fun _ => rfl, rfl⟩

theorem symm (h : Same es es') : Same es' es := ⟨fun k => (h.total k).symm, h.expand.symm⟩

theorem trans (h : Same es es') (h' : Same es' es'') : Same es es'' :=
  ⟨fun k => (h.total k).trans (h'.total k), h.expand.trans h'.expand⟩

theorem append (h : Same es es') {gs gs' : List (Piece κ μ)} (h' : Same gs gs') :
    Same (es ++ gs) (es' ++ gs') := by
  refine ⟨fun k => ?_, ?_⟩
  · rw [total_append, total_append, h.total, h'.total]
  · simp only [Piece.expand, List.flatMap_append]
    exact congrArg₂ _ h.expand h'.expand

theorem zero (k : κ) : Same [(run k 0 : Piece κ μ)] [] :=
  ⟨fun l => by rw [total_run, ite_self]; rfl, rfl⟩

/-- Two runs of one label are one run. -/
theorem join (k : κ) {m n : Int} (hm : 0 ≤ m) (hn : 0 ≤ n) :
    Same [(run k m : Piece κ μ), run k n] [run k (m + n)] := by
  refine ⟨fun l => ?_, ?_⟩
  · rw [← List.singleton_append, total_append, total_run, total_run, total_run]
    split_ifs <;> simp
  · simp [Piece.expand, elements, Int.toNat_add hm hn]

end Same
end Piece
end Capio.Library
