import Capio.Library.UnorderedMap

/-! Objects that are opened by name and outlive their names: removing a name leaves the
object to those who hold it, and the name free for another object. -/
namespace Capio.Library

structure NamedObjects (κ γ : Type) where
  names : UnorderedMap κ Nat
  objects : List γ

namespace NamedObjects
variable {κ γ : Type} [DecidableEq κ]

def empty : NamedObjects κ γ := ⟨∅, []⟩

/-- Opens the object of a name, and creates it with a content when there is none. -/
def openCreate (m : NamedObjects κ γ) (name : κ) (content : γ) : Nat × NamedObjects κ γ :=
  match m.names.lookup name with
  | some object => (object, m)
  | none => (m.objects.length, ⟨m.names.insert name m.objects.length, m.objects ++ [content]⟩)

def unlink (m : NamedObjects κ γ) (name : κ) : Option (NamedObjects κ γ) :=
  if name ∈ m.names then some { m with names := m.names.erase name } else none

def get (m : NamedObjects κ γ) (object : Nat) : Option γ := m.objects[object]?

def set (m : NamedObjects κ γ) (object : Nat) (content : γ) : NamedObjects κ γ :=
  { m with objects := m.objects.set object content }

variable {m m' : NamedObjects κ γ} {name other : κ} {object object' : Nat} {content c : γ}

theorem openCreate_bound (h : m.names.lookup name = some object) (content : γ) :
    m.openCreate name content = (object, m) := by
  rw [openCreate, h]

theorem openCreate_free (h : m.names.lookup name = none) (content : γ) : m.openCreate name content =
    (m.objects.length, ⟨m.names.insert name m.objects.length, m.objects ++ [content]⟩) := by
  rw [openCreate, h]

/-- Opening a name that does not stand for an object that there is gives another one. -/
theorem openCreate_ne (hobject : object < m.objects.length) (h : m.names.lookup name ≠ some object) (content : γ) :
    (m.openCreate name content).1 ≠ object := by
  cases hname : m.names.lookup name with
  | some bound =>
    rw [openCreate_bound hname]
    exact fun he => h (he ▸ hname)
  | none =>
    rw [openCreate_free hname]
    exact Nat.ne_of_gt hobject

theorem openCreate_lookup_ne (h : other ≠ name) (content : γ) :
    (m.openCreate name content).2.names.lookup other = m.names.lookup other := by
  cases hname : m.names.lookup name with
  | some bound => rw [openCreate_bound hname]
  | none =>
    rw [openCreate_free hname]
    exact AList.lookup_insert_ne h

theorem openCreate_length_le (name : κ) (content : γ) :
    m.objects.length ≤ (m.openCreate name content).2.objects.length := by
  cases hname : m.names.lookup name with
  | some bound => rw [openCreate_bound hname]
  | none =>
    rw [openCreate_free hname, List.length_append]
    exact Nat.le_add_right ..

theorem unlink_objects (h : m.unlink name = some m') : m'.objects = m.objects := by
  unfold unlink at h
  split_ifs at h
  cases h
  rfl

theorem unlink_lookup (h : m.unlink name = some m') : m'.names.lookup name = none := by
  unfold unlink at h
  split_ifs at h
  cases h
  exact AList.lookup_erase name m.names

/-- Removing names binds none. -/
theorem unlink_free (h : m.unlink name = some m') (hfree : m.names.lookup other = none) :
    m'.names.lookup other = none := by
  unfold unlink at h
  split_ifs at h
  cases h
  rw [UnorderedMap.lookup_erase_eq, hfree]
  exact ite_self none

theorem unlink_eq_none (h : m.unlink name = none) : m.names.lookup name = none := by
  unfold unlink at h
  split_ifs at h with hmem
  exact AList.lookup_eq_none.mpr hmem

omit [DecidableEq κ] in
theorem get_lt (h : m.get object = some c) : object < m.objects.length :=
  (List.getElem?_eq_some_iff.mp h).1

omit [DecidableEq κ] in
theorem get_set_self (h : m.get object = some c) (content : γ) : (m.set object content).get object = some content :=
  List.getElem?_set_self (get_lt h)

omit [DecidableEq κ] in
theorem get_set_ne (h : object ≠ object') (content : γ) : (m.set object content).get object' = m.get object' :=
  List.getElem?_set_ne h

end NamedObjects
end Capio.Library
