import Capio.Library.UnorderedMap

/-! Named shared memory: names for objects that outlive processes, and the mappings
of one process, each behind a pointer of its own. -/
namespace Capio.Library

structure SharedMemory (κ γ : Type) where
  names : UnorderedMap κ Nat
  objects : List (Option γ)
  mappings : List (Option Nat)

namespace SharedMemory
variable {κ γ : Type} [DecidableEq κ]

/-- `mmap` of an object at an address that no other mapping has. -/
def map (m : SharedMemory κ γ) (object : Nat) : Nat × SharedMemory κ γ :=
  (m.mappings.length, { m with mappings := m.mappings ++ [some object] })

/-- `shm_open` with `O_CREAT`, then `mmap`. -/
def create (m : SharedMemory κ γ) (name : κ) : Nat × SharedMemory κ γ :=
  match m.names.lookup name with
  | some object => m.map object
  | none =>
    { m with
      names := m.names.insert name m.objects.length
      objects := m.objects ++ [none] }.map m.objects.length

/-- `shm_open` of an existing object, then `mmap`. -/
def attach (m : SharedMemory κ γ) (name : κ) : Option (Nat × SharedMemory κ γ) := do
  let object ← m.names.lookup name
  some (m.map object)

def unmap (m : SharedMemory κ γ) (pointer : Nat) : SharedMemory κ γ :=
  { m with mappings := m.mappings.set pointer none }

def unlink (m : SharedMemory κ γ) (name : κ) : Option (SharedMemory κ γ) :=
  if name ∈ m.names then some { m with names := m.names.erase name } else none

/-- A read through a pointer. It fails where nothing is mapped. -/
def load (m : SharedMemory κ γ) (pointer : Nat) : Option γ := do
  let object ← m.mappings[pointer]?.join
  m.objects[object]?.join

def store (m : SharedMemory κ γ) (pointer : Nat) (content : γ) : Option (SharedMemory κ γ) := do
  let object ← m.mappings[pointer]?.join
  some { m with objects := m.objects.set object (some content) }

/-- A new process image keeps no mapping. -/
def newImage (m : SharedMemory κ γ) : SharedMemory κ γ := { m with mappings := [] }

/-- What is stored under a name. -/
def content (m : SharedMemory κ γ) (name : κ) : Option γ := do
  let object ← m.names.lookup name
  m.objects[object]?.join

/-- Different names stand for different objects. -/
def Apart (m : SharedMemory κ γ) : Prop :=
  ∀ name object, m.names.lookup name = some object →
    object < m.objects.length ∧ ∀ other, m.names.lookup other = some object → other = name

/-- Creates an object and fills it. -/
def put (m : SharedMemory κ γ) (name : κ) (content : γ) : Option (SharedMemory κ γ) :=
  let (pointer, m) := m.create name
  m.store pointer content

variable {m m' : SharedMemory κ γ} {name : κ} {c : γ} {pointer : Nat}

private theorem create_spec (ha : Apart m) (name : κ) :
    Apart (m.create name).2 ∧ ∃ object, (m.create name).2.names.lookup name = some object ∧
      (m.create name).2.mappings[(m.create name).1]?.join = some object ∧
      ∀ other, other ≠ name → (m.create name).2.names.lookup other = m.names.lookup other ∧
        (m.create name).2.content other = m.content other := by
  unfold create
  split
  · rename_i object hname
    exact ⟨ha, object, hname, by simp [map], fun other _ => ⟨rfl, rfl⟩⟩
  · rename_i hname
    have hother (other : κ) (hne : other ≠ name) :
        (AList.insert name m.objects.length m.names).lookup other = m.names.lookup other :=
      AList.lookup_insert_ne hne
    refine ⟨?_, m.objects.length, AList.lookup_insert m.names, by simp [map], ?_⟩
    · intro n o hn
      simp only [map, UnorderedMap.lookup_insert_eq, List.length_append, List.length_singleton] at hn ⊢
      split_ifs at hn with he
      · cases hn
        refine ⟨by omega, ?_⟩
        intro other ho
        split_ifs at ho with heq
        · rw [heq, he]
        · exact absurd (ha other _ ho).1 (lt_irrefl _)
      · refine ⟨by have := (ha n o hn).1; omega, ?_⟩
        intro other ho
        split_ifs at ho with heq
        · cases ho
          exact absurd (ha n _ hn).1 (lt_irrefl _)
        · exact (ha n o hn).2 other ho
    · intro other hne
      refine ⟨hother other hne, ?_⟩
      unfold content
      simp only [map, hother other hne]
      cases ho : m.names.lookup other with
      | none => rfl
      | some object =>
        dsimp only [Option.bind_eq_bind, Option.bind_some]
        rw [List.getElem?_append_left (ha other object ho).1]

/-- Filling an object under a name leaves what is under the others. -/
theorem put_spec (ha : Apart m) (h : m.put name c = some m') :
    Apart m' ∧ m'.content name = some c ∧
      ∀ other, other ≠ name → m'.names.lookup other = m.names.lookup other ∧
        m'.content other = m.content other := by
  obtain ⟨hapart, object, hname, hmapped, hothers⟩ := create_spec ha name
  unfold put store at h
  simp only [hmapped, Option.bind_eq_bind, Option.bind_some, Option.some.injEq] at h
  subst h
  refine ⟨?_, ?_, ?_⟩
  · intro n o hn
    rw [List.length_set]
    exact hapart n o hn
  · unfold content
    simp only [hname, Option.bind_eq_bind, Option.bind_some,
      List.getElem?_set_self (hapart name object hname).1, Option.join_some]
  · intro other hne
    obtain ⟨hlookup, hcontent⟩ := hothers other hne
    refine ⟨hlookup, ?_⟩
    rw [← hcontent]
    unfold content
    cases ho : (m.create name).2.names.lookup other with
    | none => rfl
    | some o =>
      have hdiff : object ≠ o := fun he => hne ((hapart name object hname).2 other (he ▸ ho))
      simp only [Option.bind_eq_bind, Option.bind_some, List.getElem?_set_ne hdiff]

theorem load_attach (h : m.attach name = some (pointer, m')) : m'.load pointer = m.content name := by
  obtain ⟨object, hname, h⟩ := Option.bind_eq_some_iff.mp h
  cases h
  unfold load content
  simp [hname]

omit [DecidableEq κ] in
theorem load_unmapped (h : m.mappings[pointer]? = some none) : m.load pointer = none := by
  rw [load, h]
  rfl

theorem unmapped_unmap (h : m.attach name = some (pointer, m')) :
    (m'.unmap pointer).mappings[pointer]? = some none := by
  obtain ⟨object, _, h⟩ := Option.bind_eq_some_iff.mp h
  cases h
  simp [unmap]

theorem unmapped_unlink (hp : m.mappings[pointer]? = some none) (h : m.unlink name = some m') :
    m'.mappings[pointer]? = some none := by
  unfold unlink at h
  split_ifs at h
  cases h
  exact hp

theorem unmapped_attach (hp : m.mappings[pointer]? = some none) {other : Nat}
    (h : m.attach name = some (other, m')) : m'.mappings[pointer]? = some none := by
  obtain ⟨object, _, h⟩ := Option.bind_eq_some_iff.mp h
  cases h
  have hlt : pointer < m.mappings.length := (List.getElem?_eq_some_iff.mp hp).1
  dsimp only
  rw [List.getElem?_append_left hlt, hp]

end SharedMemory
end Capio.Library
