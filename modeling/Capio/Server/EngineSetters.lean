import Capio.Server.RuleLookup

/-! The setters of `CapioCLEngine`. All but `setFileDeps` look the path up first and do nothing
without an entry. -/
namespace Capio.Server
open Library

namespace CapioCLEngine

/-- `if (_locations.find(path) != _locations.end())` and an assignment to the entry. -/
def update (engine : CapioCLEngine) (path : CString) (f : Location → Location) : CapioCLEngine :=
  match engine.locations.lookup path with
  | some location => ⟨engine.locations.insert path (f location)⟩
  | none => engine

def withoutSpaces (name : CString) : CString := name.filter (fun c => !isSpace c)

def addConsumer (engine : CapioCLEngine) (path consumer : CString) : CapioCLEngine :=
  engine.update path (fun l => { l with consumers := l.consumers ++ [withoutSpaces consumer] })

def setCommitRule (engine : CapioCLEngine) (path commitRule : CString) : CapioCLEngine :=
  engine.update path (fun l => { l with commitRule := commitRule })

def setFireRule (engine : CapioCLEngine) (path fireRule : CString) : CapioCLEngine :=
  engine.update path (fun l => { l with fireRule := fireRule })

def setPermanent (engine : CapioCLEngine) (path : CString) (value : Bool) : CapioCLEngine :=
  engine.update path (fun l => { l with permanent := value })

def setExclude (engine : CapioCLEngine) (path : CString) (value : Bool) : CapioCLEngine :=
  engine.update path (fun l => { l with exclude := value })

def setDirectory (engine : CapioCLEngine) (path : CString) : CapioCLEngine :=
  engine.update path (fun l => { l with isFile := false })

def setFile (engine : CapioCLEngine) (path : CString) : CapioCLEngine :=
  engine.update path (fun l => { l with isFile := true })

/-- The parameter is an `int`: the low 32 bits of the number. -/
def setCommitedNumber (engine : CapioCLEngine) (path : CString) (num : Int) : CapioCLEngine :=
  engine.update path (fun l => { l with commitOnCloseNumber := num.bmod 0x100000000 })

def setDirectoryFileCount (engine : CapioCLEngine) (path : CString) (num : Int) : CapioCLEngine :=
  engine.update path (fun l => { l with directoryFileCount := num })

/-- `at` throws without an entry. -/
def setFileDeps (engine : CapioCLEngine) (path : CString) (dependencies : List CString) :
    Option CapioCLEngine :=
  match engine.locations.lookup path with
  | some location =>
    dependencies.foldlM newFile
      ⟨engine.locations.insert path { location with fileDependencies := dependencies }⟩
  | none => none

variable {engine engine' : CapioCLEngine} {path : CString}

theorem lookup_update (f : Location → Location) (other : CString) :
    (engine.update path f).locations.lookup other =
      if other = path then (engine.locations.lookup path).map f
      else engine.locations.lookup other := by
  unfold update
  cases h : engine.locations.lookup path with
  | none =>
    split_ifs with heq
    · rw [heq, h]
      rfl
    · rfl
  | some location => exact UnorderedMap.lookup_insert_eq _ _ _ _

theorem mem_update (f : Location → Location) (other : CString) :
    other ∈ (engine.update path f).locations ↔ other ∈ engine.locations := by
  rw [← AList.lookup_isSome, ← AList.lookup_isSome, lookup_update]
  split_ifs with h
  · rw [h, Option.isSome_map]
  · rfl

theorem update_update (f g : Location → Location) :
    (engine.update path f).update path g = engine.update path (fun l => g (f l)) := by
  unfold update
  cases h : engine.locations.lookup path with
  | none => simp [h]
  | some location => simp [AList.lookup_insert, AList.insert_insert]

/-! ### What `newFile` does -/

theorem newFile_isSome_iff : (∃ engine', engine.newFile path = some engine') ↔
    path ∈ engine.locations ∨ ¬ engine.GlobThrows path := by
  by_cases hmem : path ∈ engine.locations
  · exact iff_of_true ⟨engine, newFile_of_mem hmem⟩ (.inl hmem)
  · by_cases hglob : engine.GlobThrows path
    · rw [newFile_throws hmem hglob]
      simp [hmem, hglob]
    · rw [newFile_of_not_mem hmem hglob]
      simp [hglob]

/-- The path has an entry afterwards, a new one only if it had none, and no other changes. -/
theorem newFile_spec (h : engine.newFile path = some engine') :
    (∀ other, other ∈ engine'.locations ↔ other = path ∨ other ∈ engine.locations) ∧
      (∀ other, other ∈ engine.locations ∨ other ≠ path →
        engine'.locations.lookup other = engine.locations.lookup other) ∧
      (path ∉ engine.locations →
        ∃ rules, engine'.locations.lookup path = some (freshLocation rules)) := by
  by_cases hmem : path ∈ engine.locations
  · rw [newFile_of_mem hmem, Option.some.injEq] at h
    subst h
    refine ⟨fun other => ?_, fun _ _ => rfl, fun hnot => absurd hmem hnot⟩
    exact ⟨.inr, fun hor => hor.elim (fun heq => heq ▸ hmem) id⟩
  · have hglob := not_globThrows_of_newFile hmem h
    obtain ⟨made, hnew, hlookup, hothers⟩ := newFile_lookup hmem hglob
    obtain rfl : made = engine' := Option.some.inj (hnew.symm.trans h)
    rw [newFile_of_not_mem hmem hglob, Option.some.injEq] at h
    refine ⟨fun other => ?_, fun other hother => ?_, fun _ => ⟨_, hlookup⟩⟩
    · rw [← h]
      exact UnorderedMap.mem_emplace _ _ _ _
    · exact hothers other (hother.elim (fun hin heq => hmem (heq ▸ hin)) id)

end CapioCLEngine
end Capio.Server
