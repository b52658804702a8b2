import Capio.Library.Walk
import Capio.Posix.DescriptorTables

/-! The loop of `delete_capio_path`, which walks the set of a path with an iterator
while `delete_capio_fd` erases from that set, and what it leaves of the tables. -/
namespace Capio.Posix.DescriptorTables
open Library

variable {t t' : DescriptorTables} {path : CString} {fd : Int}

/-- `delete_capio_path` within so many turns of its loop. A lookup that throws and an
iterator to an erased element fail. -/
def deleteCapioPathLoop (t : DescriptorTables) (path : CString) (turns : Nat) :
    Turn (DescriptorTables × Option Int) DescriptorTables :=
  match t.capioFilesPaths.lookup path with
  | none => .left t
  | some fds =>
    let loop := walkTurn (fun t => t.capioFilesPaths.lookup path) deleteCapioFd
    (Turn.loop loop turns (t, fds.first)).map fun t =>
      { t with capioFilesPaths := t.capioFilesPaths.erase path }

/-- Deleting a descriptor takes it, and no other, out of at most one set. -/
theorem deleteCapioFd_set (h : t.deleteCapioFd fd = some t') {fds : UnorderedSet Int}
    (hfds : t.capioFilesPaths.lookup path = some fds) :
    t'.capioFilesPaths.lookup path = some fds ∨ t'.capioFilesPaths.lookup path = some (fds.erase fd) := by
  obtain ⟨q, set, _, hset, rfl⟩ := deleteCapioFd_found h
  dsimp only
  rw [UnorderedMap.lookup_insert_eq]
  split_ifs with hq
  · subst hq
    rw [hfds] at hset
    cases hset
    exact .inr rfl
  · exact .inl hfds

/-- With a turn for each descriptor of the path and one more, the loop deletes them in
the order of the set, whatever state the tables are in. -/
theorem deleteCapioPathLoop_eq (t : DescriptorTables) (path : CString) {turns : Nat}
    (h : ∀ fds, t.capioFilesPaths.lookup path = some fds → fds.keys.length < turns) :
    t.deleteCapioPathLoop path turns = .ofOption (t.deleteCapioPath path) := by
  unfold deleteCapioPathLoop deleteCapioPath
  cases hfds : t.capioFilesPaths.lookup path with
  | none => rfl
  | some fds =>
    have hwalk := walk_eq (fun _ _ _ _ hset hone => deleteCapioFd_set hone hset) hfds (h fds hfds)
    dsimp only
    rw [hwalk, Turn.map_ofOption]
    cases fds.keys.foldlM deleteCapioFd t <;> rfl

/-- The descriptor is in the set of the path. -/
def Registered (t : DescriptorTables) (path : CString) (fd : Int) : Prop :=
  ∃ fds, t.capioFilesPaths.lookup path = some fds ∧ fd ∈ fds

/-- The path is gone with the descriptors registered under it, and with nothing else. -/
structure PathDeleted (t t' : DescriptorTables) (path : CString) : Prop where
  removed : path ∉ t'.capioFilesPaths
  registered : ∀ fd, t.Registered path fd →
    fd ∉ t'.capioFilesDescriptors ∧ fd ∉ t'.files ∧ ∀ q, ¬ t'.Registered q fd
  otherPaths : ∀ q, q ≠ path → t'.capioFilesPaths.lookup q = t.capioFilesPaths.lookup q
  otherDescriptors : ∀ fd, ¬ t.Registered path fd →
    t'.capioFilesDescriptors.lookup fd = t.capioFilesDescriptors.lookup fd ∧
      t'.files.lookup fd = t.files.lookup fd
  offsets : t'.offsets = t.offsets

theorem Consistent.registered_iff (hc : Consistent t) :
    t.Registered path fd ↔ t.capioFilesDescriptors.lookup fd = some path :=
  (hc.indexed fd path).symm

theorem pathDeleted (hc : Consistent t) (path : CString) :
    ∃ t', t.deleteCapioPath path = some t' ∧ PathDeleted t t' path ∧ Consistent t' := by
  obtain ⟨t', hdelete, hc', hdescriptors, hfiles, hpaths, hoffsets⟩ := deleteCapioPath_spec hc path
  refine ⟨t', hdelete, ⟨?_, fun fd hfd => ?_, fun q hq => ?_, fun fd hfd => ?_, hoffsets⟩, hc'⟩
  · rw [← AList.lookup_eq_none, hpaths path, if_pos rfl]
  · have hpath := hc.registered_iff.mp hfd
    have hgone : t'.capioFilesDescriptors.lookup fd = none := by rw [hdescriptors fd, if_pos hpath]
    refine ⟨AList.lookup_eq_none.mp hgone, AList.lookup_eq_none.mp ?_, fun q hq => ?_⟩
    · rw [hfiles fd, if_pos hpath]
    · rw [hc'.registered_iff, hgone] at hq
      cases hq
  · rw [hpaths q, if_neg hq]
  · rw [hc.registered_iff] at hfd
    exact ⟨by rw [hdescriptors fd, if_neg hfd], by rw [hfiles fd, if_neg hfd]⟩

/-- The loop of `delete_capio_path` ends without a failing lookup, one turn after the
last descriptor of the path, and takes away exactly the path with these descriptors. -/
theorem delete_capio_path_exact (hc : Consistent t) (path : CString) :
    ∃ t', (∀ turns, (∀ fds, t.capioFilesPaths.lookup path = some fds → fds.keys.length < turns) →
        t.deleteCapioPathLoop path turns = .left t') ∧ PathDeleted t t' path ∧ Consistent t' := by
  obtain ⟨t', hdelete, hdeleted, hc'⟩ := pathDeleted hc path
  refine ⟨t', fun turns hturns => ?_, hdeleted, hc'⟩
  rw [deleteCapioPathLoop_eq t path hturns, hdelete]
  rfl

theorem Consistent.addCapioFd (hc : Consistent t) (path : CString) (fd : Int) (offset : Nat) (isCloexec : Bool)
    (hfd : t.capioFilesDescriptors.lookup fd = none) (h : t.addCapioFd path fd offset isCloexec = some t') :
    Consistent t' := by
  refine (addCapioFd_consistent_iff hc h).mpr fun q hq => ?_
  rw [hfd] at hq
  cases hq

/-- Two descriptors open on one file and one on another. -/
def openTwice : DescriptorTables :=
  (do let t ← initFilesystem.addCapioFd "/c/f".toList 3 0 false
      let t ← t.addCapioFd "/c/g".toList 4 0 false
      t.addCapioFd "/c/f".toList 5 0 true).getD initFilesystem

theorem openTwice_consistent : Consistent openTwice := by
  have hone := consistent_init.addCapioFd "/c/f".toList 3 0 false rfl rfl
  have htwo := hone.addCapioFd "/c/g".toList 4 0 false rfl rfl
  exact htwo.addCapioFd "/c/f".toList 5 0 true rfl rfl

/-- The descriptors 3 and 5 of the first file go, and 4 stays. -/
theorem delete_capio_path_exact_openTwice :
    ∃ t', (∀ turns, (∀ fds, openTwice.capioFilesPaths.lookup "/c/f".toList = some fds → fds.keys.length < turns) →
        openTwice.deleteCapioPathLoop "/c/f".toList turns = .left t') ∧
      PathDeleted openTwice t' "/c/f".toList ∧ Consistent t' :=
  delete_capio_path_exact openTwice_consistent "/c/f".toList

end Capio.Posix.DescriptorTables
