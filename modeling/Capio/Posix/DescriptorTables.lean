import Capio.Library.InverseIndex
import Capio.Common.Constants

/-! The three tables in which the client library tracks descriptors, and the
helpers of `utils/filesystem.hpp` on them. A helper whose `at()` throws returns
`none`. -/
namespace Capio.Posix
open Library

/-- An entry of `files`. Copies of a descriptor share the cell of the offset. -/
structure TrackedFile where
  offsetCell : Nat
  isCloexec : Bool
  deriving DecidableEq

structure DescriptorTables where
  capioFilesDescriptors : UnorderedMap Int CString
  capioFilesPaths : UnorderedMap CString (UnorderedSet Int)
  files : UnorderedMap Int TrackedFile
  offsets : List Nat

namespace DescriptorTables

def initFilesystem : DescriptorTables := ⟨∅, ∅, ∅, []⟩

def existsCapioFd (t : DescriptorTables) (fd : Int) : Bool := fd ∈ t.files

theorem existsCapioFd_iff {t : DescriptorTables} {fd : Int} : t.existsCapioFd fd = true ↔ fd ∈ t.files :=
  decide_eq_true_iff

def addCapioPath (t : DescriptorTables) (path : CString) : DescriptorTables :=
  { t with capioFilesPaths := UnorderedMap.emplace t.capioFilesPaths path ∅ }

def addCapioFd (t : DescriptorTables) (path : CString) (fd : Int) (offset : Nat) (isCloexec : Bool) :
    Option DescriptorTables := do
  let t := t.addCapioPath path
  let fds ← t.capioFilesPaths.lookup path
  some
    { capioFilesPaths := t.capioFilesPaths.insert path (UnorderedMap.emplace fds fd ())
      capioFilesDescriptors := UnorderedMap.emplace t.capioFilesDescriptors fd path
      files := UnorderedMap.emplace t.files fd ⟨t.offsets.length, isCloexec⟩
      offsets := t.offsets ++ [offset] }

def deleteCapioFd (t : DescriptorTables) (fd : Int) : Option DescriptorTables := do
  let path ← t.capioFilesDescriptors.lookup fd
  let fds ← t.capioFilesPaths.lookup path
  some
    { t with
      capioFilesPaths := t.capioFilesPaths.insert path (fds.erase fd)
      capioFilesDescriptors := t.capioFilesDescriptors.erase fd
      files := t.files.erase fd }

/-- The loop steps its iterator before it deletes, and a deletion takes away no
other descriptor of the set. -/
def deleteCapioPath (t : DescriptorTables) (path : CString) : Option DescriptorTables :=
  match t.capioFilesPaths.lookup path with
  | none => some t
  | some fds => do
    let t ← fds.keys.foldlM deleteCapioFd t
    some { t with capioFilesPaths := t.capioFilesPaths.erase path }

def dupCapioFd (t : DescriptorTables) (oldfd newfd : Int) (isCloexec : Bool) :
    Option DescriptorTables := do
  let path ← t.capioFilesDescriptors.lookup oldfd
  let fds ← t.capioFilesPaths.lookup path
  let file ← t.files.lookup oldfd
  let files := UnorderedMap.emplace t.files newfd file
  -- `set_capio_fd_cloexec` on whatever entry the number has now
  let copy ← files.lookup newfd
  some
    { t with
      capioFilesPaths := t.capioFilesPaths.insert path (UnorderedMap.emplace fds newfd ())
      files := files.insert newfd { copy with isCloexec := isCloexec }
      capioFilesDescriptors := UnorderedMap.emplace t.capioFilesDescriptors newfd path }

def assignPath (newpath : CString) (descriptors : UnorderedMap Int CString) (fd : Int) :
    Option (UnorderedMap Int CString) :=
  if fd ∈ descriptors then some (descriptors.insert fd newpath) else none

def renameCapioPath (t : DescriptorTables) (oldpath newpath : CString) : Option DescriptorTables :=
  match t.capioFilesPaths.lookup oldpath with
  | none => some t
  | some entry => do
    -- the node is dropped with its set when the new path is a key already
    let paths := UnorderedMap.emplace (t.capioFilesPaths.erase oldpath) newpath entry
    let fds ← paths.lookup newpath
    let descriptors ← fds.keys.foldlM (assignPath newpath) t.capioFilesDescriptors
    some { t with capioFilesPaths := paths, capioFilesDescriptors := descriptors }

/-- Every descriptor is in all tables or in none, and the sets of `capio_files_paths`
list each under its path. -/
structure Consistent (t : DescriptorTables) : Prop where
  sameKeys : ∀ fd, fd ∈ t.capioFilesDescriptors ↔ fd ∈ t.files
  indexed : Indexes t.capioFilesDescriptors t.capioFilesPaths

theorem consistent_init : Consistent initFilesystem := ⟨fun _ => Iff.rfl, Indexes.empty⟩

variable {t t' : DescriptorTables} {path oldpath newpath : CString} {fd oldfd newfd : Int}
  {isCloexec : Bool}

theorem addCapioFd_eq (t : DescriptorTables) (path : CString) (fd : Int) (offset : Nat) (isCloexec : Bool) :
    ∃ fds, (UnorderedMap.emplace t.capioFilesPaths path ∅).lookup path = some fds ∧
      t.addCapioFd path fd offset isCloexec = some
        { capioFilesPaths := AList.insert path (UnorderedMap.emplace fds fd ())
            (UnorderedMap.emplace t.capioFilesPaths path ∅)
          capioFilesDescriptors := UnorderedMap.emplace t.capioFilesDescriptors fd path
          files := UnorderedMap.emplace t.files fd ⟨t.offsets.length, isCloexec⟩
          offsets := t.offsets ++ [offset] } := by
  have hlookup := UnorderedMap.lookup_emplace t.capioFilesPaths path path ∅
  rw [if_pos rfl] at hlookup
  refine ⟨_, hlookup, ?_⟩
  unfold addCapioFd addCapioPath
  dsimp only
  rw [hlookup]
  rfl

theorem addCapioFd_consistent_iff {offset : Nat} (hc : Consistent t)
    (h : t.addCapioFd path fd offset isCloexec = some t') :
    Consistent t' ↔ ∀ q, t.capioFilesDescriptors.lookup fd = some q → q = path := by
  obtain ⟨fds, hfds, heq⟩ := addCapioFd_eq t path fd offset isCloexec
  rw [heq] at h
  cases h
  rw [← (hc.indexed.emplace_nil path).emplace_iff hfds]
  constructor
  · exact Consistent.indexed
  · intro hindexed
    refine ⟨fun i => ?_, hindexed⟩
    rw [UnorderedMap.mem_emplace, UnorderedMap.mem_emplace, hc.sameKeys]

/-- A deletion that does not throw found the path of the descriptor and its set. -/
theorem deleteCapioFd_found (h : t.deleteCapioFd fd = some t') :
    ∃ path fds, t.capioFilesDescriptors.lookup fd = some path ∧ t.capioFilesPaths.lookup path = some fds ∧ t' =
      { t with
        capioFilesPaths := t.capioFilesPaths.insert path (fds.erase fd)
        capioFilesDescriptors := t.capioFilesDescriptors.erase fd
        files := t.files.erase fd } := by
  unfold deleteCapioFd at h
  obtain ⟨path, hpath, h⟩ := Option.bind_eq_some_iff.mp h
  obtain ⟨fds, hfds, h⟩ := Option.bind_eq_some_iff.mp h
  exact ⟨path, fds, hpath, hfds, (Option.some.inj h).symm⟩

theorem deleteCapioFd_eq (hc : Consistent t) (h : t.capioFilesDescriptors.lookup fd = some path) :
    ∃ fds, t.capioFilesPaths.lookup path = some fds ∧ t.deleteCapioFd fd = some
      { t with
        capioFilesPaths := t.capioFilesPaths.insert path (fds.erase fd)
        capioFilesDescriptors := t.capioFilesDescriptors.erase fd
        files := t.files.erase fd } := by
  obtain ⟨fds, hfds, _⟩ := hc.indexed.listed h
  refine ⟨fds, hfds, ?_⟩
  unfold deleteCapioFd
  rw [h, Option.bind_eq_bind, Option.bind_some, hfds]
  rfl

theorem deleteCapioFd_consistent (hc : Consistent t) (h : t.deleteCapioFd fd = some t') :
    Consistent t' := by
  obtain ⟨path, fds, hpath, hfds, rfl⟩ := deleteCapioFd_found h
  refine ⟨fun i => ?_, hc.indexed.erase hpath hfds⟩
  rw [AList.mem_erase, AList.mem_erase, hc.sameKeys]

theorem dupCapioFd_eq {fds : UnorderedSet Int} {file : TrackedFile}
    (hpath : t.capioFilesDescriptors.lookup oldfd = some path) (hfds : t.capioFilesPaths.lookup path = some fds)
    (hfile : t.files.lookup oldfd = some file) (newfd : Int) (isCloexec : Bool) :
    t.dupCapioFd oldfd newfd isCloexec = some
      { t with
        capioFilesPaths := t.capioFilesPaths.insert path (UnorderedMap.emplace fds newfd ())
        files := (UnorderedMap.emplace t.files newfd file).insert newfd
          { (t.files.lookup newfd).getD file with isCloexec := isCloexec }
        capioFilesDescriptors := UnorderedMap.emplace t.capioFilesDescriptors newfd path } := by
  have hcopy := UnorderedMap.lookup_emplace t.files newfd newfd file
  rw [if_pos rfl] at hcopy
  unfold dupCapioFd
  simp only [hpath, hfds, hfile, Option.bind_eq_bind, Option.bind_some, hcopy]

theorem dupCapioFd_found (h : t.dupCapioFd oldfd newfd isCloexec = some t') :
    ∃ path fds file, t.capioFilesDescriptors.lookup oldfd = some path ∧ t.capioFilesPaths.lookup path = some fds ∧
      t.files.lookup oldfd = some file ∧ t' =
        { t with
          capioFilesPaths := t.capioFilesPaths.insert path (UnorderedMap.emplace fds newfd ())
          files := (UnorderedMap.emplace t.files newfd file).insert newfd
            { (t.files.lookup newfd).getD file with isCloexec := isCloexec }
          capioFilesDescriptors := UnorderedMap.emplace t.capioFilesDescriptors newfd path } := by
  have hdup := h
  unfold dupCapioFd at h
  obtain ⟨path, hpath, h⟩ := Option.bind_eq_some_iff.mp h
  obtain ⟨fds, hfds, h⟩ := Option.bind_eq_some_iff.mp h
  obtain ⟨file, hfile, _⟩ := Option.bind_eq_some_iff.mp h
  rw [dupCapioFd_eq hpath hfds hfile] at hdup
  exact ⟨path, fds, file, hpath, hfds, hfile, (Option.some.inj hdup).symm⟩

/-- Registering a copy spoils the tables just when its number is tracked under
another path. -/
theorem dupCapioFd_consistent_iff (hc : Consistent t)
    (h : t.dupCapioFd oldfd newfd isCloexec = some t') :
    Consistent t' ↔ ∀ p q, t.capioFilesDescriptors.lookup oldfd = some p →
      t.capioFilesDescriptors.lookup newfd = some q → q = p := by
  obtain ⟨path, fds, file, hpath, hfds, _, rfl⟩ := dupCapioFd_found h
  have hsame : (∀ p q, t.capioFilesDescriptors.lookup oldfd = some p →
      t.capioFilesDescriptors.lookup newfd = some q → q = p) ↔
      ∀ q, t.capioFilesDescriptors.lookup newfd = some q → q = path := by
    rw [hpath]
    exact ⟨fun h q hq => h path q rfl hq, fun h p q hp hq => Option.some.inj hp ▸ h q hq⟩
  rw [hsame, ← hc.indexed.emplace_iff hfds]
  constructor
  · exact Consistent.indexed
  · intro hindexed
    refine ⟨fun i => ?_, hindexed⟩
    rw [UnorderedMap.mem_emplace, AList.mem_insert, UnorderedMap.mem_emplace, hc.sameKeys]
    tauto

theorem dupCapioFd_isSome (hc : Consistent t) (h : oldfd ∈ t.files) (newfd : Int) (isCloexec : Bool) :
    (t.dupCapioFd oldfd newfd isCloexec).isSome := by
  obtain ⟨path, hpath⟩ := Option.isSome_iff_exists.mp (AList.lookup_isSome.mpr ((hc.sameKeys oldfd).mpr h))
  obtain ⟨fds, hfds, _⟩ := hc.indexed.listed hpath
  obtain ⟨file, hfile⟩ := Option.isSome_iff_exists.mp (AList.lookup_isSome.mpr h)
  rw [dupCapioFd_eq hpath hfds hfile]
  rfl

theorem dupCapioFd_files (h : t.dupCapioFd oldfd newfd isCloexec = some t') (hfd : fd ∈ t'.files) :
    fd = newfd ∨ fd ∈ t.files := by
  obtain ⟨path, fds, file, _, _, _, rfl⟩ := dupCapioFd_found h
  rw [AList.mem_insert, UnorderedMap.mem_emplace] at hfd
  tauto

/-- The numbers of a set in neither table. -/
def Untracked (t : DescriptorTables) (fd : Int) : Prop := fd ∉ t.files ∧ fd ∉ t.capioFilesDescriptors

theorem addCapioFd_untracked {offset : Nat} (h : t.addCapioFd path newfd offset isCloexec = some t')
    (hne : fd ≠ newfd) (ht : t.Untracked fd) : t'.Untracked fd := by
  obtain ⟨fds, _, heq⟩ := addCapioFd_eq t path newfd offset isCloexec
  rw [heq] at h
  cases h
  unfold Untracked
  rw [UnorderedMap.mem_emplace, UnorderedMap.mem_emplace, not_or, not_or]
  exact ⟨⟨hne, ht.1⟩, ⟨hne, ht.2⟩⟩

theorem dupCapioFd_untracked (h : t.dupCapioFd oldfd newfd isCloexec = some t') (hne : fd ≠ newfd)
    (ht : t.Untracked fd) : t'.Untracked fd := by
  obtain ⟨path, fds, file, _, _, _, rfl⟩ := dupCapioFd_found h
  unfold Untracked
  rw [AList.mem_insert, UnorderedMap.mem_emplace, UnorderedMap.mem_emplace, not_or, not_or, not_or]
  exact ⟨⟨hne, hne, ht.1⟩, ⟨hne, ht.2⟩⟩

/-- A deletion of a path that does not throw leaves the tables or has deleted every
descriptor of the path. -/
theorem deleteCapioPath_cases (h : t.deleteCapioPath path = some t') :
    t.capioFilesPaths.lookup path = none ∧ t' = t ∨
      ∃ fds t₁, t.capioFilesPaths.lookup path = some fds ∧ fds.keys.foldlM deleteCapioFd t = some t₁ ∧
        t' = { t₁ with capioFilesPaths := t₁.capioFilesPaths.erase path } := by
  unfold deleteCapioPath at h
  cases hfds : t.capioFilesPaths.lookup path with
  | none =>
    rw [hfds] at h
    exact .inl ⟨rfl, (Option.some.inj h).symm⟩
  | some fds =>
    rw [hfds] at h
    obtain ⟨t₁, hfold, h⟩ := Option.bind_eq_some_iff.mp h
    exact .inr ⟨fds, t₁, rfl, hfold, (Option.some.inj h).symm⟩

theorem renameCapioPath_cases (h : t.renameCapioPath oldpath newpath = some t') :
    t.capioFilesPaths.lookup oldpath = none ∧ t' = t ∨
      ∃ entry fds descriptors, t.capioFilesPaths.lookup oldpath = some entry ∧
        (UnorderedMap.emplace (t.capioFilesPaths.erase oldpath) newpath entry).lookup newpath = some fds ∧
        fds.keys.foldlM (assignPath newpath) t.capioFilesDescriptors = some descriptors ∧
        t' = { t with
          capioFilesPaths := UnorderedMap.emplace (t.capioFilesPaths.erase oldpath) newpath entry
          capioFilesDescriptors := descriptors } := by
  unfold renameCapioPath at h
  cases hentry : t.capioFilesPaths.lookup oldpath with
  | none =>
    rw [hentry] at h
    exact .inl ⟨rfl, (Option.some.inj h).symm⟩
  | some entry =>
    rw [hentry] at h
    obtain ⟨fds, hfds, h⟩ := Option.bind_eq_some_iff.mp h
    obtain ⟨descriptors, hfold, h⟩ := Option.bind_eq_some_iff.mp h
    exact .inr ⟨entry, fds, descriptors, rfl, hfds, hfold, (Option.some.inj h).symm⟩

/-- Deleting a descriptor tracks no other and leaves the keys of `capio_files_paths`. -/
theorem deleteCapioFd_spec (h : t.deleteCapioFd oldfd = some t') :
    (∀ fd, t.Untracked fd → t'.Untracked fd) ∧ ∀ q, q ∈ t'.capioFilesPaths ↔ q ∈ t.capioFilesPaths := by
  obtain ⟨path, fds, _, hfds, rfl⟩ := deleteCapioFd_found h
  constructor
  · intro fd ht
    exact ⟨fun hm => ht.1 (AList.mem_erase.mp hm).2, fun hm => ht.2 (AList.mem_erase.mp hm).2⟩
  · intro q
    refine (AList.mem_insert _).trans (or_iff_right_of_imp ?_)
    rintro rfl
    exact AList.lookup_isSome.mp (by rw [hfds]; rfl)

private theorem deleteAll_keys (fds : List Int) (h : fds.foldlM deleteCapioFd t = some t') :
    (∀ fd, t.Untracked fd → t'.Untracked fd) ∧ ∀ q, q ∈ t'.capioFilesPaths ↔ q ∈ t.capioFilesPaths := by
  refine foldlM_keeps (I := fun s => (∀ fd, t.Untracked fd → s.Untracked fd) ∧
    ∀ q, q ∈ s.capioFilesPaths ↔ q ∈ t.capioFilesPaths) ?_ ⟨fun _ => id, fun _ => Iff.rfl⟩ h
  intro s fd s' ⟨huntracked, hkeys⟩ hone
  obtain ⟨hnext, hkeys'⟩ := deleteCapioFd_spec hone
  exact ⟨fun i hi => hnext i (huntracked i hi), fun q => (hkeys' q).trans (hkeys q)⟩

/-- A deletion that succeeds removes the path and no other key. -/
theorem deleteCapioPath_keys (h : t.deleteCapioPath path = some t') :
    (∀ fd, t.Untracked fd → t'.Untracked fd) ∧
      ∀ q, q ∈ t'.capioFilesPaths ↔ q ≠ path ∧ q ∈ t.capioFilesPaths := by
  rcases deleteCapioPath_cases h with ⟨hnone, rfl⟩ | ⟨fds, t₁, _, hfold, rfl⟩
  · refine ⟨fun _ => id, fun q => (and_iff_right_of_imp ?_).symm⟩
    rintro hq rfl
    exact AList.lookup_eq_none.mp hnone hq
  · obtain ⟨huntracked, hkeys⟩ := deleteAll_keys _ hfold
    exact ⟨huntracked, fun q => AList.mem_erase.trans (and_congr_right fun _ => hkeys q)⟩

private theorem assignPath_keys (fds : List Int) {descriptors assigned : UnorderedMap Int CString}
    (h : fds.foldlM (assignPath newpath) descriptors = some assigned) (hfd : fd ∉ descriptors) :
    fd ∉ assigned := by
  refine foldlM_keeps (I := fun descriptors => fd ∉ descriptors) ?_ hfd h
  intro descriptors i descriptors₁ hfd hone
  unfold assignPath at hone
  split_ifs at hone with hi
  cases hone
  rw [AList.mem_insert, not_or]
  exact ⟨fun he => hfd (he ▸ hi), hfd⟩

theorem renameCapioPath_untracked (h : t.renameCapioPath oldpath newpath = some t') (ht : t.Untracked fd) :
    t'.Untracked fd := by
  rcases renameCapioPath_cases h with ⟨_, rfl⟩ | ⟨entry, fds, descriptors, _, _, hfold, rfl⟩
  · exact ht
  · exact ⟨ht.1, assignPath_keys _ hfold ht.2⟩

/-- Every descriptor is registered under a path with the property. -/
def AllPaths (P : CString → Prop) (t : DescriptorTables) : Prop :=
  ∀ fd path, t.capioFilesDescriptors.lookup fd = some path → P path

section AllPaths
variable {P : CString → Prop}

theorem addCapioFd_allPaths {offset : Nat} (h : t.addCapioFd path fd offset isCloexec = some t') (hpath : P path)
    (ht : t.AllPaths P) : t'.AllPaths P := by
  obtain ⟨fds, _, heq⟩ := addCapioFd_eq t path fd offset isCloexec
  rw [heq] at h
  cases h
  intro i q hq
  rcases UnorderedMap.of_lookup_emplace hq with rfl | hold
  · exact hpath
  · exact ht i q hold

theorem dupCapioFd_allPaths (h : t.dupCapioFd oldfd newfd isCloexec = some t') (ht : t.AllPaths P) :
    t'.AllPaths P := by
  obtain ⟨path, fds, file, hpath, _, _, rfl⟩ := dupCapioFd_found h
  intro i q hq
  rcases UnorderedMap.of_lookup_emplace hq with rfl | hold
  · exact ht oldfd q hpath
  · exact ht i q hold

theorem deleteCapioFd_allPaths (h : t.deleteCapioFd fd = some t') (ht : t.AllPaths P) : t'.AllPaths P := by
  obtain ⟨path, fds, _, _, rfl⟩ := deleteCapioFd_found h
  intro i q hq
  rw [UnorderedMap.lookup_erase_eq] at hq
  split_ifs at hq
  exact ht i q hq

theorem deleteCapioPath_allPaths (h : t.deleteCapioPath path = some t') (ht : t.AllPaths P) : t'.AllPaths P := by
  rcases deleteCapioPath_cases h with ⟨_, rfl⟩ | ⟨fds, t₁, _, hfold, rfl⟩
  · exact ht
  · have hall : t₁.AllPaths P := foldlM_keeps (fun _ _ _ ht h => deleteCapioFd_allPaths h ht) ht hfold
    exact hall

theorem renameCapioPath_allPaths (h : t.renameCapioPath oldpath newpath = some t') (hpath : P newpath)
    (ht : t.AllPaths P) : t'.AllPaths P := by
  rcases renameCapioPath_cases h with ⟨_, rfl⟩ | ⟨entry, fds, descriptors, _, _, hfold, rfl⟩
  · exact ht
  · refine foldlM_keeps (I := fun descriptors : UnorderedMap Int CString =>
      ∀ fd path, descriptors.lookup fd = some path → P path) ?_ ht hfold
    intro descriptors fd assigned hall hassign i q hq
    unfold assignPath at hassign
    split_ifs at hassign
    cases hassign
    rw [UnorderedMap.lookup_insert_eq] at hq
    split_ifs at hq
    · cases hq
      exact hpath
    · exact hall i q hq

end AllPaths

private theorem ite_cons {α : Type} (fd i : Int) (fds : List Int) (x y : α) :
    (if i ∈ fds then x else if i = fd then x else y) = if i ∈ fd :: fds then x else y := by
  by_cases hi : i ∈ fds
  · rw [if_pos hi, if_pos (List.mem_cons_of_mem fd hi)]
  · rw [if_neg hi]
    exact if_congr (by simp [hi]) rfl rfl

/-- What is left after some descriptors of a path are deleted. -/
structure Deleted (t t' : DescriptorTables) (path : CString) (fds : List Int) : Prop where
  descriptors : ∀ fd, t'.capioFilesDescriptors.lookup fd =
    if fd ∈ fds then none else t.capioFilesDescriptors.lookup fd
  files : ∀ fd, t'.files.lookup fd = if fd ∈ fds then none else t.files.lookup fd
  paths : ∀ q, q ≠ path → t'.capioFilesPaths.lookup q = t.capioFilesPaths.lookup q
  offsets : t'.offsets = t.offsets

theorem deleteAll_spec (hc : Consistent t) (fds : List Int) (hn : fds.Nodup)
    (h : ∀ fd ∈ fds, t.capioFilesDescriptors.lookup fd = some path) :
    ∃ t', fds.foldlM deleteCapioFd t = some t' ∧ Consistent t' ∧ Deleted t t' path fds := by
  induction fds generalizing t with
  | nil => exact ⟨t, rfl, hc, by simp, by simp, fun _ _ => rfl, rfl⟩
  | cons fd fds ih =>
    obtain ⟨hfd, hn⟩ := List.nodup_cons.mp hn
    obtain ⟨set, _, heq⟩ := deleteCapioFd_eq hc (h fd List.mem_cons_self)
    have hrest (i : Int) (hi : i ∈ fds) : (t.capioFilesDescriptors.erase fd).lookup i = some path := by
      rw [AList.lookup_erase_ne (ne_of_mem_of_not_mem hi hfd)]
      exact h i (List.mem_cons_of_mem fd hi)
    obtain ⟨t', hfold, hc', hdel⟩ := ih (deleteCapioFd_consistent hc heq) hn hrest
    refine ⟨t', by rw [List.foldlM_cons, heq]; exact hfold, hc', ?_, ?_, ?_, hdel.offsets⟩
    · intro i
      rw [hdel.descriptors i, UnorderedMap.lookup_erase_eq, ite_cons]
    · intro i
      rw [hdel.files i, UnorderedMap.lookup_erase_eq, ite_cons]
    · intro q hq
      rw [hdel.paths q hq]
      exact AList.lookup_insert_ne hq

/-- `delete_capio_path` takes away a path with the descriptors open on it. -/
theorem deleteCapioPath_spec (hc : Consistent t) (path : CString) :
    ∃ t', t.deleteCapioPath path = some t' ∧ Consistent t' ∧
      (∀ fd, t'.capioFilesDescriptors.lookup fd = if t.capioFilesDescriptors.lookup fd = some path then none
        else t.capioFilesDescriptors.lookup fd) ∧
      (∀ fd, t'.files.lookup fd = if t.capioFilesDescriptors.lookup fd = some path then none
        else t.files.lookup fd) ∧
      (∀ q, t'.capioFilesPaths.lookup q = if q = path then none else t.capioFilesPaths.lookup q) ∧
      t'.offsets = t.offsets := by
  unfold deleteCapioPath
  cases hfds : t.capioFilesPaths.lookup path with
  | none =>
    have hnone (fd : Int) : t.capioFilesDescriptors.lookup fd ≠ some path := by
      intro hfd
      obtain ⟨_, hlisted, _⟩ := hc.indexed.listed hfd
      rw [hfds] at hlisted
      cases hlisted
    refine ⟨t, rfl, hc, fun fd => (if_neg (hnone fd)).symm, fun fd => (if_neg (hnone fd)).symm, ?_, rfl⟩
    intro q
    split_ifs with hq
    · rw [hq, hfds]
    · rfl
  | some fds =>
    have hmem (fd : Int) : fd ∈ fds.keys ↔ t.capioFilesDescriptors.lookup fd = some path :=
      AList.mem_keys.trans (hc.indexed.mem_iff hfds)
    obtain ⟨t', hfold, hc', hdel⟩ := deleteAll_spec hc fds.keys fds.keys_nodup (fun fd => (hmem fd).mp)
    refine ⟨{ t' with capioFilesPaths := t'.capioFilesPaths.erase path }, by dsimp only; rw [hfold]; rfl,
      ⟨hc'.sameKeys, ?_⟩, ?_, ?_, ?_, hdel.offsets⟩
    · apply hc'.indexed.erase_value_iff.mpr
      intro fd
      rw [hdel.descriptors fd]
      split_ifs with hfd
      · exact nofun
      · exact fun he => hfd ((hmem fd).mpr he)
    · intro fd
      simp only [hdel.descriptors fd, hmem]
    · intro fd
      simp only [hdel.files fd, hmem]
    · intro q
      rw [UnorderedMap.lookup_erase_eq]
      split_ifs with hq
      · rfl
      · exact hdel.paths q hq

theorem assignAll_spec (newpath : CString) (fds : List Int) (descriptors : UnorderedMap Int CString)
    (h : ∀ fd ∈ fds, fd ∈ descriptors) :
    ∃ assigned, fds.foldlM (assignPath newpath) descriptors = some assigned ∧
      ∀ fd, assigned.lookup fd = if fd ∈ fds then some newpath else descriptors.lookup fd := by
  induction fds generalizing descriptors with
  | nil => exact ⟨descriptors, rfl, by simp⟩
  | cons fd fds ih =>
    have hrest (i : Int) (hi : i ∈ fds) : i ∈ descriptors.insert fd newpath :=
      (AList.mem_insert _).mpr (.inr (h i (List.mem_cons_of_mem fd hi)))
    obtain ⟨assigned, hfold, hlookup⟩ := ih _ hrest
    refine ⟨assigned, ?_, ?_⟩
    · rw [List.foldlM_cons, assignPath, if_pos (h fd List.mem_cons_self)]
      exact hfold
    · intro i
      rw [hlookup i, UnorderedMap.lookup_insert_eq, ite_cons]

/-- Renaming loses the descriptors of the old path when the new one is a key. -/
def LosesSet (t : DescriptorTables) (oldpath newpath : CString) : Prop :=
  oldpath ≠ newpath ∧ newpath ∈ t.capioFilesPaths ∧
    ∃ fd, t.capioFilesDescriptors.lookup fd = some oldpath

private theorem mem_assigned {assigned descriptors : UnorderedMap Int CString} {fds : List Int}
    (h : ∀ fd ∈ fds, fd ∈ descriptors)
    (hlookup : ∀ fd, assigned.lookup fd = if fd ∈ fds then some newpath else descriptors.lookup fd) :
    fd ∈ assigned ↔ fd ∈ descriptors := by
  rw [← AList.lookup_isSome, hlookup fd]
  split_ifs with hfd
  · exact iff_of_true rfl (h fd hfd)
  · exact AList.lookup_isSome

private theorem rename_fresh {entry : UnorderedSet Int} (hc : Consistent t)
    (hentry : t.capioFilesPaths.lookup oldpath = some entry)
    (hnew : newpath ∉ t.capioFilesPaths.erase oldpath) :
    ∃ t', t.renameCapioPath oldpath newpath = some t' ∧ t'.files = t.files ∧ Consistent t' ∧
      ∀ fd, t'.capioFilesDescriptors.lookup fd = if t.capioFilesDescriptors.lookup fd = some oldpath
        then some newpath else t.capioFilesDescriptors.lookup fd := by
  have hmem (fd : Int) : fd ∈ entry.keys ↔ t.capioFilesDescriptors.lookup fd = some oldpath :=
    AList.mem_keys.trans (hc.indexed.mem_iff hentry)
  have hin (fd : Int) (hfd : fd ∈ entry.keys) : fd ∈ t.capioFilesDescriptors :=
    AList.lookup_isSome.mp (by rw [(hmem fd).mp hfd]; rfl)
  obtain ⟨assigned, hfold, hlookup⟩ := assignAll_spec newpath entry.keys t.capioFilesDescriptors hin
  refine ⟨{ t with
    capioFilesPaths := (t.capioFilesPaths.erase oldpath).insert newpath entry
    capioFilesDescriptors := assigned }, ?_, rfl, ⟨?_, ?_⟩, ?_⟩
  · unfold renameCapioPath UnorderedMap.emplace
    simp only [hentry, if_neg hnew, AList.lookup_insert, Option.bind_eq_bind, Option.bind_some, hfold]
  · intro fd
    exact (mem_assigned hin hlookup).trans (hc.sameKeys fd)
  · apply hc.indexed.rename hentry (AList.lookup_eq_none.mpr hnew)
    intro fd
    rw [hlookup fd]
    exact if_congr AList.mem_keys rfl rfl
  · intro fd
    rw [hlookup fd]
    exact if_congr (hmem fd) rfl rfl

private theorem rename_onto {entry : UnorderedSet Int} (hc : Consistent t)
    (hentry : t.capioFilesPaths.lookup oldpath = some entry)
    (hnew : newpath ∈ t.capioFilesPaths.erase oldpath) :
    ∃ t', t.renameCapioPath oldpath newpath = some t' ∧ t'.files = t.files ∧
      (Consistent t' ↔ ∀ fd, t.capioFilesDescriptors.lookup fd ≠ some oldpath) ∧
      (∀ fd, t'.capioFilesDescriptors.lookup fd = t.capioFilesDescriptors.lookup fd) ∧
      t'.capioFilesPaths = t.capioFilesPaths.erase oldpath := by
  obtain ⟨fds, hfds⟩ := Option.isSome_iff_exists.mp (AList.lookup_isSome.mpr hnew)
  have hold : t.capioFilesPaths.lookup newpath = some fds := by
    rw [← hfds, AList.lookup_erase_ne (AList.mem_erase.mp hnew).1]
  have hmem (fd : Int) : fd ∈ fds.keys ↔ t.capioFilesDescriptors.lookup fd = some newpath :=
    AList.mem_keys.trans (hc.indexed.mem_iff hold)
  have hin (fd : Int) (hfd : fd ∈ fds.keys) : fd ∈ t.capioFilesDescriptors :=
    AList.lookup_isSome.mp (by rw [(hmem fd).mp hfd]; rfl)
  obtain ⟨assigned, hfold, hlookup⟩ := assignAll_spec newpath fds.keys t.capioFilesDescriptors hin
  -- the descriptors under the new path have that path already
  have hsame (fd : Int) : assigned.lookup fd = t.capioFilesDescriptors.lookup fd := by
    rw [hlookup fd]
    split_ifs with hfd
    · exact ((hmem fd).mp hfd).symm
    · rfl
  refine ⟨{ t with
    capioFilesPaths := t.capioFilesPaths.erase oldpath
    capioFilesDescriptors := assigned }, ?_, rfl, ?_, hsame, rfl⟩
  · unfold renameCapioPath UnorderedMap.emplace
    simp only [hentry, if_pos hnew, hfds, Option.bind_eq_bind, Option.bind_some, hfold]
  · rw [← hc.indexed.erase_value_iff]
    constructor
    · intro hc'
      exact (Indexes.congr hsame).mp hc'.indexed
    · intro hindexed
      exact ⟨fun fd => (mem_assigned hin hlookup).trans (hc.sameKeys fd), (Indexes.congr hsame).mpr hindexed⟩

/-- The descriptors of the old path take the new one, unless their set is lost. -/
theorem renameCapioPath_spec (hc : Consistent t) (oldpath newpath : CString) :
    ∃ t', t.renameCapioPath oldpath newpath = some t' ∧ t'.files = t.files ∧
      (Consistent t' ↔ ¬ t.LosesSet oldpath newpath) ∧
      (¬ t.LosesSet oldpath newpath → ∀ fd, t'.capioFilesDescriptors.lookup fd =
        if t.capioFilesDescriptors.lookup fd = some oldpath then some newpath
        else t.capioFilesDescriptors.lookup fd) ∧
      (t.LosesSet oldpath newpath → oldpath ∉ t'.capioFilesPaths ∧
        ∀ fd, t'.capioFilesDescriptors.lookup fd = t.capioFilesDescriptors.lookup fd) := by
  cases hentry : t.capioFilesPaths.lookup oldpath with
  | none =>
    have hnone (fd : Int) : t.capioFilesDescriptors.lookup fd ≠ some oldpath := by
      intro hfd
      obtain ⟨_, hlisted, _⟩ := hc.indexed.listed hfd
      rw [hentry] at hlisted
      cases hlisted
    have hkept : ¬ t.LosesSet oldpath newpath := fun ⟨_, _, fd, hfd⟩ => hnone fd hfd
    refine ⟨t, by rw [renameCapioPath, hentry], rfl, iff_of_true hc hkept, fun _ fd => ?_,
      fun hloses => absurd hloses hkept⟩
    rw [if_neg (hnone fd)]
  | some entry =>
    by_cases hnew : newpath ∈ t.capioFilesPaths.erase oldpath
    · obtain ⟨t', heq, hfiles, hiff, hsame, hpaths⟩ := rename_onto hc hentry hnew
      obtain ⟨hne, hmem⟩ := AList.mem_erase.mp hnew
      have hloses : t.LosesSet oldpath newpath ↔ ∃ fd, t.capioFilesDescriptors.lookup fd = some oldpath := by
        rw [LosesSet, and_iff_right (Ne.symm hne), and_iff_right hmem]
      refine ⟨t', heq, hfiles, hiff.trans ?_, fun hkept fd => ?_, fun _ => ⟨?_, hsame⟩⟩
      · rw [hloses, not_exists]
      · rw [hsame fd, if_neg (fun h => hkept (hloses.mpr ⟨fd, h⟩))]
      · rw [hpaths, AList.mem_erase]
        exact fun h => h.1 rfl
    · obtain ⟨t', heq, hfiles, hc', hmoved⟩ := rename_fresh hc hentry hnew
      have hkept : ¬ t.LosesSet oldpath newpath :=
        fun ⟨hne, hmem, _⟩ => hnew (AList.mem_erase.mpr ⟨Ne.symm hne, hmem⟩)
      exact ⟨t', heq, hfiles, iff_of_true hc' hkept, fun _ => hmoved, fun hloses => absurd hloses hkept⟩

end DescriptorTables
end Capio.Posix
