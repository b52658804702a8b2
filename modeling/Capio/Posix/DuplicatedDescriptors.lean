import Capio.Posix.FailedCalls
import Capio.Posix.OffsetTracking

/-! When a copy that the kernel makes of a descriptor is tracked as that copy. -/
namespace Capio.Posix
open Library DescriptorTables

/-- The descriptor that a call copies, the number of the copy, and the flag that it
asks for. The kernel gives `dup2` and `dup3` the number they name. -/
def SystemCall.copies : SystemCall → Option (Int × Int × Bool)
  | .dup fd res => some (fd, res, false)
  | .dup2 fd fd2 res => if res = fd2 then some (fd, res, false) else none
  | .dup3 fd fd2 flags res => if res = fd2 then some (fd, res, flags &&& oCloexec = oCloexec) else none
  | _ => none

/-- The copy is tracked if the descriptor is, then in the same way but for the flag, and
nothing else changes. -/
structure Duplicated (t t' : DescriptorTables) (oldfd newfd : Int) (cloexec : Bool) : Prop where
  tracked : newfd ∈ t'.files ↔ oldfd ∈ t'.files
  path : oldfd ∈ t'.files → t'.getCapioFdPath newfd = t'.getCapioFdPath oldfd
  shares : oldfd ∈ t'.files → t'.SharesOffset oldfd newfd
  flag : oldfd ∈ t'.files → (t'.files.lookup newfd).map TrackedFile.isCloexec = some cloexec
  descriptors : ∀ fd, fd ≠ newfd → t'.capioFilesDescriptors.lookup fd = t.capioFilesDescriptors.lookup fd
  files : ∀ fd, fd ≠ newfd → t'.files.lookup fd = t.files.lookup fd
  listed : ∀ fd, fd ≠ newfd → ∀ path, (∃ fds, t'.capioFilesPaths.lookup path = some fds ∧ fd ∈ fds) ↔
    ∃ fds, t.capioFilesPaths.lookup path = some fds ∧ fd ∈ fds
  offsets : t'.offsets = t.offsets

/-- Neither end is tracked, or the descriptor is tracked with a path and the number of the
copy has no path and no offset but those of the descriptor. -/
def Duplicable (t : DescriptorTables) (oldfd newfd : Int) : Prop :=
  oldfd ∉ t.files ∧ newfd ∉ t.files ∨
  oldfd ∈ t.files ∧ ∃ path, t.capioFilesDescriptors.lookup oldfd = some path ∧ path ∈ t.capioFilesPaths ∧
    (∀ q, t.capioFilesDescriptors.lookup newfd = some q → q = path) ∧
    (newfd ∈ t.files → t.SharesOffset oldfd newfd)

variable {env : ClientEnv} {view : KernelView} {t t' : DescriptorTables} {oldfd newfd : Int} {cloexec : Bool}

theorem SharesOffset.getCapioFdOffset_eq (h : t.SharesOffset oldfd newfd) :
    t.getCapioFdOffset newfd = t.getCapioFdOffset oldfd := by
  have hcell (fd : Int) : t.getCapioFdOffset fd =
      ((t.files.lookup fd).map TrackedFile.offsetCell).bind (fun cell => t.offsets[cell]?) := by
    rw [Option.bind_map]
    rfl
  rw [hcell, hcell, h]

/-- A later offset set through either end is seen through both. -/
theorem Duplicated.seen (h : Duplicated t t' oldfd newfd cloexec) {offset old : Nat} {t'' : DescriptorTables}
    (htracked : oldfd ∈ t'.files) (hold : t'.getCapioFdOffset oldfd = some old)
    (hset : t'.setCapioFdOffset oldfd offset = some t'' ∨ t'.setCapioFdOffset newfd offset = some t'') :
    t''.getCapioFdOffset oldfd = some offset ∧ t''.getCapioFdOffset newfd = some offset := by
  have hshares := h.shares htracked
  have hnew : t'.getCapioFdOffset newfd = some old := (SharesOffset.getCapioFdOffset_eq hshares).trans hold
  rcases hset with hset | hset
  · exact ⟨(getCapioFdOffset_set hset hold).1 rfl, (getCapioFdOffset_set hset hnew).1 hshares⟩
  · exact ⟨(getCapioFdOffset_set hset hold).1 hshares.symm, (getCapioFdOffset_set hset hnew).1 rfl⟩

/-- A handler that leaves the tables alone is right where neither end is tracked. -/
theorem duplicated_untouched_iff (hold : oldfd ∉ t.files) :
    Duplicated t t oldfd newfd cloexec ↔ newfd ∉ t.files := by
  constructor
  · exact fun h hnew => hold (h.tracked.mp hnew)
  · intro hnew
    exact ⟨iff_of_false hnew hold, fun h => absurd h hold, fun h => absurd h hold, fun h => absurd h hold,
      fun _ _ => rfl, fun _ _ => rfl, fun _ _ _ => Iff.rfl, rfl⟩

variable (newfd cloexec) in
/-- Registering a copy overwrites neither the path nor the offset cell that its number has. -/
theorem dupCapioFd_spec {path : CString} {fds : UnorderedSet Int} {file : TrackedFile}
    (hpath : t.capioFilesDescriptors.lookup oldfd = some path) (hfds : t.capioFilesPaths.lookup path = some fds)
    (hfile : t.files.lookup oldfd = some file) :
    ∃ t', t.dupCapioFd oldfd newfd cloexec = some t' ∧
      t'.capioFilesDescriptors.lookup newfd = some ((t.capioFilesDescriptors.lookup newfd).getD path) ∧
      t'.files.lookup newfd = some { (t.files.lookup newfd).getD file with isCloexec := cloexec } ∧
      (∀ fd, fd ≠ newfd → t'.capioFilesDescriptors.lookup fd = t.capioFilesDescriptors.lookup fd) ∧
      (∀ fd, fd ≠ newfd → t'.files.lookup fd = t.files.lookup fd) ∧
      (∀ fd, fd ≠ newfd → ∀ q, (∃ fds, t'.capioFilesPaths.lookup q = some fds ∧ fd ∈ fds) ↔
        ∃ fds, t.capioFilesPaths.lookup q = some fds ∧ fd ∈ fds) ∧
      t'.offsets = t.offsets := by
  refine ⟨_, dupCapioFd_eq hpath hfds hfile newfd cloexec, ?_, ?_, fun fd hfd => ?_, fun fd hfd => ?_,
    fun fd hfd q => ?_, rfl⟩
  · rw [UnorderedMap.lookup_emplace, if_pos rfl]
  · exact AList.lookup_insert _
  · rw [UnorderedMap.lookup_emplace, if_neg hfd]
  · rw [AList.lookup_insert_ne hfd, UnorderedMap.lookup_emplace, if_neg hfd]
  · dsimp only
    rw [UnorderedMap.lookup_insert_eq]
    split_ifs with hq
    · rw [hq, hfds]
      simp [UnorderedMap.mem_emplace, hfd]
    · rfl

theorem duplicated_registered_iff {path : CString} {fds : UnorderedSet Int} {file : TrackedFile}
    (hpath : t.capioFilesDescriptors.lookup oldfd = some path) (hfds : t.capioFilesPaths.lookup path = some fds)
    (hfile : t.files.lookup oldfd = some file) (hne : oldfd ≠ newfd) :
    (∃ t', t.dupCapioFd oldfd newfd cloexec = some t' ∧ Duplicated t t' oldfd newfd cloexec) ↔
      (∀ q, t.capioFilesDescriptors.lookup newfd = some q → q = path) ∧
      (newfd ∈ t.files → t.SharesOffset oldfd newfd) := by
  obtain ⟨t', hdup, hnewpath, hnewfile, hdescriptors, hfiles, hlisted, hoffsets⟩ :=
    dupCapioFd_spec newfd cloexec hpath hfds hfile
  rw [hdup]
  simp only [Option.some.injEq, exists_eq_left']
  have holdfile : t'.files.lookup oldfd = some file := (hfiles oldfd hne).trans hfile
  have htracked : oldfd ∈ t'.files := AList.lookup_isSome.mp (by rw [holdfile]; rfl)
  have hsamePath : t'.getCapioFdPath newfd = t'.getCapioFdPath oldfd ↔
      ∀ q, t.capioFilesDescriptors.lookup newfd = some q → q = path := by
    rw [getCapioFdPath, getCapioFdPath, hnewpath, hdescriptors oldfd hne, hpath, Option.some.injEq]
    cases t.capioFilesDescriptors.lookup newfd with
    | none => simp
    | some q => simp
  have hsameCell : t'.SharesOffset oldfd newfd ↔ (newfd ∈ t.files → t.SharesOffset oldfd newfd) := by
    rw [SharesOffset, SharesOffset, hnewfile, holdfile, hfile, ← AList.lookup_isSome]
    cases t.files.lookup newfd with
    | none => simp
    | some other => simp
  rw [← hsamePath, ← hsameCell]
  constructor
  · exact fun h => ⟨h.path htracked, h.shares htracked⟩
  · rintro ⟨hpaths, hshares⟩
    refine ⟨iff_of_true ?_ htracked, fun _ => hpaths, fun _ => hshares, fun _ => ?_, hdescriptors, hfiles,
      hlisted, hoffsets⟩
    · exact AList.lookup_isSome.mp (by rw [hnewfile]; rfl)
    · rw [hnewfile]
      rfl

theorem copyFd_duplicated_iff {res : Int} (hres : 0 ≤ res) (hne : oldfd ≠ res) :
    (∃ o, copyFd view t oldfd res true cloexec = some o ∧ Duplicated t o.tables oldfd res cloexec) ↔
      Duplicable t oldfd res := by
  unfold copyFd Duplicable
  by_cases hold : oldfd ∈ t.files
  · rw [if_pos (existsCapioFd_iff.mpr hold), if_neg (by omega), or_iff_right (fun h => h.1 hold),
      and_iff_right hold]
    have hregisters : (∃ o, (do
        let t ← if true = true then t.dupCapioFd oldfd res cloexec else some t
        some (⟨t, [], some res⟩ : Outcome)) = some o ∧ Duplicated t o.tables oldfd res cloexec) ↔
        ∃ t', t.dupCapioFd oldfd res cloexec = some t' ∧ Duplicated t t' oldfd res cloexec := by
      rw [if_pos rfl]
      cases t.dupCapioFd oldfd res cloexec with
      | none => simp
      | some t' => simp
    rw [hregisters]
    constructor
    · rintro ⟨t', hdup, h⟩
      obtain ⟨path, hpath, hdup'⟩ := Option.bind_eq_some_iff.mp hdup
      obtain ⟨fds, hfds, hdup'⟩ := Option.bind_eq_some_iff.mp hdup'
      obtain ⟨file, hfile, _⟩ := Option.bind_eq_some_iff.mp hdup'
      obtain ⟨hpaths, hshares⟩ := (duplicated_registered_iff hpath hfds hfile hne).mp ⟨t', hdup, h⟩
      exact ⟨path, hpath, AList.lookup_isSome.mp (by rw [hfds]; rfl), hpaths, hshares⟩
    · rintro ⟨path, hpath, hkey, hpaths, hshares⟩
      obtain ⟨fds, hfds⟩ := Option.isSome_iff_exists.mp (AList.lookup_isSome.mpr hkey)
      obtain ⟨file, hfile⟩ := Option.isSome_iff_exists.mp (AList.lookup_isSome.mpr hold)
      exact (duplicated_registered_iff hpath hfds hfile hne).mpr ⟨hpaths, hshares⟩
  · rw [if_neg (fun he => hold (existsCapioFd_iff.mp he)), or_iff_left (fun h => hold h.1), and_iff_right hold]
    simp only [Option.some.injEq, exists_eq_left']
    exact duplicated_untouched_iff hold

/-- A successful copy is tracked as one just when the tables hold nothing else for its number. -/
theorem duplicated_iff (env : ClientEnv) (t : DescriptorTables) (c : Call) {oldfd newfd : Int} {cloexec : Bool}
    (hcopies : c.call.copies = some (oldfd, newfd, cloexec)) (hsuccess : 0 ≤ newfd) (hne : oldfd ≠ newfd) :
    (∃ o, Process.handle env t c = some o ∧ Duplicated t o.tables oldfd newfd cloexec) ↔
      Duplicable t oldfd newfd := by
  obtain ⟨tid, view, call⟩ := c
  cases call with
  | dup fd res =>
    cases hcopies
    exact copyFd_duplicated_iff hsuccess hne
  | dup2 fd fd2 res =>
    dsimp only [SystemCall.copies] at hcopies
    split_ifs at hcopies with hres
    cases hcopies
    dsimp only [Process.handle, dup2Handler]
    rw [decide_eq_true hne]
    exact copyFd_duplicated_iff hsuccess hne
  | dup3 fd fd2 flags res =>
    dsimp only [SystemCall.copies] at hcopies
    split_ifs at hcopies with hres
    cases hcopies
    dsimp only [Process.handle, dup3Handler]
    rw [if_neg (fun h => hne (h.2.trans hres.symm))]
    exact copyFd_duplicated_iff hsuccess hne
  | _ => cases hcopies

/-- `dup2(3, 4)`, where nothing is known of descriptor 4. -/
def redirected : Call := ⟨7, emptyKernel, .dup2 3 4 4⟩

theorem duplicated_iff_redirected : redirected.call.copies = some (3, 4, false) ∧
    ((∃ o, Process.handle inCapioDir oneOpen redirected = some o ∧ Duplicated oneOpen o.tables 3 4 false) ↔
      Duplicable oneOpen 3 4) := by
  have hcopies : redirected.call.copies = some (3, 4, false) := rfl
  exact ⟨hcopies, duplicated_iff inCapioDir oneOpen redirected hcopies (by decide) (by decide)⟩

/-- The kernel closes descriptor 3 for a copy of descriptor 1, which is not tracked, and the
tables keep the file for it. -/
def closedSilently : Call := ⟨7, emptyKernel, .dup2 1 3 3⟩

theorem closed_file_still_tracked : closedSilently.call.copies = some (1, 3, false) ∧
    ¬ ∃ o, Process.handle inCapioDir oneOpen closedSilently = some o ∧ Duplicated oneOpen o.tables 1 3 false := by
  refine ⟨rfl, ?_⟩
  have hhandled : Process.handle inCapioDir oneOpen closedSilently = some ⟨oneOpen, [], none⟩ := by rfl
  rw [hhandled]
  simp only [Option.some.injEq, exists_eq_left']
  rw [duplicated_untouched_iff (by decide)]
  decide

end Capio.Posix
