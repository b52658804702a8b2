import Capio.Posix.CallVariants

/-! Which calls that fail in the kernel leave the tables as they were. -/
namespace Capio.Posix
open Library DescriptorTables

/-- The same entries, whatever their order in the hash tables. -/
structure SameTables (t t' : DescriptorTables) : Prop where
  descriptors : ∀ fd, t'.capioFilesDescriptors.lookup fd = t.capioFilesDescriptors.lookup fd
  paths : ∀ path, path ∈ t'.capioFilesPaths ↔ path ∈ t.capioFilesPaths
  listed : ∀ path fds fds', t.capioFilesPaths.lookup path = some fds →
    t'.capioFilesPaths.lookup path = some fds' → ∀ fd, fd ∈ fds' ↔ fd ∈ fds
  files : ∀ fd, t'.files.lookup fd = t.files.lookup fd
  offsets : t'.offsets = t.offsets

theorem SameTables.refl (t : DescriptorTables) : SameTables t t := by
  refine ⟨fun _ => rfl, fun _ => Iff.rfl, fun path fds fds' hfds hfds' fd => ?_, fun _ => rfl, rfl⟩
  rw [Option.some.inj (hfds.symm.trans hfds')]

/-- The kernel returns a negated error number to the handlers that run the call
themselves. The others end before the kernel decides. -/
def SystemCall.mayFail : SystemCall → Bool
  | .dup _ res | .dup2 _ _ res | .dup3 _ _ _ res => res < 0
  | .rename .. | .unlink .. | .unlinkat .. => true
  | _ => false

section
variable (env : ClientEnv) (t : DescriptorTables) (c : Call)

/-- The handler returns, with the tables as they were. -/
def LeavesTables : Prop := ∃ o, Process.handle env t c = some o ∧ SameTables t o.tables

/-- The number is registered already with what a copy of `fd` would bring. -/
def CopyStands (fd res : Int) (cloexec : Bool) : Prop :=
  ∃ path fds cell, t.capioFilesDescriptors.lookup fd = some path ∧ t.capioFilesPaths.lookup path = some fds ∧
    res ∈ fds ∧ t.files.lookup res = some ⟨cell, cloexec⟩ ∧ res ∈ t.capioFilesDescriptors

/-- Nothing is registered for the error number `res` as if it were a descriptor. -/
def CopySpares (fd res : Int) (cloexec : Bool) : Prop :=
  fd ∉ t.files ∨ res = -1 ∨ CopyStands t fd res cloexec

def Spares : Prop :=
  match c.call with
  | .dup fd res => CopySpares t fd res false
  | .dup2 fd _ res => fd = res ∨ CopySpares t fd res false
  | .dup3 fd fd2 flags res => fd = fd2 ∨ CopySpares t fd res (flags &&& oCloexec = oCloexec)
  | .rename oldpath newpath =>
    isPrefix (capioAbsolute env c.view oldpath) (capioAbsolute env c.view newpath) ∨
      ¬ Tracks env t (capioAbsolute env c.view oldpath)
  | .unlink pathname => ¬ Tracks env t pathname
  | .unlinkat pathname => ¬ Tracks env t (capioPosixRealpath env c.view pathname)
  | _ => True

end

theorem isPrefix_self (path : CString) : isPrefix path path = true := by
  have hnone : StdPath.mismatch (StdPath.components path) (StdPath.components path) = ([], []) := by
    simpa using StdPath.mismatch_append_self [] (StdPath.components path)
  simp [isPrefix, StdPath.lexicallyRelative, hnone, StdPath.dot, StdPath.dotdot]

section
variable {env : ClientEnv} {view : KernelView} {t t' : DescriptorTables} {fd res : Int} {cloexec : Bool}

theorem copyStands_of_same (h : t.dupCapioFd fd res cloexec = some t') (hsame : SameTables t t') :
    CopyStands t fd res cloexec := by
  obtain ⟨path, fds, file, hpath, hfds, _, rfl⟩ := dupCapioFd_found h
  refine ⟨path, fds, ((t.files.lookup res).getD file).offsetCell, hpath, hfds, ?_, ?_, ?_⟩
  · have hlisted := hsame.listed path fds _ hfds (AList.lookup_insert _) res
    exact hlisted.mp ((UnorderedMap.mem_emplace fds res res ()).mpr (.inl rfl))
  · have hfile := hsame.files res
    rw [AList.lookup_insert] at hfile
    exact hfile.symm
  · have hdescriptor := hsame.descriptors res
    rw [UnorderedMap.lookup_emplace, if_pos rfl] at hdescriptor
    exact AList.lookup_isSome.mp (by rw [← hdescriptor]; rfl)

theorem emplace_of_mem {κ ν : Type} [DecidableEq κ] {m : UnorderedMap κ ν} {k : κ} (hk : k ∈ m) (v : ν) :
    UnorderedMap.emplace m k v = m := if_pos hk

theorem same_of_copyStands (hfile : fd ∈ t.files) (h : CopyStands t fd res cloexec) :
    ∃ t', t.dupCapioFd fd res cloexec = some t' ∧ SameTables t t' := by
  obtain ⟨path, fds, cell, hpath, hfds, hlisted, hcopy, hdescriptor⟩ := h
  obtain ⟨file, hfile⟩ := Option.isSome_iff_exists.mp (AList.lookup_isSome.mpr hfile)
  refine ⟨_, dupCapioFd_eq hpath hfds hfile res cloexec, ?_⟩
  · rw [hcopy, emplace_of_mem hlisted, emplace_of_mem hdescriptor,
      emplace_of_mem (AList.lookup_isSome.mp (hcopy ▸ rfl) : res ∈ t.files)]
    refine ⟨fun _ => rfl, fun q => ?_, fun q qfds qfds' hq hq' i => ?_, fun i => ?_, rfl⟩
    · refine (AList.mem_insert _).trans (or_iff_right_of_imp ?_)
      intro hq
      rw [hq]
      exact AList.lookup_isSome.mp (by rw [hfds]; rfl)
    · rw [UnorderedMap.lookup_insert_eq] at hq'
      split_ifs at hq' with heq
      · cases hq'
        rw [heq, hfds] at hq
        cases hq
        rfl
      · rw [hq] at hq'
        cases hq'
        rfl
    · rw [UnorderedMap.lookup_insert_eq]
      split_ifs with hi
      · rw [hi, hcopy]
        rfl
      · rfl

theorem copyFd_leaves_iff (registers : Bool) : (∃ o, copyFd view t fd res registers cloexec = some o ∧
    SameTables t o.tables) ↔ registers = false ∨ CopySpares t fd res cloexec := by
  unfold copyFd CopySpares
  by_cases hfd : fd ∈ t.files
  · rw [if_pos (existsCapioFd_iff.mpr hfd)]
    by_cases hres : res = -1
    · rw [if_pos hres]
      exact iff_of_true ⟨_, rfl, .refl t⟩ (.inr (.inr (.inl hres)))
    · rw [if_neg hres, or_iff_right (not_not.mpr hfd), or_iff_right hres]
      cases registers with
      | false => exact iff_of_true ⟨_, rfl, .refl t⟩ (.inl rfl)
      | true =>
        rw [or_iff_right (by simp)]
        constructor
        · rintro ⟨o, ho, hsame⟩
          obtain ⟨t', hdup, ho⟩ := Option.bind_eq_some_iff.mp ho
          cases ho
          exact copyStands_of_same hdup hsame
        · intro h
          obtain ⟨t', hdup, hsame⟩ := same_of_copyStands hfd h
          exact ⟨⟨t', [], some res⟩, by rw [if_pos rfl, hdup]; rfl, hsame⟩
  · rw [if_neg (fun he => hfd (existsCapioFd_iff.mp he))]
    exact iff_of_true ⟨_, rfl, .refl t⟩ (.inr (.inl hfd))

theorem rename_leaves_iff {tid : Int} {oldpath newpath : CString} :
    (∃ o, renameHandler env view t tid oldpath newpath = some o ∧ SameTables t o.tables) ↔
      isPrefix (capioAbsolute env view oldpath) (capioAbsolute env view newpath) ∨
        ¬ Tracks env t (capioAbsolute env view oldpath) := by
  unfold renameHandler Tracks
  dsimp only
  by_cases hprefix : isPrefix (capioAbsolute env view oldpath) (capioAbsolute env view newpath) = true
  · rw [if_pos hprefix]
    exact iff_of_true ⟨_, rfl, .refl t⟩ (.inl hprefix)
  · rw [if_neg hprefix, or_iff_right hprefix]
    by_cases hin : isCapioPath env.capioDir (capioAbsolute env view oldpath) = true
    · rw [if_pos hin, and_iff_right hin]
      have hne : capioAbsolute env view oldpath ≠ capioAbsolute env view newpath :=
        fun he => hprefix (he ▸ isPrefix_self _)
      constructor
      · rintro ⟨o, ho, hsame⟩ hkey
        obtain ⟨t', hrename, ho⟩ := Option.bind_eq_some_iff.mp ho
        cases ho
        -- the old path is no key any more
        have hgone : capioAbsolute env view oldpath ∉ t'.capioFilesPaths := by
          obtain ⟨hnone, _⟩ | ⟨entry, fds, descriptors, _, _, _, rfl⟩ := renameCapioPath_cases hrename
          · exact absurd hkey (AList.lookup_eq_none.mp hnone)
          rw [UnorderedMap.mem_emplace, AList.mem_erase]
          exact fun h => h.elim hne fun he => he.1 rfl
        exact hgone ((hsame.paths _).mpr hkey)
      · intro hkey
        rw [renameCapioPath, AList.lookup_eq_none.mpr hkey]
        exact ⟨_, rfl, .refl t⟩
    · rw [if_neg hin]
      exact iff_of_true ⟨_, rfl, .refl t⟩ (fun h => hin h.1)

theorem unlink_leaves_iff {path : CString} :
    (∃ o, unlinkPath env t path = some o ∧ SameTables t o.tables) ↔ ¬ Tracks env t path := by
  unfold unlinkPath Tracks
  by_cases hin : isCapioPath env.capioDir path = true
  · rw [if_pos hin, and_iff_right hin]
    constructor
    · rintro ⟨o, ho, hsame⟩ hkey
      obtain ⟨t', hdelete, ho⟩ := Option.bind_eq_some_iff.mp ho
      cases ho
      exact (((deleteCapioPath_keys hdelete).2 path).mp ((hsame.paths path).mpr hkey)).1 rfl
    · intro hkey
      rw [deleteCapioPath, AList.lookup_eq_none.mpr hkey]
      exact ⟨_, rfl, .refl t⟩
  · rw [if_neg hin]
    exact iff_of_true ⟨_, rfl, .refl t⟩ (fun h => hin h.1)

end

/-- A failed call leaves the tables alone just when its error number is not registered
for a copy, and its path is not one the tables list. -/
theorem failed_call_leaves_tables_iff (env : ClientEnv) (t : DescriptorTables) (c : Call)
    (hfails : c.call.mayFail = true) : LeavesTables env t c ↔ Spares env t c := by
  obtain ⟨tid, view, call⟩ := c
  unfold LeavesTables Spares
  cases call with
  | dup fd res =>
    refine (copyFd_leaves_iff true).trans ?_
    rw [or_iff_right (by simp)]
  | dup2 fd fd2 res =>
    refine (copyFd_leaves_iff _).trans ?_
    simp
  | dup3 fd fd2 flags res =>
    dsimp only [Process.handle, dup3Handler]
    by_cases hsame : fd = fd2
    · by_cases hfd : t.existsCapioFd fd = true
      · rw [if_pos ⟨hfd, hsame⟩]
        exact iff_of_true ⟨_, rfl, .refl t⟩ (.inl hsame)
      · rw [if_neg (fun h => hfd h.1), copyFd_leaves_iff]
        exact iff_of_true (.inr (.inl (mt existsCapioFd_iff.mpr hfd))) (.inl hsame)
    · rw [if_neg (fun h => hsame h.2), or_iff_right hsame, copyFd_leaves_iff, or_iff_right (by simp)]
  | rename oldpath newpath => exact rename_leaves_iff
  | unlink pathname => exact unlink_leaves_iff
  | unlinkat pathname => exact unlink_leaves_iff
  | _ => cases hfails

def oneOpen : DescriptorTables := (initFilesystem.addCapioFd "/c/f".toList 3 0 false).getD initFilesystem

/-- `dup` of descriptor 3 fails with `EMFILE`. -/
def exhausted : Call := ⟨7, emptyKernel, .dup 3 (-24)⟩

theorem failed_call_leaves_tables_iff_exhausted : exhausted.call.mayFail = true ∧
    (LeavesTables inCapioDir oneOpen exhausted ↔ Spares inCapioDir oneOpen exhausted) := by
  have hfails : exhausted.call.mayFail = true := by decide
  exact ⟨hfails, failed_call_leaves_tables_iff inCapioDir oneOpen exhausted hfails⟩

/-- The error number is registered as a copy of the descriptor. -/
theorem error_number_registered : exhausted.call.mayFail = true ∧ ¬ LeavesTables inCapioDir oneOpen exhausted := by
  refine ⟨by decide, fun h => ?_⟩
  have hleaves : ∃ o, copyFd emptyKernel oneOpen 3 (-24) true false = some o ∧ SameTables oneOpen o.tables := h
  rw [copyFd_leaves_iff, or_iff_right (by simp)] at hleaves
  rcases hleaves with hfd | hres | ⟨_, _, _, _, _, _, hfile, _⟩
  · exact hfd (by decide)
  · exact absurd hres (by decide)
  · rw [show oneOpen.files.lookup (-24) = none by decide] at hfile
    cases hfile

end Capio.Posix
