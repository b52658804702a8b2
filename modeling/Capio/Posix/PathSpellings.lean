import Capio.Common.PathNormalization
import Capio.Posix.CallVariants

/-! When two spellings of a file reach the server, and the tables, as one path. -/
namespace Capio.Posix
open Library DescriptorTables
open StdPath (fileNames names walk)

/-- What is registered: a path from the root, or the empty one that a rename to a name which
cannot be resolved leaves. -/
def Registrable (path : CString) : Prop := StdPath.isAbsolute path = true ∨ path = []

/-- A client process at a call, with the directories that the kernel has for it. No name on the
way to a file is a symbolic link. -/
structure Caller (capioDir : CString) where
  currentDir : CString
  view : KernelView
  tables : DescriptorTables
  cwd : List CString
  dirs : Int → Option (List CString)
  currentDir_absolute : StdPath.isAbsolute currentDir = true
  cwd_valid : ∀ name ∈ cwd, StdPath.ValidName name
  registrable : tables.AllPaths Registrable
  realpath_resolves : ∀ r path, StdPath.isAbsolute r = false → view.realpath r = some path →
    path = StdPath.rooted (walk cwd (names r))
  readlink_absolute : ∀ fd path, isDirectory view fd = true → view.readlink fd = some path →
    StdPath.isAbsolute path = true

structure Spelling (capioDir : CString) extends Caller capioDir where
  pathname : CString
  dirfd : Int

/-- The path of the requests and the key of the tables, if `is_capio_path` accepts it. -/
def capioKey (capioDir path : CString) : Option CString := if isCapioPath capioDir path then some path else none

namespace Spelling
variable {capioDir : CString}

def path (s : Spelling capioDir) : CString :=
  computeAbsPath ⟨capioDir, s.currentDir⟩ s.view s.tables s.pathname s.dirfd

/-- The directory that the kernel takes the name from. -/
def kernelDir (s : Spelling capioDir) : Option (List CString) :=
  if StdPath.isAbsolute s.pathname then some []
  else if s.dirfd = atFdcwd then some s.cwd
  else s.dirs s.dirfd

def file (s : Spelling capioDir) : Option (List CString) := s.kernelDir.map (walk · (names s.pathname))

def SameFile (s s' : Spelling capioDir) : Prop := ∃ ns, s.file = some ns ∧ s'.file = some ns

/-- The name is left to the kernel's `realpath`, which finds it. -/
def foundByKernel (s : Spelling capioDir) : Bool :=
  !StdPath.isAbsolute s.pathname && s.dirfd = atFdcwd && (s.view.realpath s.pathname).isSome

/-- The directory that the library takes the name from. -/
def startsFrom (s : Spelling capioDir) : List CString :=
  if StdPath.isAbsolute s.pathname then []
  else if s.dirfd = atFdcwd then if s.foundByKernel then s.cwd else fileNames s.currentDir
  else fileNames (getDirPath s.view s.tables s.dirfd)

def place (s : Spelling capioDir) : List CString := walk s.startsFrom (names s.pathname)

/-- The name ends in a slash, `.` or `..`, and is not left to `realpath`. -/
def keepsSlash (s : Spelling capioDir) : Bool := !s.foundByKernel && !StdPath.endsInName s.pathname

def normalPath (s : Spelling capioDir) : CString :=
  StdPath.normalText s.place (decide (s.place ≠ []) && s.keepsSlash)

/-- An absolute name is in normal form. -/
def Plain (s : Spelling capioDir) : Prop :=
  StdPath.isAbsolute s.pathname = true → StdPath.lexicallyNormal s.pathname = s.pathname

/-- The names lead to one place and end alike, or both lead out of the CAPIO directory. -/
def Agree (s s' : Spelling capioDir) : Prop :=
  s.place = s'.place ∧ (s.place = [] ∨ s.keepsSlash = s'.keepsSlash) ∨
    isCapioPath capioDir s.normalPath = false ∧ isCapioPath capioDir s'.normalPath = false

structure OneKey (s s' : Spelling capioDir) : Prop where
  normal : StdPath.lexicallyNormal s.path = s.path
  normal' : StdPath.lexicallyNormal s'.path = s'.path
  same : SameFile s s' → capioKey capioDir s.path = capioKey capioDir s'.path

end Spelling

/-- Paths with one key are opened alike: one request, and one change of the tables. -/
theorem openPath_congr {env : ClientEnv} {path path' : CString} (h : capioKey env.capioDir path = capioKey env.capioDir path')
    (t : DescriptorTables) (tid : Int) (create cloexec : Bool) (fd : Int) :
    openPath env t tid path create cloexec fd = openPath env t tid path' create cloexec fd := by
  unfold capioKey at h
  cases hin : isCapioPath env.capioDir path with
  | true =>
    rw [if_pos hin] at h
    split_ifs at h with hin'
    rw [Option.some.inj h]
  | false =>
    rw [if_neg (by simp [hin])] at h
    split_ifs at h with hin'
    unfold openPath
    simp [hin, hin']

theorem capioKey_eq_iff (capioDir path path' : CString) : capioKey capioDir path = capioKey capioDir path' ↔
    path = path' ∨ isCapioPath capioDir path = false ∧ isCapioPath capioDir path' = false := by
  unfold capioKey
  cases h : isCapioPath capioDir path <;> cases h' : isCapioPath capioDir path' <;> simp
  all_goals
    intro he
    rw [he, h'] at h
    cases h

/-! ### What the tables hold -/

theorem capioAbsolute_registrable {env : ClientEnv} {view : KernelView} (hdir : StdPath.isAbsolute env.capioDir = true)
    (hreal : ∀ r path, view.realpath r = some path → StdPath.isAbsolute path = true) (pathname : CString) :
    Registrable (capioAbsolute env view pathname) := by
  unfold capioAbsolute
  split_ifs with habs
  · exact .inl habs
  · cases hfound : view.realpath pathname with
    | some path =>
      rw [capioPosixRealpath_found hfound]
      exact .inl (hreal pathname path hfound)
    | none =>
      rw [capioPosixRealpath_missing hfound (Bool.eq_false_iff.mpr habs)]
      split_ifs with hin
      · exact .inl (isAbsolute_of_isCapioPath hdir hin)
      · exact .inr rfl

/-- In every run, the registered paths are ones to start from. -/
theorem registrable_of_run {env : ClientEnv} (hdir : StdPath.isAbsolute env.capioDir = true) {opened : Finset Int}
    {ts : Process.Trace} {p : Process}
    (hreal : ∀ x ∈ ts, ∀ r path, x.label.action.view.realpath r = some path → StdPath.isAbsolute path = true)
    (h : Run (Process.Step env) (Process.start opened) ts p) : p.tables.AllPaths Registrable := by
  have hkept : Process.KeptByTables env.capioDir Registrable (AllPaths Registrable) :=
    { add := fun hin _ ht h => addCapioFd_allPaths h (.inl (isAbsolute_of_isCapioPath hdir hin)) ht
      dup := fun _ ht h => dupCapioFd_allPaths h ht
      deleteFd := fun ht h => deleteCapioFd_allPaths h ht
      deletePath := fun ht h => deleteCapioPath_allPaths h ht
      rename := fun hgood ht h => renameCapioPath_allPaths h hgood ht }
  refine hkept.run nofun ?_ h
  intro x hx oldpath newpath _
  exact capioAbsolute_registrable hdir (hreal x hx) newpath

/-! ### What the library makes of a name -/

namespace Spelling
variable {capioDir : CString} {s s' : Spelling capioDir}

theorem dirPath_absolute (hdir : isDirectory s.view s.dirfd = true) (hne : getDirPath s.view s.tables s.dirfd ≠ []) :
    StdPath.isAbsolute (getDirPath s.view s.tables s.dirfd) = true := by
  unfold getDirPath at hne ⊢
  cases htracked : s.tables.capioFilesDescriptors.lookup s.dirfd with
  | some path =>
    rw [htracked] at hne
    exact (s.registrable s.dirfd path htracked).resolve_right hne
  | none =>
    cases hlink : s.view.readlink s.dirfd with
    | some path => exact s.readlink_absolute s.dirfd path hdir hlink
    | none => simp [htracked, hlink] at hne

/-- Where a path that is not rejected comes from: the name itself, the kernel, or the normal form
of the name joined to an absolute directory. -/
theorem path_cases (hne : s.path ≠ []) :
    (StdPath.isAbsolute s.pathname = true ∧ s.path = s.pathname) ∨
    (s.foundByKernel = true ∧ s.startsFrom = s.cwd ∧ s.path = StdPath.rooted (walk s.cwd (names s.pathname))) ∨
    ∃ d, s.foundByKernel = false ∧ StdPath.isAbsolute d = true ∧ s.startsFrom = fileNames d ∧
      StdPath.isAbsolute s.pathname = false ∧ s.path = StdPath.lexicallyNormal (StdPath.append d s.pathname) := by
  unfold path computeAbsPath at hne ⊢
  by_cases habs : StdPath.isAbsolute s.pathname = true
  · exact .inl ⟨habs, if_pos habs⟩
  · right
    have hrel := Bool.eq_false_iff.mpr habs
    rw [if_neg habs] at hne ⊢
    by_cases hcwd : s.dirfd = atFdcwd
    · rw [if_pos hcwd] at hne ⊢
      cases hfound : s.view.realpath s.pathname with
      | some path =>
        have hkernel : s.foundByKernel = true := by simp [foundByKernel, hrel, hcwd, hfound]
        refine .inl ⟨hkernel, by simp [startsFrom, hrel, hcwd, hkernel], ?_⟩
        rw [capioPosixRealpath_found hfound]
        exact s.realpath_resolves s.pathname path hrel hfound
      | none =>
        have hkernel : s.foundByKernel = false := by simp [foundByKernel, hfound]
        refine .inr ⟨s.currentDir, hkernel, s.currentDir_absolute, by simp [startsFrom, hrel, hcwd, hkernel], hrel, ?_⟩
        rw [capioPosixRealpath_missing hfound hrel] at hne ⊢
        split_ifs at hne ⊢ with hin
        · rfl
        · exact absurd rfl hne
    · rw [if_neg hcwd] at hne ⊢
      split_ifs at hne ⊢ with hdir
      · exact absurd rfl hne
      · dsimp only at hne ⊢
        split_ifs at hne ⊢ with hnone
        · exact absurd rfl hne
        · refine .inr ⟨_, by simp [foundByKernel, hcwd], dirPath_absolute (by simpa using hdir) hnone, ?_, hrel, rfl⟩
          simp [startsFrom, hrel, hcwd]

/-- The path is the normal form of the place where the names lead from the library's directory. -/
theorem path_eq (hplain : s.Plain) (hne : s.path ≠ []) :
    s.path = s.normalPath ∧ StdPath.NormalParts s.place (decide (s.place ≠ []) && s.keepsSlash) := by
  have hparts (hvalid : ∀ name ∈ s.startsFrom, StdPath.ValidName name) :
      StdPath.NormalParts s.place (decide (s.place ≠ []) && s.keepsSlash) :=
    ⟨StdPath.walk_valid hvalid fun part hpart => StdPath.slashFree_of_names hpart,
      fun h hnil => by simp [hnil] at h⟩
  unfold normalPath place
  rcases path_cases hne with ⟨habs, hpath⟩ | ⟨hkernel, hfrom, hpath⟩ | ⟨d, hkernel, hd, hfrom, hrel, hpath⟩
  · have hfrom : s.startsFrom = [] := if_pos habs
    have hslash : s.keepsSlash = !StdPath.endsInName s.pathname := by simp [keepsSlash, foundByKernel, habs]
    refine ⟨?_, hparts (hfrom ▸ nofun)⟩
    rw [hpath, hfrom, hslash, ← (StdPath.lexicallyNormal_absolute habs).1]
    exact (hplain habs).symm
  · refine ⟨?_, hparts (hfrom ▸ s.cwd_valid)⟩
    rw [hpath, hfrom, StdPath.rooted_eq]
    simp [keepsSlash, hkernel]
  · refine ⟨?_, hparts (hfrom ▸ StdPath.fileNames_valid hd)⟩
    rw [hpath, StdPath.lexicallyNormal_append hd hrel, hfrom]
    simp [keepsSlash, hkernel]

/-- Every path but that of an absolute name is in normal form. -/
theorem normal_iff (hne : s.path ≠ []) : StdPath.lexicallyNormal s.path = s.path ↔ s.Plain := by
  constructor
  · intro h habs
    have hpath : s.path = s.pathname := if_pos habs
    rwa [hpath] at h
  · intro hplain
    obtain ⟨hpath, hparts⟩ := path_eq hplain hne
    rw [hpath, normalPath, StdPath.lexicallyNormal_normalText hparts]

theorem path_eq_iff (hplain : s.Plain) (hplain' : s'.Plain) (hne : s.path ≠ []) (hne' : s'.path ≠ []) :
    s.path = s'.path ↔ s.place = s'.place ∧ (s.place = [] ∨ s.keepsSlash = s'.keepsSlash) := by
  obtain ⟨hpath, hparts⟩ := path_eq hplain hne
  obtain ⟨hpath', hparts'⟩ := path_eq hplain' hne'
  rw [hpath, hpath']
  unfold normalPath
  constructor
  · intro h
    have hplace := congrArg names h
    rw [StdPath.names_normalText hparts.valid, StdPath.names_normalText hparts'.valid] at hplace
    refine ⟨hplace, ?_⟩
    by_cases hroot : s.place = []
    · exact .inl hroot
    · right
      have hends := congrArg StdPath.hasFilename h
      rw [StdPath.hasFilename_normalText hparts, StdPath.hasFilename_normalText hparts'] at hends
      simpa [hroot, ← hplace] using hends
  · rintro ⟨hplace, hslash⟩
    rw [← hplace]
    rcases hslash with hroot | hslash
    · simp [hroot]
    · rw [hslash]

/-- Where the library starts from the kernel's directory, one file is one place. -/
theorem place_eq_of_sameFile (hdir : s.kernelDir = some s.startsFrom) (hdir' : s'.kernelDir = some s'.startsFrom)
    (h : SameFile s s') : s.place = s'.place := by
  obtain ⟨ns, hfile, hfile'⟩ := h
  rw [file, hdir] at hfile
  rw [file, hdir'] at hfile'
  exact (Option.some.inj hfile).trans (Option.some.inj hfile').symm

end Spelling

/-- Two names that are not rejected come to normal paths, the same for the same file, just when
absolute ones are in normal form already and the two are looked for in one place and end alike. -/
theorem one_key_iff {capioDir : CString} (s s' : Spelling capioDir) (hne : s.path ≠ []) (hne' : s'.path ≠ []) :
    Spelling.OneKey s s' ↔ s.Plain ∧ s'.Plain ∧ (Spelling.SameFile s s' → Spelling.Agree s s') := by
  have hkeys (hplain : s.Plain) (hplain' : s'.Plain) :
      capioKey capioDir s.path = capioKey capioDir s'.path ↔ Spelling.Agree s s' := by
    rw [capioKey_eq_iff, Spelling.path_eq_iff hplain hplain' hne hne', (Spelling.path_eq hplain hne).1,
      (Spelling.path_eq hplain' hne').1]
    exact Iff.rfl
  constructor
  · intro h
    have hplain := (Spelling.normal_iff hne).mp h.normal
    have hplain' := (Spelling.normal_iff hne').mp h.normal'
    exact ⟨hplain, hplain', fun hsame => (hkeys hplain hplain').mp (h.same hsame)⟩
  · rintro ⟨hplain, hplain', hagree⟩
    exact ⟨(Spelling.normal_iff hne).mpr hplain, (Spelling.normal_iff hne').mpr hplain',
      fun hsame => (hkeys hplain hplain').mpr (hagree hsame)⟩

/-- A process that starts in its CAPIO directory. -/
def inCapioDirectory : Caller "/c".toList where
  currentDir := "/c".toList
  view := emptyKernel
  tables := initFilesystem
  cwd := ["c".toList]
  dirs := fun _ => none
  currentDir_absolute := by decide
  cwd_valid := by
    intro name hname
    obtain rfl := List.mem_singleton.mp hname
    exact ⟨by decide, by decide, by decide, by decide⟩
  registrable := by
    have hrun : Run (Process.Step inCapioDir) (Process.start ∅) [] (Process.start ∅) := .nil
    exact registrable_of_run (by decide) (fun x hx => absurd hx List.not_mem_nil) hrun
  realpath_resolves := by
    intro r path _ hfound
    cases hfound
  readlink_absolute := by
    intro fd path _ hlink
    cases hlink

theorem one_key_iff_parent :
    Spelling.OneKey ⟨inCapioDirectory, "../c/f".toList, atFdcwd⟩ ⟨inCapioDirectory, "/c/f".toList, 3⟩ ↔
      Spelling.Plain ⟨inCapioDirectory, "../c/f".toList, atFdcwd⟩ ∧
      Spelling.Plain ⟨inCapioDirectory, "/c/f".toList, 3⟩ ∧
      (Spelling.SameFile ⟨inCapioDirectory, "../c/f".toList, atFdcwd⟩ ⟨inCapioDirectory, "/c/f".toList, 3⟩ →
        Spelling.Agree ⟨inCapioDirectory, "../c/f".toList, atFdcwd⟩ ⟨inCapioDirectory, "/c/f".toList, 3⟩) :=
  one_key_iff ⟨inCapioDirectory, "../c/f".toList, atFdcwd⟩ ⟨inCapioDirectory, "/c/f".toList, 3⟩ (by decide) (by decide)

/-- An absolute name is sent as it is spelled. -/
theorem dotted_name_has_own_key : ¬ ∀ s s' : Spelling "/c".toList, s.path ≠ [] → s'.path ≠ [] → Spelling.OneKey s s' := by
  intro hall
  have h := hall ⟨inCapioDirectory, "/c/./f".toList, atFdcwd⟩ ⟨inCapioDirectory, "/c/f".toList, atFdcwd⟩
    (by decide) (by decide)
  exact absurd (h.same ⟨["c".toList, "f".toList], by decide, by decide⟩) (by decide)

end Capio.Posix
