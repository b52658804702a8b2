import Capio.Posix.DescriptorConsistency
import Capio.Posix.StatHandlers

/-! When two system calls that do the same in the kernel also do the same here. -/
namespace Capio.Posix
open Library DescriptorTables

def oWronly : BitVec 32 := 0o1
def oTrunc : BitVec 32 := 0o1000

/-- A request without the name of the function that sends it. -/
def unlabelled : Request → Request
  | .consent tid path _ => .consent tid path []
  | r => r

/-- What a handler changes and sends. -/
def effect (o : Option Outcome) : Option (DescriptorTables × List Request) :=
  o.map fun o => (o.tables, o.sent.map unlabelled)

section
variable (env : ClientEnv) (view : KernelView) (t : DescriptorTables) (tid : Int)

/-- The pairs of calls with one meaning have one effect, whatever the kernel returns. -/
structure Interchangeable (pathname : CString) (flags : BitVec 32) (fd dirfd : Int)
    (statFlags : BitVec 32) : Prop where
  openat : effect (openHandler env view t tid pathname flags fd) =
    effect (openatHandler env view t tid atFdcwd pathname flags fd)
  creat : effect (creatHandler env view t tid pathname fd) =
    effect (openatHandler env view t tid atFdcwd pathname (oCreat ||| oWronly ||| oTrunc) fd)
  unlinkat : effect (unlinkHandler env t pathname) = effect (unlinkatHandler env view t pathname)
  statx : effect (fstatatHandler env view t tid dirfd pathname statFlags) =
    effect (statxHandler env t tid dirfd pathname statFlags)

/-- The status of the path is asked for. -/
def Asks (path : CString) : Prop := isForbiddenPath path = false ∧ isCapioPath env.capioDir path = true

/-- The path is a CAPIO path with descriptors registered for it, now or earlier. -/
def Tracks (path : CString) : Prop := isCapioPath env.capioDir path = true ∧ path ∈ t.capioFilesPaths

/-- What the resolution of a name that is not absolute makes no difference to. -/
structure ResolvedAlike (pathname : CString) (dirfd : Int) (statFlags : BitVec 32) : Prop where
  opened : StdPath.isAbsolute pathname = true ∨
    isCapioPath env.capioDir (capioPosixRealpath env view pathname) = false
  unlinked : pathname = capioPosixRealpath env view pathname ∨
    ¬ Tracks env t pathname ∧ ¬ Tracks env t (capioPosixRealpath env view pathname) ∨
    Tracks env t pathname ∧ t.deleteCapioPath pathname = none ∧
      Tracks env t (capioPosixRealpath env view pathname) ∧
      t.deleteCapioPath (capioPosixRealpath env view pathname) = none
  asked : StdPath.isAbsolute pathname = true ∨
    if pathname = [] ∧ statFlags &&& atEmptyPath = atEmptyPath then
      if dirfd = atFdcwd then ¬ Asks env env.currentDir else dirfd ∉ t.files
    else ¬ Asks env (computeAbsPath env view t pathname dirfd)

end

variable {env : ClientEnv} {view : KernelView} {t : DescriptorTables} {tid : Int}

/-- Without a directory to start from, a relative path comes to nothing. -/
private theorem computeAbsPath_minusOne (hstat : view.fstat (-1) = none) (hlink : view.readlink (-1) = none)
    (hnone : -1 ∉ t.capioFilesDescriptors) {pathname : CString}
    (hrel : StdPath.isAbsolute pathname = false) : computeAbsPath env view t pathname (-1) = [] := by
  have hdir : isDirectory view (-1) = true := by rw [isDirectory, hstat]; rfl
  have hpath : getDirPath view t (-1) = [] := by
    rw [getDirPath, AList.lookup_eq_none.mpr hnone, hlink]
    rfl
  unfold computeAbsPath
  simp only [hrel, hdir, hpath, Bool.not_true, if_true]
  rfl

private theorem openPath_outside {path : CString} {create cloexec : Bool} {fd : Int}
    (h : isCapioPath env.capioDir path = false) :
    effect (openPath env t tid path create cloexec fd) = some (t, []) := by
  unfold openPath
  simp [h, effect]

private theorem openPath_inside {path : CString} {create cloexec : Bool} {fd : Int}
    (h : isCapioPath env.capioDir path = true) :
    effect (openPath env t tid path create cloexec fd) ≠ some (t, []) := by
  unfold openPath effect
  simp only [h]
  split_ifs <;> cases t.addCapioFd path fd 0 cloexec <;> simp [unlabelled]

/-- The calls that resolve a relative path from nowhere, against `openat`. -/
private theorem openPath_iff (hdir : StdPath.isAbsolute env.capioDir = true) (hstat : view.fstat (-1) = none)
    (hlink : view.readlink (-1) = none) (hnone : -1 ∉ t.capioFilesDescriptors) (pathname : CString)
    (create cloexec : Bool) (fd : Int) :
    effect (openPath env t tid (computeAbsPath env view t pathname (-1)) create cloexec fd) =
      effect (openPath env t tid (computeAbsPath env view t pathname atFdcwd) create cloexec fd) ↔
    StdPath.isAbsolute pathname = true ∨
      isCapioPath env.capioDir (capioPosixRealpath env view pathname) = false := by
  cases habs : StdPath.isAbsolute pathname with
  | true =>
    have hsame (dirfd : Int) : computeAbsPath env view t pathname dirfd = pathname := by
      rw [computeAbsPath, if_pos habs]
    rw [hsame, hsame]
    exact iff_of_true rfl (.inl rfl)
  | false =>
    have hcwd : computeAbsPath env view t pathname atFdcwd = capioPosixRealpath env view pathname := by
      unfold computeAbsPath
      simp [habs]
    rw [computeAbsPath_minusOne hstat hlink hnone habs, hcwd,
      openPath_outside (isCapioPath_relative hdir rfl), or_iff_right Bool.false_ne_true]
    cases hin : isCapioPath env.capioDir (capioPosixRealpath env view pathname) with
    | true => exact iff_of_false (fun h => openPath_inside hin h.symm) Bool.false_ne_true.symm
    | false => exact iff_of_true (openPath_outside hin).symm rfl

/-- What `unlink` makes of the tables. -/
private theorem unlinkPath_effect (path : CString) : effect (unlinkPath env t path) =
    (if isCapioPath env.capioDir path = true then t.deleteCapioPath path else some t).map (fun t => (t, [])) := by
  unfold unlinkPath effect
  dsimp only
  split_ifs
  · cases t.deleteCapioPath path <;> rfl
  · rfl

private theorem unlink_iff (p q : CString) :
    effect (unlinkPath env t p) = effect (unlinkPath env t q) ↔ p = q ∨ ¬ Tracks env t p ∧ ¬ Tracks env t q ∨
      Tracks env t p ∧ t.deleteCapioPath p = none ∧ Tracks env t q ∧ t.deleteCapioPath q = none := by
  have huntracked {x : CString} (hx : ¬ Tracks env t x) : effect (unlinkPath env t x) = some (t, []) := by
    rw [unlinkPath_effect]
    split_ifs with hin
    · have hkey : x ∉ t.capioFilesPaths := fun hkey => hx ⟨hin, hkey⟩
      rw [deleteCapioPath, AList.lookup_eq_none.mpr hkey]
      rfl
    · rfl
  have htracked {x : CString} (hx : Tracks env t x) :
      effect (unlinkPath env t x) = (t.deleteCapioPath x).map (fun t => (t, [])) := by
    rw [unlinkPath_effect, if_pos hx.1]
  -- a deletion of one path leaves the key of the other
  have hdiffer {x y : CString} (hne : x ≠ y) (hx : Tracks env t x) {t' : DescriptorTables}
      (hdel : t.deleteCapioPath x = some t') : effect (unlinkPath env t y) ≠ some (t', []) := by
    have hgone : x ∉ t'.capioFilesPaths := fun hm => (((deleteCapioPath_keys hdel).2 x).mp hm).1 rfl
    intro heq
    by_cases hy : Tracks env t y
    · rw [htracked hy] at heq
      obtain ⟨t₂, hdel₂, he⟩ := Option.map_eq_some_iff.mp heq
      cases he
      exact hgone (((deleteCapioPath_keys hdel₂).2 x).mpr ⟨hne, hx.2⟩)
    · rw [huntracked hy] at heq
      cases heq
      exact hgone hx.2
  by_cases heq : p = q
  · subst heq
    exact iff_of_true rfl (.inl rfl)
  · rw [or_iff_right heq]
    by_cases hp : Tracks env t p
    · cases hdel : t.deleteCapioPath p with
      | some t' =>
        refine iff_of_false ?_ (by simp [hp])
        rw [htracked hp, hdel]
        exact fun h => hdiffer heq hp hdel h.symm
      | none =>
        rw [htracked hp, hdel]
        by_cases hq : Tracks env t q
        · rw [htracked hq]
          cases hdelq : t.deleteCapioPath q with
          | none => exact iff_of_true rfl (.inr ⟨hp, rfl, hq, rfl⟩)
          | some t' => exact iff_of_false (fun h => nomatch h) (by simp [hp])
        · rw [huntracked hq]
          exact iff_of_false (fun h => nomatch h) (by simp [hp, hq])
    · rw [huntracked hp]
      by_cases hq : Tracks env t q
      · refine iff_of_false ?_ (by simp [hp, hq])
        rw [htracked hq]
        intro h
        obtain ⟨t', hdel, he⟩ := Option.map_eq_some_iff.mp h.symm
        cases he
        exact (((deleteCapioPath_keys hdel).2 q).mp hq.2).1 rfl
      · rw [huntracked hq]
        exact iff_of_true rfl (.inl ⟨hp, hq⟩)

private theorem capioLstat_effect (path : CString) :
    (Asks env path → effect (capioLstat env t tid path) = some (t, [.consent tid path []])) ∧
    (¬ Asks env path → effect (capioLstat env t tid path) = some (t, [])) := by
  unfold Asks capioLstat effect
  cases hforbidden : isForbiddenPath path <;> cases hin : isCapioPath env.capioDir path <;> simp [unlabelled]

private theorem capioLstat_iff (path : CString) :
    effect (capioLstat env t tid path) = some (t, []) ↔ ¬ Asks env path := by
  by_cases h : Asks env path
  · rw [(capioLstat_effect path).1 h]
    simp [h]
  · rw [(capioLstat_effect path).2 h]
    simp [h]

private theorem capioStatx_effect (dirfd : Int) (path : CString) (flags : BitVec 32) :
    effect (capioStatx env t tid dirfd path flags) = effect (capioLstat env t tid path) := by
  unfold capioStatx capioLstat effect
  split_ifs <;> simp [unlabelled]

private theorem capioFstat_iff (fd : Int) : effect (capioFstat t tid fd) = some (t, []) ↔ fd ∉ t.files := by
  unfold capioFstat
  by_cases hfd : fd ∈ t.files
  · rw [if_pos (existsCapioFd_iff.mpr hfd)]
    refine iff_of_false ?_ (not_not.mpr hfd)
    cases t.capioFilesDescriptors.lookup fd <;> simp [effect]
  · rw [if_neg (fun he => hfd (existsCapioFd_iff.mp he))]
    exact iff_of_true rfl hfd

private theorem isAbsolute_of_forbidden {path : CString} (h : isForbiddenPath path = true) :
    StdPath.isAbsolute path = true := by
  have hproc : "/proc/".toList = '/' :: "proc/".toList := by decide
  have hsys : "/sys/".toList = '/' :: "sys/".toList := by decide
  rw [isForbiddenPath, capioDirForbiddenPaths, hproc, hsys] at h
  simp only [List.any_cons, List.any_nil, Bool.or_false, Bool.or_eq_true, List.isPrefixOf_iff_prefix] at h
  rcases h with ⟨rest, rfl⟩ | ⟨rest, rfl⟩ <;> rfl

private theorem not_asks_nil (hdir : StdPath.isAbsolute env.capioDir = true) : ¬ Asks env [] := by
  rintro ⟨_, hin⟩
  rw [isCapioPath_relative hdir rfl] at hin
  cases hin

/-- The file that a relative name stands for, asked for by `fstatat`. -/
private theorem fstatat_relative (hdir : StdPath.isAbsolute env.capioDir = true) {pathname : CString}
    (hrel : StdPath.isAbsolute pathname = false) (dirfd : Int) (flags : BitVec 32)
    (hempty : ¬ (pathname = [] ∧ flags &&& atEmptyPath = atEmptyPath)) :
    effect (capioFstatat env view t tid dirfd pathname flags) = some (t, []) ↔
      ¬ Asks env (computeAbsPath env view t pathname dirfd) := by
  have hforbidden : ¬ isForbiddenPath pathname = true := by
    intro h
    rw [isAbsolute_of_forbidden h] at hrel
    cases hrel
  have hnot : ¬ StdPath.isAbsolute pathname = true := by rw [hrel]; exact Bool.false_ne_true
  have hnothing {result : Option Int} : effect (some ⟨t, [], result⟩) = some (t, []) := rfl
  unfold capioFstatat computeAbsPath
  rw [if_neg hforbidden, if_neg hempty, hrel, if_pos (by rfl), if_neg Bool.false_ne_true]
  by_cases hcwd : dirfd = atFdcwd
  · rw [if_pos hcwd, if_pos hcwd, capioLstatWrapper, if_neg hforbidden]
    dsimp only
    split_ifs with hnil
    · rw [hnil]
      exact iff_of_true hnothing (not_asks_nil hdir)
    · exact capioLstat_iff _
  · rw [if_neg hcwd, if_neg hcwd]
    split_ifs with hd
    · exact iff_of_true hnothing (not_asks_nil hdir)
    · dsimp only
      split_ifs with hnil
      · exact iff_of_true hnothing (not_asks_nil hdir)
      · exact capioLstat_iff _

private theorem stat_iff (hdir : StdPath.isAbsolute env.capioDir = true) (pathname : CString) (dirfd : Int)
    (flags : BitVec 32) : effect (capioFstatat env view t tid dirfd pathname flags) =
      effect (capioStatx env t tid dirfd pathname flags) ↔
    StdPath.isAbsolute pathname = true ∨
      if pathname = [] ∧ flags &&& atEmptyPath = atEmptyPath then
        if dirfd = atFdcwd then ¬ Asks env env.currentDir else dirfd ∉ t.files
      else ¬ Asks env (computeAbsPath env view t pathname dirfd) := by
  rw [capioStatx_effect]
  cases habs : StdPath.isAbsolute pathname with
  | true =>
    refine iff_of_true ?_ (.inl rfl)
    have hne : ¬ (pathname = [] ∧ flags &&& atEmptyPath = atEmptyPath) := by
      rintro ⟨rfl, _⟩
      cases habs
    have hnot : ¬ (!StdPath.isAbsolute pathname) = true := by simp [habs]
    unfold capioFstatat
    rw [if_neg hne, if_neg hnot]
    unfold capioLstat
    split_ifs <;> rfl
  | false =>
    have hout : ¬ Asks env pathname := by
      rintro ⟨_, hin⟩
      rw [isCapioPath_relative hdir habs] at hin
      cases hin
    rw [(capioLstat_effect pathname).2 hout, or_iff_right Bool.false_ne_true]
    by_cases hempty : pathname = [] ∧ flags &&& atEmptyPath = atEmptyPath
    · rw [if_pos hempty]
      unfold capioFstatat
      rw [if_pos hempty, if_neg (by rw [hempty.1]; decide)]
      split_ifs
      · exact capioLstat_iff _
      · exact capioFstat_iff dirfd
    · rw [if_neg hempty]
      exact fstatat_relative hdir habs dirfd flags hempty

/-- A process in its CAPIO directory, on a kernel that knows no other file. -/
def inCapioDir : ClientEnv := ⟨"/c".toList, "/c".toList⟩

def emptyKernel : KernelView := ⟨fun _ => none, fun _ => none, fun _ => none, 0⟩

end Capio.Posix
