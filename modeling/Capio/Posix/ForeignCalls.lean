import Capio.Posix.Hook

/-! Calls on files and descriptors that are none of CAPIO's. -/
namespace Capio.Posix

namespace TableCall

/-- The descriptors that a call gives. -/
def descriptors : TableCall → List Int
  | .descriptor (.dup fd _) | .descriptor (.close fd) | .read fd _ | .readv fd _ | .write fd _ | .writev fd _
  | .lseek fd _ _ | .fstat fd | .fstatat fd _ _ | .fchmod fd | .fchown fd | .fcntl fd | .fgetxattr fd
  | .getdents fd | .ioctl fd | .fstatfs fd => [fd]
  | .descriptor (.dup2 fd fd2 _) | .descriptor (.dup3 fd fd2 _ _) => [fd, fd2]
  | _ => []

/-- The names that a call gives, each with the directory that it is looked for in. -/
def pathnames : TableCall → List (Int × CString)
  | .descriptor (.creat pathname _) | .descriptor (.openFile pathname _ _) => [(-1, pathname)]
  | .descriptor (.openat dirfd pathname _ _) | .fstatat dirfd pathname _ | .statx dirfd pathname _
  | .faccessat dirfd pathname | .mkdirat dirfd pathname => [(dirfd, pathname)]
  | .descriptor (.rename oldpath newpath) => [(atFdcwd, oldpath), (atFdcwd, newpath)]
  | .descriptor (.unlink pathname) | .descriptor (.unlinkat pathname) | .lstat pathname | .stat pathname
  | .access pathname | .chdir pathname | .mkdir pathname | .rmdir pathname => [(atFdcwd, pathname)]
  | _ => []

/-- What the kernel has returned to a handler that runs the call itself. -/
def returned : TableCall → Option Int
  | .descriptor (.creat _ fd) | .descriptor (.openFile _ _ fd) | .descriptor (.openat _ _ _ fd) => some fd
  | .fork pid => some pid
  | _ => none

/-- A handler answers the call with an error, and the kernel does not run it. -/
inductive Refuses (env : ClientEnv) (view : KernelView) : TableCall → Int → Prop
  | rename {oldpath newpath : CString} (h : isPrefix (capioAbsolute env view oldpath) (capioAbsolute env view newpath) = true) :
    Refuses env view (.descriptor (.rename oldpath newpath)) einval
  | lstat {pathname : CString} (h : capioPosixRealpath env view pathname = []) : Refuses env view (.lstat pathname) enoent
  | stat {pathname : CString} (h : capioPosixRealpath env view pathname = []) : Refuses env view (.stat pathname) enoent
  | fstatat {pathname : CString} {flags : BitVec 32} (h : capioPosixRealpath env view pathname = []) :
    Refuses env view (.fstatat atFdcwd pathname flags) enoent
  | notDirectory {dirfd : Int} {pathname : CString} {flags : BitVec 32} (h : isDirectory view dirfd = false) :
    Refuses env view (.fstatat dirfd pathname flags) enotdir
  | notImplemented : Refuses env view .notImplemented enotsup

/-- The kernel runs the call, and its result is the call's, unless a handler refuses it. -/
def Passes (env : ClientEnv) (view : KernelView) (call : TableCall) (result : Option Int) : Prop :=
  result = call.returned ∨ ∃ e, call.Refuses env view e ∧ result = some (-e)

end TableCall

/-- The paths that the library takes a name for. -/
def spellings (env : ClientEnv) (view : KernelView) (t : DescriptorTables) (dirfd : Int) (pathname : CString) :
    List CString :=
  [pathname, capioPosixRealpath env view pathname, computeAbsPath env view t pathname dirfd,
    StdPath.lexicallyNormal (StdPath.append (getDirPath view t dirfd) pathname)] ++
  if pathname = [] then [env.currentDir] else []

/-- Neither the library nor the server takes a name of the call for one of CAPIO's. -/
def NamesForeign (handled : CString → Bool) (env : ClientEnv) (view : KernelView) (t : DescriptorTables)
    (call : TableCall) : Prop :=
  ∀ n ∈ call.pathnames, ∀ p ∈ spellings env view t n.1 n.2, isCapioPath env.capioDir p = false ∧ handled p = false

/-- Only questions about files that the server leaves alone. -/
def AsksForeign (handled : CString → Bool) (tid : Int) (r : Request) : Prop :=
  ∃ path sourceFunc, r = .consent tid path sourceFunc ∧ handled path = false

/-- The tables stay as they are, and the call passes. -/
def LeavesAlone (handled : CString → Bool) (tid : Int) (t : DescriptorTables) (Passes : Option Int → Prop)
    (o : Option Outcome) : Prop :=
  ∃ sent result, o = some ⟨t, sent, result⟩ ∧ (∀ r ∈ sent, AsksForeign handled tid r) ∧ Passes result

section
variable {handled : CString → Bool} {env : ClientEnv} {view : KernelView} {t : DescriptorTables} {tid fd : Int}
  {pathname : CString} {Passes : Option Int → Prop}

theorem leavesAlone_quiet {result : Option Int} (h : Passes result) : LeavesAlone handled tid t Passes (some ⟨t, [], result⟩) :=
  ⟨[], result, rfl, fun _ hr => (List.not_mem_nil hr).elim, h⟩

theorem leavesAlone_asks {path sourceFunc : CString} (hp : handled path = false) (h : Passes none) :
    LeavesAlone handled tid t Passes (some ⟨t, [.consent tid path sourceFunc], none⟩) :=
  ⟨_, none, rfl, List.forall_mem_singleton.mpr ⟨path, sourceFunc, rfl, hp⟩, h⟩

theorem leavesAlone_askFor {sourceFunc : String} (hfd : t.existsCapioFd fd = false) (h : Passes none) :
    LeavesAlone handled tid t Passes (askFor t tid sourceFunc fd) := by
  unfold askFor
  rw [hfd]
  exact leavesAlone_quiet h

theorem leavesAlone_capioLstat (hp : isCapioPath env.capioDir pathname = false) (h : Passes none) :
    LeavesAlone handled tid t Passes (capioLstat env t tid pathname) := by
  unfold capioLstat
  rw [hp]
  exact (ite_self _).symm ▸ leavesAlone_quiet h

/-- A name is one of its spellings, and so are the paths that it is made into. -/
theorem mem_spellings (env : ClientEnv) (view : KernelView) (t : DescriptorTables) (dirfd : Int) (pathname : CString) :
    pathname ∈ spellings env view t dirfd pathname ∧
    capioPosixRealpath env view pathname ∈ spellings env view t dirfd pathname ∧
    capioAbsolute env view pathname ∈ spellings env view t dirfd pathname ∧
    computeAbsPath env view t pathname dirfd ∈ spellings env view t dirfd pathname ∧
    StdPath.lexicallyNormal (StdPath.append (getDirPath view t dirfd) pathname) ∈ spellings env view t dirfd pathname := by
  unfold spellings capioAbsolute
  refine ⟨by simp, by simp, ?_, by simp, by simp⟩
  split_ifs <;> simp

theorem leavesAlone_openPath {path : CString} {create cloexec : Bool} (hp : isCapioPath env.capioDir path = false)
    (h : Passes (some fd)) : LeavesAlone handled tid t Passes (openPath env t tid path create cloexec fd) := by
  refine ⟨[], some fd, ?_, fun _ hr => (List.not_mem_nil hr).elim, h⟩
  simp [openPath, hp]

theorem leavesAlone_copyFd {res : Int} {registers cloexec : Bool} (hfd : t.existsCapioFd fd = false) (h : Passes none) :
    LeavesAlone handled tid t Passes (copyFd view t fd res registers cloexec) := by
  unfold copyFd
  rw [hfd]
  exact leavesAlone_quiet h

theorem leavesAlone_unlinkPath (hp : isCapioPath env.capioDir pathname = false) (h : Passes none) :
    LeavesAlone handled tid t Passes (unlinkPath env t pathname) := by
  refine ⟨[], none, ?_, fun _ hr => (List.not_mem_nil hr).elim, h⟩
  simp [unlinkPath, hp]

theorem leavesAlone_renameHandler {newpath : CString} (hold : isCapioPath env.capioDir (capioAbsolute env view pathname) = false)
    (hnew : isCapioPath env.capioDir (capioAbsolute env view newpath) = false) (h : Passes none)
    (hrefused : isPrefix (capioAbsolute env view pathname) (capioAbsolute env view newpath) = true → Passes (some (-einval))) :
    LeavesAlone handled tid t Passes (renameHandler env view t tid pathname newpath) := by
  by_cases hprefix : isPrefix (capioAbsolute env view pathname) (capioAbsolute env view newpath) = true
  · refine ⟨[], some (-einval), ?_, fun _ hr => (List.not_mem_nil hr).elim, hrefused hprefix⟩
    simp [renameHandler, hprefix]
  · refine ⟨[], none, ?_, fun _ hr => (List.not_mem_nil hr).elim, h⟩
    simp [renameHandler, hprefix, hold, hnew]

theorem leavesAlone_capioFstat (hfd : t.existsCapioFd fd = false) (h : Passes none) :
    LeavesAlone handled tid t Passes (capioFstat t tid fd) := by
  unfold capioFstat
  rw [hfd]
  exact leavesAlone_quiet h

theorem leavesAlone_capioLstatWrapper (hp : isCapioPath env.capioDir (capioPosixRealpath env view pathname) = false)
    (h : Passes none) (hrefused : capioPosixRealpath env view pathname = [] → Passes (some (-enoent))) :
    LeavesAlone handled tid t Passes (capioLstatWrapper env view t tid pathname) := by
  unfold capioLstatWrapper
  dsimp only
  split_ifs with hforbidden hmissing
  · exact leavesAlone_quiet h
  · exact leavesAlone_quiet (hrefused hmissing)
  · exact leavesAlone_capioLstat hp h

theorem leavesAlone_capioStatx {flags : BitVec 32} (hp : isCapioPath env.capioDir pathname = false) (h : Passes none) :
    LeavesAlone handled tid t Passes (capioStatx env t tid fd pathname flags) := by
  unfold capioStatx
  rw [hp]
  exact (ite_self _).symm ▸ leavesAlone_quiet h

theorem leavesAlone_announceDirectory (hp : isCapioPath env.capioDir pathname = false) (h : Passes none) :
    LeavesAlone handled tid t Passes (announceDirectory env t tid pathname) := by
  unfold announceDirectory
  rw [hp]
  exact leavesAlone_quiet h

theorem leavesAlone_accessHandler (hp : handled pathname = false) (hreal : handled (capioPosixRealpath env view pathname) = false)
    (h : Passes none) : LeavesAlone handled tid t Passes (accessHandler env view t tid pathname) := by
  unfold accessHandler
  dsimp only
  split_ifs
  · exact leavesAlone_quiet h
  · exact leavesAlone_asks hp h
  · exact leavesAlone_asks hreal h

theorem leavesAlone_chdirHandler (hp : handled pathname = false) (hreal : handled (capioPosixRealpath env view pathname) = false)
    (h : Passes none) : LeavesAlone handled tid t Passes (some ⟨t, (chdirHandler env view tid pathname).2, none⟩) := by
  unfold chdirHandler
  dsimp only
  split_ifs
  · exact leavesAlone_quiet h
  · exact leavesAlone_asks hp h
  · exact leavesAlone_asks hreal h

theorem leavesAlone_faccessatHandler {dirfd : Int} (hp : ∀ p ∈ spellings env view t dirfd pathname, handled p = false)
    (h : Passes none) : LeavesAlone handled tid t Passes (faccessatHandler env view t tid dirfd pathname) := by
  obtain ⟨hname, hreal, _, _, hbelow⟩ := mem_spellings env view t dirfd pathname
  unfold faccessatHandler
  dsimp only
  split_ifs
  · exact leavesAlone_quiet h
  · exact leavesAlone_asks (hp _ hname) h
  · exact leavesAlone_quiet h
  · exact leavesAlone_asks (hp _ hreal) h
  · exact leavesAlone_quiet h
  · exact leavesAlone_quiet h
  · exact leavesAlone_asks (hp _ hbelow) h

theorem leavesAlone_capioMkdirat {dirfd : Int} (hp : ∀ p ∈ spellings env view t dirfd pathname, isCapioPath env.capioDir p = false)
    (h : Passes none) : LeavesAlone handled tid t Passes (capioMkdirat env view t tid dirfd pathname) := by
  obtain ⟨hname, hreal, _, _, hbelow⟩ := mem_spellings env view t dirfd pathname
  unfold capioMkdirat
  dsimp only
  split_ifs
  · exact leavesAlone_quiet h
  · exact leavesAlone_announceDirectory (hp _ hname) h
  · exact leavesAlone_quiet h
  · exact leavesAlone_announceDirectory (hp _ hreal) h
  · exact leavesAlone_quiet h
  · exact leavesAlone_quiet h
  · exact leavesAlone_announceDirectory (hp _ hbelow) h

theorem leavesAlone_capioFstatat {dirfd : Int} {flags : BitVec 32} (hfd : t.existsCapioFd dirfd = false)
    (hp : ∀ p ∈ spellings env view t dirfd pathname, isCapioPath env.capioDir p = false) (h : Passes none)
    (hrefused : ∀ e, (TableCall.fstatat dirfd pathname flags).Refuses env view e → Passes (some (-e))) :
    LeavesAlone handled tid t Passes (capioFstatat env view t tid dirfd pathname flags) := by
  obtain ⟨hname, hreal, _, _, hbelow⟩ := mem_spellings env view t dirfd pathname
  unfold capioFstatat
  dsimp only
  split_ifs with hforbidden hempty hcwd hrel hcwd hdir
  · exact leavesAlone_quiet h
  · refine leavesAlone_capioLstat (hp _ ?_) h
    rw [spellings, if_pos hempty.1]
    exact List.mem_append_right _ (List.mem_singleton.mpr rfl)
  · exact leavesAlone_capioFstat hfd h
  · subst hcwd
    exact leavesAlone_capioLstatWrapper (hp _ hreal) h fun hmissing => hrefused _ (.fstatat hmissing)
  · exact leavesAlone_quiet (hrefused _ (.notDirectory (by simpa using hdir)))
  · exact leavesAlone_quiet h
  · exact leavesAlone_capioLstat (hp _ hbelow) h
  · exact leavesAlone_capioLstat (hp _ hname) h

/-- The handler of a call on descriptors and names that are not CAPIO's. -/
theorem leavesAlone_handle {call : SystemCall} (hfd : ∀ fd ∈ (TableCall.descriptor call).descriptors, t.existsCapioFd fd = false)
    (hp : NamesForeign handled env view t (.descriptor call)) (h : ∀ result,
      (TableCall.descriptor call).Passes env view result → Passes result) :
    LeavesAlone handled tid t Passes (Process.handle env t ⟨tid, view, call⟩) := by
  have hname {dirfd : Int} {name p : CString} (hn : (dirfd, name) ∈ (TableCall.descriptor call).pathnames)
      (hmem : p ∈ spellings env view t dirfd name) : isCapioPath env.capioDir p = false := (hp _ hn p hmem).1
  have hreturned := h _ (.inl rfl)
  cases call with
  | creat pathname fd | openFile pathname flags fd =>
    obtain ⟨_, _, _, hpath, _⟩ := mem_spellings env view t (-1) pathname
    exact leavesAlone_openPath (hname (List.mem_singleton.mpr rfl) hpath) hreturned
  | openat dirfd pathname flags fd =>
    obtain ⟨_, _, _, hpath, _⟩ := mem_spellings env view t dirfd pathname
    exact leavesAlone_openPath (hname (List.mem_singleton.mpr rfl) hpath) hreturned
  | dup fd res | dup2 fd fd2 res => exact leavesAlone_copyFd (hfd fd (by simp [TableCall.descriptors])) hreturned
  | dup3 fd fd2 flags res =>
    have hnone := hfd fd (by simp [TableCall.descriptors])
    change LeavesAlone handled tid t Passes (dup3Handler view t fd fd2 flags res)
    unfold dup3Handler
    rw [if_neg (by simp [hnone])]
    exact leavesAlone_copyFd hnone hreturned
  | close fd =>
    change LeavesAlone handled tid t Passes (closeHandler t tid fd)
    unfold closeHandler
    rw [hfd fd (by simp [TableCall.descriptors])]
    exact leavesAlone_quiet hreturned
  | rename oldpath newpath =>
    obtain ⟨_, _, hold, _⟩ := mem_spellings env view t atFdcwd oldpath
    obtain ⟨_, _, hnew, _⟩ := mem_spellings env view t atFdcwd newpath
    exact leavesAlone_renameHandler (hname (by simp [TableCall.pathnames]) hold) (hname (by simp [TableCall.pathnames]) hnew)
      hreturned fun hprefix => h _ (.inr ⟨einval, .rename hprefix, rfl⟩)
  | unlink pathname =>
    obtain ⟨hpath, _⟩ := mem_spellings env view t atFdcwd pathname
    exact leavesAlone_unlinkPath (hname (List.mem_singleton.mpr rfl) hpath) hreturned
  | unlinkat pathname =>
    obtain ⟨_, hreal, _⟩ := mem_spellings env view t atFdcwd pathname
    exact leavesAlone_unlinkPath (hname (List.mem_singleton.mpr rfl) hreal) hreturned

end
end Capio.Posix
