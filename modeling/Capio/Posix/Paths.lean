import Capio.Common.CapioPath
import Capio.Posix.DescriptorTables

/-! How the client library turns the pathname of a system call into the path that
it tracks. -/
namespace Capio.Posix

/-- What the kernel and libc answer while a handler runs. -/
structure KernelView where
  realpath : CString → Option CString
  /-- `S_ISDIR` of the descriptor, if `fstat` succeeds. -/
  fstat : Int → Option Bool
  /-- The link `/proc/self/fd/<fd>`. -/
  readlink : Int → Option CString
  errno : Int

/-- The settings of a client process. -/
structure ClientEnv where
  capioDir : CString
  currentDir : CString

def atFdcwd : Int := -100

/-- `is_directory`: the −1 of a failing `fstat` converts to true. -/
def isDirectory (view : KernelView) (dirfd : Int) : Bool := (view.fstat dirfd).getD true

def capioPosixRealpath (env : ClientEnv) (view : KernelView) (pathname : CString) : CString :=
  match view.realpath pathname with
  | some path => path
  | none =>
    if StdPath.isAbsolute pathname then pathname
    else
      let newPath := StdPath.lexicallyNormal (StdPath.append env.currentDir pathname)
      if isCapioPath env.capioDir newPath then newPath else []

section
variable {env : ClientEnv} {view : KernelView} {pathname : CString}

theorem capioPosixRealpath_found {path : CString} (h : view.realpath pathname = some path) :
    capioPosixRealpath env view pathname = path := by
  rw [capioPosixRealpath, h]

theorem capioPosixRealpath_missing (h : view.realpath pathname = none) (hrel : StdPath.isAbsolute pathname = false) :
    capioPosixRealpath env view pathname =
      if isCapioPath env.capioDir (StdPath.lexicallyNormal (StdPath.append env.currentDir pathname)) then
        StdPath.lexicallyNormal (StdPath.append env.currentDir pathname)
      else [] := by
  rw [capioPosixRealpath, h]
  simp only [hrel, Bool.false_eq_true, if_false]

end

def capioAbsolute (env : ClientEnv) (view : KernelView) (path : CString) : CString :=
  if StdPath.isAbsolute path then path else capioPosixRealpath env view path

def getDirPath (view : KernelView) (t : DescriptorTables) (dirfd : Int) : CString :=
  match t.capioFilesDescriptors.lookup dirfd with
  | some path => path
  | none => (view.readlink dirfd).getD []

def computeAbsPath (env : ClientEnv) (view : KernelView) (t : DescriptorTables) (pathname : CString)
    (dirfd : Int) : CString :=
  if StdPath.isAbsolute pathname then pathname
  else if dirfd = atFdcwd then capioPosixRealpath env view pathname
  else if !isDirectory view dirfd then []
  else
    let dirPath := getDirPath view t dirfd
    if dirPath = [] then [] else StdPath.lexicallyNormal (StdPath.append dirPath pathname)

end Capio.Posix
