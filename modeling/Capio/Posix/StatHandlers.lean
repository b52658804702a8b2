import Capio.Posix.DescriptorHandlers

/-! The handlers of the calls that ask for the status of a file. -/
namespace Capio.Posix

def atEmptyPath : BitVec 32 := 0x1000
def enoent : Int := 2
def enotdir : Int := 20

section
variable (env : ClientEnv) (view : KernelView) (t : DescriptorTables) (tid : Int)

def capioFstat (fd : Int) : Option Outcome :=
  if t.existsCapioFd fd then do
    let path ← t.capioFilesDescriptors.lookup fd
    some ⟨t, [.consent tid path "capio_fstat".toList], none⟩
  else some ⟨t, [], none⟩

def capioLstat (pathname : CString) : Option Outcome :=
  if isForbiddenPath pathname then some ⟨t, [], none⟩
  else if isCapioPath env.capioDir pathname then
    some ⟨t, [.consent tid pathname "capio_lstat".toList], none⟩
  else some ⟨t, [], none⟩

def capioLstatWrapper (pathname : CString) : Option Outcome :=
  if isForbiddenPath pathname then some ⟨t, [], none⟩
  else
    let absolutePath := capioPosixRealpath env view pathname
    if absolutePath = [] then some ⟨t, [], some (-enoent)⟩
    else capioLstat env t tid absolutePath

def capioFstatat (dirfd : Int) (pathname : CString) (flags : BitVec 32) : Option Outcome :=
  if isForbiddenPath pathname then some ⟨t, [], none⟩
  else if pathname = [] ∧ flags &&& atEmptyPath = atEmptyPath then
    if dirfd = atFdcwd then capioLstat env t tid env.currentDir
    else capioFstat t tid dirfd
  else if !StdPath.isAbsolute pathname then
    if dirfd = atFdcwd then capioLstatWrapper env view t tid pathname
    else if !isDirectory view dirfd then some ⟨t, [], some (-enotdir)⟩
    else
      let dirPath := getDirPath view t dirfd
      if dirPath = [] then some ⟨t, [], none⟩
      else capioLstat env t tid (StdPath.lexicallyNormal (StdPath.append dirPath pathname))
  else capioLstat env t tid pathname

/-- The directory and the flags are not looked at. -/
def capioStatx (_dirfd : Int) (pathname : CString) (_flags : BitVec 32) : Option Outcome :=
  if isForbiddenPath pathname then some ⟨t, [], none⟩
  else if isCapioPath env.capioDir pathname then
    some ⟨t, [.consent tid pathname "capio_statx".toList], none⟩
  else some ⟨t, [], none⟩

def fstatHandler (fd : Int) : Option Outcome := capioFstat t tid fd

def fstatatHandler (dirfd : Int) (pathname : CString) (flags : BitVec 32) : Option Outcome :=
  capioFstatat env view t tid dirfd pathname flags

def lstatHandler (pathname : CString) : Option Outcome := capioLstatWrapper env view t tid pathname

def statHandler (pathname : CString) : Option Outcome := capioLstatWrapper env view t tid pathname

def statxHandler (dirfd : Int) (pathname : CString) (flags : BitVec 32) : Option Outcome :=
  capioStatx env t tid dirfd pathname flags

end
end Capio.Posix
