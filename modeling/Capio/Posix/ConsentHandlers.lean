import Capio.Posix.StatHandlers

/-! The handlers that ask the server for consent, or announce a directory, and leave the
system call to the kernel. -/
namespace Capio.Posix

section
variable (env : ClientEnv) (view : KernelView) (t : DescriptorTables) (tid : Int)

/-- The common part of the handlers of calls on a descriptor. -/
def askFor (sourceFunc : String) (fd : Int) : Option Outcome :=
  if t.existsCapioFd fd then do
    let path ← t.capioFilesDescriptors.lookup fd
    some ⟨t, [.consent tid path sourceFunc.toList], none⟩
  else some ⟨t, [], none⟩

/-- The table has it for `chmod` and `fchmodat` too, whose first arguments are a pathname
and a directory. -/
def fchmodHandler (fd : Int) : Option Outcome := askFor t tid "fchmod_handler" fd

/-- The table has it for `chown` and `fchownat` too. -/
def fchownHandler (fd : Int) : Option Outcome := askFor t tid "fchown_handler" fd

def fcntlHandler (fd : Int) : Option Outcome := askFor t tid "fcntl_handler" fd

def fgetxattrHandler (fd : Int) : Option Outcome := askFor t tid "fgetxattr_handler" fd

/-- Of `getdents` and of `getdents64`. -/
def getdentsHandlerImpl (fd : Int) : Option Outcome := askFor t tid "getdents_handler_impl" fd

def ioctlHandler (fd : Int) : Option Outcome := askFor t tid "ioctl_handler" fd

def fstatfsHandler (fd : Int) : Option Outcome := askFor t tid "fstatfs_handler" fd

/-- The path is not tested for being below `CAPIO_DIR`, nor for being empty. -/
def accessHandler (pathname : CString) : Option Outcome :=
  if isForbiddenPath pathname then some ⟨t, [], none⟩
  else
    let path := if StdPath.isAbsolute pathname then pathname else capioPosixRealpath env view pathname
    some ⟨t, [.consent tid path "access_handler".toList], none⟩

/-- `CAPIO_POSIX_SYSCALL_ERRNO` is returned as it is, and the kernel runs the call. -/
def faccessatHandler (dirfd : Int) (pathname : CString) : Option Outcome :=
  if isForbiddenPath pathname then some ⟨t, [], none⟩
  else if StdPath.isAbsolute pathname then
    some ⟨t, [.consent tid pathname "faccessat_handler".toList], none⟩
  else if dirfd = atFdcwd then
    let path := capioPosixRealpath env view pathname
    if path = [] then some ⟨t, [], none⟩
    else some ⟨t, [.consent tid path "faccessat_handler".toList], none⟩
  else if !isDirectory view dirfd then some ⟨t, [], none⟩
  else
    let dirPath := getDirPath view t dirfd
    if dirPath = [] then some ⟨t, [], none⟩
    else
      let path := StdPath.lexicallyNormal (StdPath.append dirPath pathname)
      some ⟨t, [.consent tid path "faccessat_handler".toList], none⟩

/-- The end of `capio_mkdirat`, with the path that it has found. -/
def announceDirectory (path : CString) : Option Outcome :=
  if isCapioPath env.capioDir path then some ⟨t, [.create tid (-1) path], none⟩
  else some ⟨t, [], none⟩

def capioMkdirat (dirfd : Int) (pathname : CString) : Option Outcome :=
  if isForbiddenPath pathname then some ⟨t, [], none⟩
  else if StdPath.isAbsolute pathname then announceDirectory env t tid pathname
  else if dirfd = atFdcwd then
    let path := capioPosixRealpath env view pathname
    if path = [] then some ⟨t, [], none⟩ else announceDirectory env t tid path
  else if !isDirectory view dirfd then some ⟨t, [], none⟩
  else
    let dirPath := getDirPath view t dirfd
    if dirPath = [] then some ⟨t, [], none⟩
    else announceDirectory env t tid (StdPath.lexicallyNormal (StdPath.append dirPath pathname))

def mkdirHandler (pathname : CString) : Option Outcome := capioMkdirat env view t tid atFdcwd pathname

def mkdiratHandler (dirfd : Int) (pathname : CString) : Option Outcome :=
  capioMkdirat env view t tid dirfd pathname

def rmdirHandler (_pathname : CString) : Option Outcome := some ⟨t, [], none⟩

def getcwdHandler : Option Outcome := some ⟨t, [], none⟩

def notHandledHandler : Option Outcome := some ⟨t, [], none⟩

def enotsup : Int := 95

def notImplementedHandler : Option Outcome := some ⟨t, [], some (-enotsup)⟩

end
end Capio.Posix
