import Capio.Library.Exchange
import Capio.Posix.ConsentHandlers
import Capio.Posix.ReadCache
import Capio.Posix.WorkingDirectory
import Capio.Posix.WriteCache

/-! The handlers of the table as the messages they send and the answers they wait for. -/
namespace Capio.Posix
open Library

/-- The caches of a thread, and whether it is in `tids`. -/
structure ClientThread where
  writeCache : WriteRequestCache
  readCache : ReadRequestCache
  isCapioTid : Bool

/-- What a handler leaves. Without a result the kernel runs the call. A thread that ends, or
whose handler throws, is there no more. -/
structure Return where
  thread : Option ClientThread
  tables : DescriptorTables
  result : Option Int

abbrev HandlerProgram := Program Request Return

/-- The server reads the printed count into a `capio_off64_t`. -/
def SentMessage.request : SentMessage → Request
  | write tid fd path count => .write tid fd path (capioOff64 count)
  | other request => request

def ReadMessage.request (m : ReadMessage) : Request := .read m.path m.tid m.fd (capioOff64 m.endOfRead)

namespace ClientThread

def start (maxSize : Nat) (isCapioTid : Bool) : ClientThread := ⟨.start maxSize, .start, isCapioTid⟩

section
variable (th : ClientThread) (k : ClientThread → HandlerProgram)

def sendWrites (sent : WriteRequestCache × List SentMessage) : HandlerProgram :=
  .sendAll (sent.2.map SentMessage.request) (k { th with writeCache := sent.1 })

/-- The functions of `utils/requests.hpp`. -/
def request (r : Request) : HandlerProgram :=
  match r with
  | .consent _ _ _ => .send r (.await fun _ => k th)
  | .close tid path => th.sendWrites k (th.writeCache.closeRequest path tid)
  | .openFile tid fd path =>
    th.sendWrites (fun th => .await fun _ => k th) (th.writeCache.openRequest fd path tid)
  | .exitGroup tid => th.sendWrites k (th.writeCache.exitGroupRequest tid)
  | _ => .send r (k th)

/-- What a read asks for does not depend on the answer. -/
def cacheRequest (r : CacheRequest) : HandlerProgram :=
  match r with
  | .read path endOfRead tid fd =>
    let cache (reply : Nat) := th.readCache.readRequest ⟨path, endOfRead, tid, fd, reply⟩
    match (cache 0).2 with
    | none => k { th with readCache := (cache 0).1 }
    | some m => .send m.request (.await fun reply => k { th with readCache := (cache reply).1 })
  | .write path tid fd count => th.sendWrites k (th.writeCache.writeRequest path tid fd count)

end

def requests (k : ClientThread → HandlerProgram) : List Request → ClientThread → HandlerProgram
  | [], th => k th
  | r :: rs, th => th.request (requests k rs) r

section
variable (th : ClientThread) (t : DescriptorTables) (tid : Int)

def throws : HandlerProgram := .done ⟨none, t, none⟩

def outcome (o : Option Outcome) : HandlerProgram :=
  match o with
  | none => throws t
  | some o => requests (fun th => .done ⟨some th, o.tables, o.result⟩) o.sent th

def offsetOutcome (o : Option OffsetOutcome) : HandlerProgram :=
  match o with
  | none => throws t
  | some (t, none) => .done ⟨some th, t, none⟩
  | some (t, some r) => th.cacheRequest (fun th => .done ⟨some th, t, none⟩) r

/-- The request is out when `delete_capio_fd` throws. -/
def closeThrows (fd : Int) : HandlerProgram :=
  match t.capioFilesDescriptors.lookup fd with
  | none => throws t
  | some path => th.request (fun _ => throws t) (.close tid path)

/-- The caches are deleted, and the write cache flushes once more. -/
def deleteCaches : HandlerProgram := th.sendWrites (fun _ => throws t) (th.writeCache.flush (toInt tid))

def exitHandler : HandlerProgram :=
  if th.isCapioTid then th.request (fun th => th.deleteCaches t tid) (.exitGroup tid)
  else th.deleteCaches t tid

end
end ClientThread

/-- The calls of the table with their arguments, and what the kernel returns where the
handler runs them. -/
inductive TableCall where
  | descriptor (call : SystemCall)
  | read (fd : Int) (count : Nat)
  | readv (fd iovcnt : Int)
  | write (fd : Int) (count : Nat)
  | writev (fd iovcnt : Int)
  | lseek (fd offset : Int) (whence : Whence)
  | fstat (fd : Int)
  | fstatat (dirfd : Int) (pathname : CString) (flags : BitVec 32)
  | lstat (pathname : CString)
  | stat (pathname : CString)
  | statx (dirfd : Int) (pathname : CString) (flags : BitVec 32)
  | access (pathname : CString)
  | faccessat (dirfd : Int) (pathname : CString)
  | chdir (pathname : CString)
  | fchmod (fd : Int)
  | fchown (fd : Int)
  | fcntl (fd : Int)
  | fgetxattr (fd : Int)
  | getdents (fd : Int)
  | ioctl (fd : Int)
  | fstatfs (fd : Int)
  | mkdir (pathname : CString)
  | mkdirat (dirfd : Int) (pathname : CString)
  | rmdir (pathname : CString)
  | getcwd
  | fork (pid : Int)
  | execve
  | exit
  | notImplemented
  | notHandled

/-- An entry of the table. `create_snapshot` sends nothing, and `fork` stands for what it does in
the parent: the handshake that its child sends in `init_process` is a step of the child. -/
def TableCall.run (env : ClientEnv) (view : KernelView) (t : DescriptorTables) (tid : Int)
    (th : ClientThread) : TableCall → HandlerProgram
  | .descriptor (.close fd) =>
    match closeHandler t tid fd with
    | none => th.closeThrows t tid fd
    | some o => th.outcome t (some o)
  | .descriptor call => th.outcome t (Process.handle env t ⟨tid, view, call⟩)
  | .read fd count => th.offsetOutcome t (readHandler t tid fd count)
  | .readv fd iovcnt => th.offsetOutcome t (readvHandler t tid fd iovcnt)
  | .write fd count => th.offsetOutcome t (writeHandler t tid fd count)
  | .writev fd iovcnt => th.offsetOutcome t (writevHandler t tid fd iovcnt)
  | .lseek fd offset whence => th.offsetOutcome t (lseekHandler t fd offset whence)
  | .fstat fd => th.outcome t (fstatHandler t tid fd)
  | .fstatat dirfd pathname flags => th.outcome t (fstatatHandler env view t tid dirfd pathname flags)
  | .lstat pathname => th.outcome t (lstatHandler env view t tid pathname)
  | .stat pathname => th.outcome t (statHandler env view t tid pathname)
  | .statx dirfd pathname flags => th.outcome t (statxHandler env t tid dirfd pathname flags)
  | .access pathname => th.outcome t (accessHandler env view t tid pathname)
  | .faccessat dirfd pathname => th.outcome t (faccessatHandler env view t tid dirfd pathname)
  | .chdir pathname => th.outcome t (some ⟨t, (chdirHandler env view tid pathname).2, none⟩)
  | .fchmod fd => th.outcome t (fchmodHandler t tid fd)
  | .fchown fd => th.outcome t (fchownHandler t tid fd)
  | .fcntl fd => th.outcome t (fcntlHandler t tid fd)
  | .fgetxattr fd => th.outcome t (fgetxattrHandler t tid fd)
  | .getdents fd => th.outcome t (getdentsHandlerImpl t tid fd)
  | .ioctl fd => th.outcome t (ioctlHandler t tid fd)
  | .fstatfs fd => th.outcome t (fstatfsHandler t tid fd)
  | .mkdir pathname => th.outcome t (mkdirHandler env view t tid pathname)
  | .mkdirat dirfd pathname => th.outcome t (mkdiratHandler env view t tid dirfd pathname)
  | .rmdir pathname => th.outcome t (rmdirHandler t pathname)
  | .getcwd => th.outcome t (getcwdHandler t)
  | .fork pid => .done ⟨some th, t, some pid⟩
  | .execve => .done ⟨some th, t, none⟩
  | .exit => th.exitHandler t tid
  | .notImplemented => th.outcome t (notImplementedHandler t)
  | .notHandled => th.outcome t (notHandledHandler t)

end Capio.Posix
