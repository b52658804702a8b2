import Capio.Posix.DescriptorHandlers

/-! The handlers of the calls that read, write and seek, beside the offset that the
kernel keeps for the same open file. -/
namespace Capio.Posix
open Library

/-- The conversion to `capio_off64_t`. -/
def capioOff64 (n : Int) : Nat := (n % 0x10000000000000000).toNat

/-- The conversion to `long`. -/
def toLong (n : Int) : Int := n.bmod 0x10000000000000000

/-- The conversion to `int`. -/
def toInt (n : Int) : Int := n.bmod 0x100000000

namespace DescriptorTables

def getCapioFdPath (t : DescriptorTables) (fd : Int) : Option CString := t.capioFilesDescriptors.lookup fd

def getCapioFdOffset (t : DescriptorTables) (fd : Int) : Option Nat := do
  let file ← t.files.lookup fd
  t.offsets[file.offsetCell]?

def setCapioFdOffset (t : DescriptorTables) (fd : Int) (offset : Nat) : Option DescriptorTables := do
  let file ← t.files.lookup fd
  some { t with offsets := t.offsets.set file.offsetCell offset }

end DescriptorTables

/-- The arguments that `read_request` or `write_request` of a cache receives. -/
inductive CacheRequest where
  | read (path : CString) (endOfRead tid fd : Int)
  | write (path : CString) (tid fd count : Int)
  deriving DecidableEq

abbrev OffsetOutcome := DescriptorTables × Option CacheRequest

inductive Whence where
  | seekSet
  | seekCur
  | seekEnd
  deriving DecidableEq

section Handlers
variable (t : DescriptorTables) (tid fd : Int)

/-- The common part of `read` and `readv`. -/
def readUpTo (bytes : Int) : Option OffsetOutcome :=
  if t.existsCapioFd fd then do
    let offset ← t.getCapioFdOffset fd
    let computedOffset := capioOff64 (offset + bytes)
    let path ← t.getCapioFdPath fd
    let t ← t.setCapioFdOffset fd computedOffset
    some (t, some (.read path (toLong computedOffset) tid fd))
  else some (t, none)

def readHandler (count : Nat) : Option OffsetOutcome := readUpTo t tid fd count

/-- The size of the vector in bytes, `iovcnt * sizeof(iovec)`, stands for the bytes
that it asks for. -/
def readvHandler (iovcnt : Int) : Option OffsetOutcome := readUpTo t tid fd (iovcnt * 16)

/-- The cache takes the thread, the descriptor and the count, in this order. -/
def capioWrite (count : Int) : Option OffsetOutcome :=
  if t.existsCapioFd fd then do
    let path ← t.getCapioFdPath fd
    some (t, some (.write path (toInt count) tid fd))
  else some (t, none)

def writeHandler (count : Nat) : Option OffsetOutcome := capioWrite t tid fd count

def writevHandler (iovcnt : Int) : Option OffsetOutcome := capioWrite t tid fd iovcnt

def lseekHandler (offset : Int) (whence : Whence) : Option OffsetOutcome :=
  if t.existsCapioFd fd then do
    let computedOffset ← if whence = .seekCur then do
        let current ← t.getCapioFdOffset fd
        some (capioOff64 (current + offset))
      else some (capioOff64 offset)
    let t ← t.setCapioFdOffset fd computedOffset
    some (t, none)
  else some (t, none)

end Handlers

/-- A file that the kernel holds open, without `O_APPEND`. -/
structure OpenFile where
  offset : Nat
  size : Nat
  deriving DecidableEq

/-- The bytes that an I/O vector asks for. -/
def iovBytes : List Nat → Nat
  | [] => 0
  | len :: iov => len + iovBytes iov

namespace OpenFile

/-- Offsets are below this bound. -/
def offMax : Nat := 0x8000000000000000

def read (f : OpenFile) (count : Nat) : OpenFile := { f with offset := f.offset + min count (f.size - f.offset) }

def write (f : OpenFile) (written : Nat) : OpenFile :=
  if written = 0 then f else ⟨f.offset + written, max f.size (f.offset + written)⟩

/-- The position that `lseek` asks for. -/
def sought (f : OpenFile) (offset : Int) : Whence → Int
  | .seekSet => offset
  | .seekCur => f.offset + offset
  | .seekEnd => f.size + offset

end OpenFile

/-- One open file, the descriptors that share it in the kernel, and the tables. -/
structure Session where
  tables : DescriptorTables
  file : OpenFile
  copies : Finset Int

/-- Successful calls with what the kernel did, and changes of the file by others. -/
inductive FileCall where
  | read (fd : Int) (count : Nat)
  | readv (fd : Int) (iov : List Nat)
  | write (fd : Int) (count written : Nat)
  | writev (fd : Int) (iov : List Nat) (written : Nat)
  | lseek (fd : Int) (offset : Int) (whence : Whence)
  | dup (fd res : Int)
  | dup2 (fd fd2 : Int)
  | dup3 (fd fd2 : Int) (flags : BitVec 32)
  | resize (size : Nat)

namespace Session

/-- `IOV_MAX`. -/
def iovMax : Nat := 1024

/-- What the kernel checks before a call succeeds. -/
def succeeds (s : Session) : FileCall → Bool
  | .read fd count => fd ∈ s.copies ∧ count < 0x10000000000000000
  | .readv fd iov => fd ∈ s.copies ∧ iov.length ≤ iovMax ∧ iovBytes iov < OpenFile.offMax
  | .write fd count written => fd ∈ s.copies ∧ written ≤ count ∧ s.file.offset + written < OpenFile.offMax
  | .writev fd iov written =>
    fd ∈ s.copies ∧ iov.length ≤ iovMax ∧ written ≤ iovBytes iov ∧ s.file.offset + written < OpenFile.offMax
  | .lseek fd offset whence =>
    fd ∈ s.copies ∧ 0 ≤ s.file.sought offset whence ∧ s.file.sought offset whence < OpenFile.offMax
  | .dup fd res => fd ∈ s.copies ∧ 0 ≤ res
  | .dup2 fd fd2 => fd ∈ s.copies ∧ 0 ≤ fd2
  | .dup3 fd fd2 _ => fd ∈ s.copies ∧ 0 ≤ fd2 ∧ fd ≠ fd2
  | .resize size => size < OpenFile.offMax

def kernel (f : OpenFile) : FileCall → OpenFile
  | .read _ count => f.read count
  | .readv _ iov => f.read (iovBytes iov)
  | .write _ _ written | .writev _ _ written => f.write written
  | .lseek _ offset whence => { f with offset := (f.sought offset whence).toNat }
  | .resize size => { f with size := size }
  | _ => f

def copiesAfter (copies : Finset Int) : FileCall → Finset Int
  | .dup _ res | .dup2 _ res | .dup3 _ res _ => insert res copies
  | _ => copies

def handle (view : KernelView) (t : DescriptorTables) (tid : Int) : FileCall → Option OffsetOutcome
  | .read fd count => readHandler t tid fd count
  | .readv fd iov => readvHandler t tid fd iov.length
  | .write fd count _ => writeHandler t tid fd count
  | .writev fd iov _ => writevHandler t tid fd iov.length
  | .lseek fd offset whence => lseekHandler t fd offset whence
  | .dup fd res => (dupHandler view t fd res).map fun o => (o.tables, none)
  | .dup2 fd fd2 => (dup2Handler view t fd fd2).map fun o => (o.tables, none)
  | .dup3 fd fd2 flags => (dup3Handler view t fd fd2 flags fd2).map fun o => (o.tables, none)
  | .resize _ => some (t, none)

def step (view : KernelView) (tid : Int) (s : Session) (c : FileCall) : Option (Session × Option CacheRequest) :=
  if s.succeeds c then do
    let (t, request) ← handle view s.tables tid c
    some (⟨t, kernel s.file c, copiesAfter s.copies c⟩, request)
  else none

abbrev Event := Library.Event FileCall (Option CacheRequest)

abbrev Step (view : KernelView) (tid : Int) : Session → Event → Session → Prop := StepOf (step view tid)

abbrev Trace := List (Transition Session Event)

end Session
end Capio.Posix
