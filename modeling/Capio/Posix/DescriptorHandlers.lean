import Capio.Common.Requests
import Capio.Library.Run
import Capio.Posix.Paths
import Mathlib.Data.Finset.Basic

/-! The handlers of the system calls that open, copy, close, rename and remove
files, and a process that makes such calls against a kernel that hands out
descriptors. -/
namespace Capio.Posix
open Library

def oCreat : BitVec 32 := 0o100
def oCloexec : BitVec 32 := 0o2000000
def einval : Int := 22

/-- What a handler leaves. Without a result the kernel runs the call. -/
structure Outcome where
  tables : DescriptorTables
  sent : List Request
  result : Option Int

section Handlers
variable (env : ClientEnv) (view : KernelView) (t : DescriptorTables) (tid : Int)

/-- The common part of `creat`, `open` and `openat`, with the descriptor that the
kernel returns. -/
def openPath (path : CString) (create cloexec : Bool) (fd : Int) : Option Outcome := do
  let sent := if isCapioPath env.capioDir path then
      [if create then Request.create tid (-1) path else Request.openFile tid (-1) path]
    else []
  let t ← if isCapioPath env.capioDir path ∧ 0 ≤ fd then t.addCapioFd path fd 0 cloexec else some t
  some ⟨t, sent, some fd⟩

def creatHandler (pathname : CString) (fd : Int) : Option Outcome :=
  openPath env t tid (computeAbsPath env view t pathname (-1)) true false fd

def openHandler (pathname : CString) (flags : BitVec 32) (fd : Int) : Option Outcome :=
  openPath env t tid (computeAbsPath env view t pathname (-1)) (flags &&& oCreat = oCreat)
    (flags &&& oCloexec = oCloexec) fd

def openatHandler (dirfd : Int) (pathname : CString) (flags : BitVec 32) (fd : Int) : Option Outcome :=
  openPath env t tid (computeAbsPath env view t pathname dirfd) (flags &&& oCreat = oCreat)
    (flags &&& oCloexec = oCloexec) fd

/-- The common part of the copying calls. `res` is what the kernel returns: only −1
is taken for a failure. -/
def copyFd (fd res : Int) (registers cloexec : Bool) : Option Outcome :=
  if t.existsCapioFd fd then
    if res = -1 then some ⟨t, [], some (-view.errno)⟩
    else do
      let t ← if registers then t.dupCapioFd fd res cloexec else some t
      some ⟨t, [], some res⟩
  else some ⟨t, [], none⟩

def dupHandler (fd res : Int) : Option Outcome := copyFd view t fd res true false

def dup2Handler (fd res : Int) : Option Outcome := copyFd view t fd res (fd ≠ res) false

def dup3Handler (fd fd2 : Int) (flags : BitVec 32) (res : Int) : Option Outcome :=
  if t.existsCapioFd fd ∧ fd = fd2 then some ⟨t, [], some (-einval)⟩
  else copyFd view t fd res true (flags &&& oCloexec = oCloexec)

def closeHandler (fd : Int) : Option Outcome :=
  if t.existsCapioFd fd then do
    let path ← t.capioFilesDescriptors.lookup fd
    let t ← t.deleteCapioFd fd
    some ⟨t, [.close tid path], none⟩
  else some ⟨t, [], none⟩

def renameHandler (oldpath newpath : CString) : Option Outcome :=
  let oldpathAbs := capioAbsolute env view oldpath
  let newpathAbs := capioAbsolute env view newpath
  if isPrefix oldpathAbs newpathAbs then some ⟨t, [], some (-einval)⟩
  else do
    let t ← if isCapioPath env.capioDir oldpathAbs then t.renameCapioPath oldpathAbs newpathAbs else some t
    let sent := if isCapioPath env.capioDir oldpathAbs || isCapioPath env.capioDir newpathAbs then
        [Request.rename tid oldpathAbs newpathAbs]
      else []
    some ⟨t, sent, none⟩

def unlinkPath (path : CString) : Option Outcome := do
  let t ← if isCapioPath env.capioDir path then t.deleteCapioPath path else some t
  some ⟨t, [], none⟩

def unlinkHandler (pathname : CString) : Option Outcome := unlinkPath env t pathname

def unlinkatHandler (pathname : CString) : Option Outcome :=
  unlinkPath env t (capioPosixRealpath env view pathname)

end Handlers

/-- The calls with their arguments and what the kernel returns for them: a
descriptor, or a negated error number. -/
inductive SystemCall where
  | creat (pathname : CString) (fd : Int)
  | openFile (pathname : CString) (flags : BitVec 32) (fd : Int)
  | openat (dirfd : Int) (pathname : CString) (flags : BitVec 32) (fd : Int)
  | dup (fd res : Int)
  | dup2 (fd fd2 res : Int)
  | dup3 (fd fd2 : Int) (flags : BitVec 32) (res : Int)
  | close (fd : Int)
  | rename (oldpath newpath : CString)
  | unlink (pathname : CString)
  | unlinkat (pathname : CString)

structure Call where
  tid : Int
  view : KernelView
  call : SystemCall

/-- The descriptors that are open in the kernel, and the tables. -/
structure Process where
  opened : Finset Int
  tables : DescriptorTables

namespace Process

def start (opened : Finset Int) : Process := ⟨opened, DescriptorTables.initFilesystem⟩

/-- The kernel hands out a descriptor that is not open, copies only open ones, and
gives `dup2` and `dup3` the number they ask for. -/
def returns (opened : Finset Int) : SystemCall → Bool
  | .creat _ fd | .openFile _ _ fd | .openat _ _ _ fd => 0 ≤ fd → fd ∉ opened
  | .dup fd res => 0 ≤ res → fd ∈ opened ∧ res ∉ opened
  | .dup2 fd fd2 res => 0 ≤ res → fd ∈ opened ∧ res = fd2
  | .dup3 fd fd2 _ res => 0 ≤ res → fd ∈ opened ∧ res = fd2 ∧ fd ≠ fd2
  | _ => true

def handOut (opened : Finset Int) (fd : Int) : Finset Int :=
  if 0 ≤ fd then insert fd opened else opened

def openedAfter (opened : Finset Int) : SystemCall → Finset Int
  | .creat _ fd | .openFile _ _ fd | .openat _ _ _ fd | .dup _ fd | .dup2 _ _ fd | .dup3 _ _ _ fd =>
    handOut opened fd
  | .close fd => opened.erase fd
  | _ => opened

def handle (env : ClientEnv) (t : DescriptorTables) (c : Call) : Option Outcome :=
  match c.call with
  | .creat pathname fd => creatHandler env c.view t c.tid pathname fd
  | .openFile pathname flags fd => openHandler env c.view t c.tid pathname flags fd
  | .openat dirfd pathname flags fd => openatHandler env c.view t c.tid dirfd pathname flags fd
  | .dup fd res => dupHandler c.view t fd res
  | .dup2 fd _ res => dup2Handler c.view t fd res
  | .dup3 fd fd2 flags res => dup3Handler c.view t fd fd2 flags res
  | .close fd => closeHandler t c.tid fd
  | .rename oldpath newpath => renameHandler env c.view t c.tid oldpath newpath
  | .unlink pathname => unlinkHandler env t pathname
  | .unlinkat pathname => unlinkatHandler env c.view t pathname

def step (env : ClientEnv) (p : Process) (c : Call) : Option (Process × List Request × Option Int) :=
  if returns p.opened c.call then do
    let o ← handle env p.tables c
    some (⟨openedAfter p.opened c.call, o.tables⟩, o.sent, o.result)
  else none

abbrev Event := Library.Event Call (List Request × Option Int)

abbrev Step (env : ClientEnv) : Process → Event → Process → Prop := StepOf (step env)

abbrev Trace := List (Transition Process Event)

end Process
end Capio.Posix
