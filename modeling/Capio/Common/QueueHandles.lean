import Capio.Common.Constants
import Capio.Common.Queue
import Capio.Library.NamedObjects
import Capio.Library.Throughout

/-! The constructor and the destructor of `Queue` on named segments and semaphores, and
one server with any number of processes that attach to its queue and detach from it. -/
namespace Capio
open Library Library.Ring

/-- What a segment holds: a position, or the slots. -/
inductive Segment where
  | index (position : Nat)
  | bytes (shm : Nat → UInt8)

/-- The shared memory and the named semaphores of a node. -/
structure Kernel where
  segments : NamedObjects CString Segment
  semaphores : NamedObjects CString Nat

/-- The names that `Queue` makes of the names of the workflow and of the queue. -/
structure QueueName where
  workflowName : CString
  shmName : CString

namespace QueueName
variable (name : QueueName)

def shm : CString := name.workflowName ++ '_' :: name.shmName
def firstElem : CString := name.workflowName ++ shmFirstElem ++ name.shmName
def lastElem : CString := name.workflowName ++ shmLastElem ++ name.shmName
def mutex : CString := name.workflowName ++ shmMutexPrefix ++ name.shmName
def semNumElems : CString := name.workflowName ++ shmSemElems ++ name.shmName
def semNumEmpty : CString := name.workflowName ++ shmSemEmpty ++ name.shmName

end QueueName

/-- The objects behind a `Queue`. -/
structure QueueObjects where
  shm : Nat
  firstElem : Nat
  lastElem : Nat
  mutex : Nat
  semNumElems : Nat
  semNumEmpty : Nat
  deriving DecidableEq

/-- A constructed `Queue`. -/
structure QueueHandle where
  objects : QueueObjects
  requireCleanup : Bool

def semWait (semaphores : NamedObjects CString Nat) (sem : Nat) : Option (NamedObjects CString Nat) := do
  let count ← semaphores.get sem
  if 0 < count then some (semaphores.set sem (count - 1)) else none

def semPost (semaphores : NamedObjects CString Nat) (sem : Nat) : Option (NamedObjects CString Nat) := do
  let count ← semaphores.get sem
  some (semaphores.set sem (count + 1))

def Segment.position : Segment → Option Nat
  | index position => some position
  | bytes _ => none

def Segment.slots : Segment → Option (Nat → UInt8)
  | index _ => none
  | bytes shm => some shm

namespace QueueHandle
variable (maxNumElems elemSize : Nat) (name : QueueName)

/-- The constructor. The members open the semaphores before the body opens the segments. -/
def construct (cleanup : Bool) (k : Kernel) : QueueHandle × Kernel :=
  let (mutex, semaphores) := k.semaphores.openCreate name.mutex 1
  let (semNumElems, semaphores) := semaphores.openCreate name.semNumElems 0
  let (semNumEmpty, semaphores) := semaphores.openCreate name.semNumEmpty maxNumElems
  let (firstElem, segments) := k.segments.openCreate name.firstElem (.index 0)
  let (lastElem, segments) := segments.openCreate name.lastElem (.index 0)
  match segments.names.lookup name.shm with
  | some shm => (⟨⟨shm, firstElem, lastElem, mutex, semNumElems, semNumEmpty⟩, cleanup⟩, ⟨segments, semaphores⟩)
  | none =>
    let segments := (segments.set firstElem (.index 0)).set lastElem (.index 0)
    let (shm, segments) := segments.openCreate name.shm (.bytes fun _ => 0)
    (⟨⟨shm, firstElem, lastElem, mutex, semNumElems, semNumEmpty⟩, cleanup⟩, ⟨segments, semaphores⟩)

/-- A segment that cannot be unlinked is a warning. -/
def destroySegments (segments : NamedObjects CString Segment) (names : List CString) :
    NamedObjects CString Segment :=
  names.foldl (fun segments name => (segments.unlink name).getD segments) segments

/-- A semaphore that cannot be unlinked ends the process, and the members that are left
are not destroyed. -/
def destroySemaphores (semaphores : NamedObjects CString Nat) : List CString → NamedObjects CString Nat
  | [] => semaphores
  | name :: names =>
    match semaphores.unlink name with
    | some semaphores => destroySemaphores semaphores names
    | none => semaphores

/-- The destructor: its body heeds the cleanup flag, and the destructors of the members,
the last one first, have none. -/
def destroy (h : QueueHandle) (k : Kernel) : Kernel where
  segments :=
    if h.requireCleanup then destroySegments k.segments [name.shm, name.firstElem, name.lastElem] else k.segments
  semaphores := destroySemaphores k.semaphores [name.semNumEmpty, name.semNumElems, name.mutex]

variable {elemSize}

/-- `_write` of a slot. It blocks at a semaphore without a count. -/
def write (o : QueueObjects) (data : Slot UInt8 elemSize) (k : Kernel) : Option Kernel := do
  let semaphores ← semWait k.semaphores o.semNumEmpty
  let semaphores ← semWait semaphores o.mutex
  let shm ← (← k.segments.get o.shm).slots
  let last ← (← k.segments.get o.lastElem).position
  let segments := k.segments.set o.shm (.bytes (store shm last data))
  let segments := segments.set o.lastElem (.index ((last + elemSize) % Queue.buffSize maxNumElems elemSize))
  let semaphores ← semPost semaphores o.semNumElems
  let semaphores ← semPost semaphores o.mutex
  some ⟨segments, semaphores⟩

variable (elemSize) in
/-- `_read` of a slot. -/
def read (o : QueueObjects) (k : Kernel) : Option (Kernel × Slot UInt8 elemSize) := do
  let semaphores ← semWait k.semaphores o.semNumElems
  let semaphores ← semWait semaphores o.mutex
  let shm ← (← k.segments.get o.shm).slots
  let first ← (← k.segments.get o.firstElem).position
  let segments := k.segments.set o.firstElem (.index ((first + elemSize) % Queue.buffSize maxNumElems elemSize))
  let semaphores ← semPost semaphores o.semNumEmpty
  let semaphores ← semPost semaphores o.mutex
  some (⟨segments, semaphores⟩, load shm first)

end QueueHandle

/-- The server with its queue, and the processes that have one on the same name. -/
structure Channel (ι : Type) where
  kernel : Kernel
  server : QueueObjects
  clients : ι → Option QueueHandle

namespace Channel
variable {ι : Type} [DecidableEq ι] (maxNumElems elemSize : Nat) (name : QueueName)

inductive Action (ι : Type) (elemSize : Nat) where
  | attach (i : ι)
  | write (i : ι) (data : Slot UInt8 elemSize)
  | detach (i : ι)
  | read

def Action.attaches {ι : Type} {elemSize : Nat} : Action ι elemSize → Bool
  | attach _ => true
  | _ => false

def Action.detaches {ι : Type} {elemSize : Nat} : Action ι elemSize → Bool
  | detach _ => true
  | _ => false

open Queue (Moved)

def step (s : Channel ι) : Action ι elemSize → Option (Channel ι × Moved UInt8 elemSize)
  | .attach i =>
    match s.clients i with
    | none =>
      let (h, k) := QueueHandle.construct maxNumElems name false s.kernel
      some ({ s with kernel := k, clients := Function.update s.clients i (some h) }, .nothing)
    | some _ => none
  | .write i data => do
    let h ← s.clients i
    let k ← QueueHandle.write maxNumElems h.objects data s.kernel
    some ({ s with kernel := k }, .stored data)
  | .detach i => do
    let h ← s.clients i
    some ({ s with kernel := h.destroy name s.kernel, clients := Function.update s.clients i none }, .nothing)
  | .read => do
    let (k, data) ← QueueHandle.read maxNumElems elemSize s.server s.kernel
    some ({ s with kernel := k }, .delivered data)

abbrev Event (ι : Type) (elemSize : Nat) := Library.Event (Action ι elemSize) (Moved UInt8 elemSize)

abbrev Trace (ι : Type) (elemSize : Nat) := List (Transition (Channel ι) (Event ι elemSize))

abbrev Step : Channel ι → Event ι elemSize → Channel ι → Prop := StepOf (step maxNumElems elemSize name)

/-- The server has made the queue, and nothing else is there. -/
def start : Channel ι :=
  let (h, k) := QueueHandle.construct maxNumElems name true ⟨.empty, .empty⟩
  ⟨k, h.objects, fun _ => none⟩

variable {elemSize}

def writtenIn (ts : Trace ι elemSize) : List (Slot UInt8 elemSize) :=
  ts.filterMap fun x => match x.label.replies with
    | .stored data => some data
    | _ => none

def readIn (ts : Trace ι elemSize) : List (Slot UInt8 elemSize) :=
  ts.filterMap fun x => match x.label.replies with
    | .delivered data => some data
    | _ => none

end Channel
end Capio
