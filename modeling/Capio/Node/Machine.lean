import Capio.Node.ThreadProtocol
import Capio.Server.RequestRoundTrip

/-! The threads of all the client processes of a node, its request queue, its response
buffers and its server. -/
namespace Capio.Node
open Library Posix
open Server (System Tid Reply)

/-- What a thread has left to do before it returns from the call it is in. -/
inductive ThreadState where
  /-- Nobody has had the id. -/
  | gone
  | runs (p : HandlerProgram)
  /-- While it waited for an answer. -/
  | killed
  | left

/-- The tables of a process are not part of the state: other threads of the process change
them too, and a call starts with any. The answers are those that the server has written for the id. -/
structure Machine where
  system : System
  queue : List Request
  threads : Tid → ThreadState
  answers : Tid → List Nat

/-- A thread starts with the constructor of the library, as a clone or as a forked copy. A
`call` is one that the application makes, with the tables that it finds. -/
inductive Action where
  | init (tid : Tid) (appName : Option CString) (maxSize : Nat)
  | clone (parent child : Tid) (appName : Option CString) (maxSize : Nat)
  | fork (parent child : Tid) (appName : Option CString) (isCapioTid : Bool)
  | call (tid : Tid) (env : ClientEnv) (view : KernelView) (t : DescriptorTables) (call : TableCall)
  | send (tid : Tid)
  | read (tid : Tid)
  | vanish (tid : Tid)
  | server (a : Server.Action)

namespace ThreadState

/-- The thread in its own code, between two calls. -/
def returned : ThreadState → Option ClientThread
  | runs (.done r) => r.thread
  | _ => none

/-- A thread had the id, and is there no more. -/
def isOver : ThreadState → Bool
  | killed | left => true
  | _ => false

/-- The kernel can hand out the id. -/
def isFree : ThreadState → Bool
  | gone => true
  | state => state.isOver

/-- Whether the thread has asked for an answer that it has not read. -/
def asked : ThreadState → Bool
  | runs (.await _) | killed => true
  | _ => false

/-- A thread that ends, or is killed. -/
def vanish : ThreadState → Option ThreadState
  | runs (.await _) => some killed
  | runs _ => some left
  | _ => none

def start (th : ClientThread) : ThreadState := runs (.done ⟨some th, DescriptorTables.initFilesystem, none⟩)

end ThreadState

namespace Machine

/-- `init_process`: the handshake, with the name of the application where there is one. -/
def handshake (tid pid : Int) : Option CString → Request
  | some appName => .handshakeNamed tid pid appName
  | none => .handshakeAnonymous tid pid

def setThread (m : Machine) (tid : Tid) (state : ThreadState) : Machine :=
  { m with threads := Function.update m.threads tid state }

/-- `CircularBuffer::write` waits for a free slot. A longer text overruns the buffer that it is
printed into. -/
def enqueue (m : Machine) (r : Request) : Option Machine :=
  if m.queue.length < capioReqBuffCnt ∧ (requestText r).length < capioReqMaxSize then
    some { m with queue := m.queue ++ [r] }
  else none

def deliver (answers : Tid → List Nat) (replies : List Reply) (tid : Tid) : List Nat :=
  answers tid ++ (replies.filter (fun reply => reply.tid = tid)).map Reply.offset

/-- The server takes the requests in the order of the queue, each as it reads the text. There is
no step for a text of which it reads garbage. -/
def takeFrom (queue : List Request) : Server.Action → Option (List Request)
  | .request r => if queue.head?.bind Request.received = some r then some queue.tail else none
  | _ => some queue

def serverStep (m : Machine) (a : Server.Action) : Option (Machine × List Reply) := do
  let queue ← takeFrom m.queue a
  let (system, replies) ← m.system.step a
  some ({ m with system := system, queue := queue, answers := deliver m.answers replies }, replies)

def clientStep (m : Machine) : Action → Option Machine
  | .init tid appName maxSize =>
    -- the first program of a process, or one that `execve` has put in the place of another
    if (m.threads tid).isFree || (m.threads tid).returned.isSome then
      (m.setThread tid (.start (.start maxSize true))).enqueue (handshake tid tid appName)
    else none
  | .clone parent child appName maxSize =>
    if (m.threads parent).returned.isSome && (m.threads child).isFree then
      (m.setThread child (.start (.start maxSize true))).enqueue (handshake child parent appName)
    else none
  | .fork parent child appName isCapioTid => do
    let th ← (m.threads parent).returned
    if (m.threads child).isFree then
      (m.setThread child (.start { th with isCapioTid })).enqueue (handshake child child appName)
    else none
  | .call tid env view t call => do
    let th ← (m.threads tid).returned
    some (m.setThread tid (.runs (call.run env view t tid th)))
  | .send tid =>
    match m.threads tid with
    | .runs (.send r next) => (m.setThread tid (.runs next)).enqueue r
    | _ => none
  | .read tid =>
    match m.threads tid, m.answers tid with
    | .runs (.await next), v :: rest =>
      some { m.setThread tid (.runs (next v)) with answers := Function.update m.answers tid rest }
    | _, _ => none
  | .vanish tid => do
    let state ← (m.threads tid).vanish
    some (m.setThread tid state)
  | .server _ => none

def step (m : Machine) : Action → Option (Machine × List Reply)
  | .server a => m.serverStep a
  | a => (m.clientStep a).map fun m => (m, [])

abbrev Event := Library.Event Action (List Reply)

abbrev Step := StepOf step

abbrev Trace := List (Transition Machine Event)

/-- No id is handed out twice, and a thread that forks has nothing left to send: the copy
would send it for its parent. -/
def startsClean (threads : Tid → ThreadState) : Action → Bool
  | .init tid _ _ | .clone _ tid _ _ => !(threads tid).isOver
  | .fork parent child _ _ =>
    !(threads child).isOver && (threads parent).returned.all fun th => th.writeCache.currentSize ≤ 0
  | _ => true

/-- A step of threads that start clean, with requests that the server reads as they were sent. -/
structure Orderly (x : Transition Machine Event) : Prop where
  starts : startsClean x.source.threads x.label.action = true
  readBack : ∀ r ∈ x.target.queue, r.received = some r

instance (x : Transition Machine Event) : Decidable (Orderly x) :=
  decidable_of_iff (startsClean x.source.threads x.label.action = true ∧ ∀ r ∈ x.target.queue, r.received = some r)
    ⟨fun h => ⟨h.1, h.2⟩, fun h => ⟨h.starts, h.readBack⟩⟩

/-- The server has just started, and nobody has used it. -/
def boot (env : Server.Env) (engine : Server.CapioCLEngine) (fs : Server.FileSystem) : Machine :=
  ⟨System.boot env engine fs, [], fun _ => .gone, fun _ => []⟩

/-- The steps of the server. -/
def served (x : Transition Machine Event) : Option (Transition System System.Event) :=
  match x.label.action with
  | .server a => some ⟨x.source.system, ⟨a, x.label.replies⟩, x.target.system⟩
  | _ => none

def serverTrace (ts : Trace) : System.Trace := ts.filterMap served

end Machine
end Capio.Node
