import Capio.Server.System

/-! The server with its clients and the kernel. A client enqueues `CREATE` or
`RENAME` and only then makes the kernel call, and no file is removed. -/
namespace Capio.Server
open Library

namespace FileSystem

/-- The path or one below it. -/
def Under (directory path : CString) : Prop := path = directory ∨ directory ++ ['/'] <+: path

instance (directory path : CString) : Decidable (Under directory path) := inferInstanceAs (Decidable (_ ∨ _))

/-- What a path at the new place is called at the old one. -/
def source (oldPath newPath path : CString) : CString := oldPath ++ path.drop newPath.length

/-- `rename` of a file, or of a directory with everything in it. -/
def rename (fs : FileSystem) (oldPath newPath : CString) : FileSystem :=
  if oldPath = newPath then fs
  else ⟨fun path =>
    if Under newPath path then fs.node (source oldPath newPath path)
    else if Under oldPath path then none
    else fs.node path⟩

/-- The kernel moves nothing into itself, and replaces a file by a file and an empty directory by
a directory. -/
def mayRename (fs : FileSystem) (oldPath newPath : CString) : Bool :=
  fs.fileExists oldPath && !(oldPath ++ ['/']).isPrefixOf newPath &&
    (decide (oldPath = newPath) || match fs.node newPath with
      | none => true
      | some (.file _) => !fs.isDirectory oldPath
      | some (.directory entries) => fs.isDirectory oldPath && entries.isEmpty)

@[simp] theorem source_self (path : CString) : source path path path = path := by simp [source]

/-- A path that a rename to its own name would move stays where it is. -/
theorem source_same {path q : CString} (h : Under path q) : source path path q = q := by
  rcases h with rfl | ⟨rest, rfl⟩
  · exact source_self q
  · rw [source, List.append_assoc, List.drop_left]

theorem rename_exists (fs : FileSystem) (oldPath newPath path : CString) :
    (fs.rename oldPath newPath).fileExists path = true ↔
      Under newPath path ∧ fs.fileExists (source oldPath newPath path) = true ∨
      fs.fileExists path = true ∧ (oldPath ≠ newPath → ¬ Under oldPath path ∧ ¬ Under newPath path) := by
  unfold rename
  split_ifs with he
  · subst he
    constructor
    · exact fun h => .inr ⟨h, fun hne => absurd rfl hne⟩
    · rintro (⟨hunder, h⟩ | ⟨h, _⟩)
      · rwa [source_same hunder] at h
      · exact h
  · unfold fileExists
    dsimp only
    split_ifs with hnew hold
    · simp [hnew, he]
    · simp [hold, hnew, he]
    · simp [hold, hnew]

end FileSystem

/-- The kernel call a client has announced. -/
inductive Client where
  | idle
  | creating (path : CString)
  | renaming (oldPath newPath : CString)
  deriving DecidableEq

structure Net where
  sys : System
  queue : List Request
  client : Tid → Client

inductive NetAction where
  | send (tid : Tid) (r : Request)
  | sendCreate (tid fd : Tid) (path : CString)
  | sendRename (tid : Tid) (oldPath newPath : CString)
  | kernelCreate (tid : Tid) (path : CString)
  | kernelRename (tid : Tid) (oldPath newPath : CString)
  | kernelFails (tid : Tid)
  /-- Another process makes or rewrites a file. -/
  | others (path : CString) (n : Node)
  | receive
  | call
  | monitor

namespace Net

def enqueue (s : Net) (tid : Tid) (r : Request) (c : Client) : Net :=
  { s with queue := s.queue ++ [r], client := Function.update s.client tid c }

def finish (s : Net) (tid : Tid) (fs : FileSystem) : Net :=
  { s with sys := { s.sys with fs := fs }, client := Function.update s.client tid .idle }

/-- A step of the server alone. -/
def serve (s : Net) (queue : List Request) (a : Action) : Option (Net × List Reply) := do
  let (sys, replies) ← s.sys.step a
  some ({ s with sys := sys, queue := queue }, replies)

def step (s : Net) : NetAction → Option (Net × List Reply)
  | .send tid r => if s.client tid = .idle then some (s.enqueue tid r .idle, []) else none
  | .sendCreate tid fd path =>
    if s.client tid = .idle then some (s.enqueue tid (.create tid fd path) (.creating path), []) else none
  | .sendRename tid oldPath newPath =>
    if s.client tid = .idle then
      some (s.enqueue tid (.rename tid oldPath newPath) (.renaming oldPath newPath), [])
    else none
  | .kernelCreate tid path =>
    if s.client tid = .creating path then some (s.finish tid (s.sys.fs.createExclusive path), [])
    else none
  | .kernelRename tid oldPath newPath =>
    if s.client tid = .renaming oldPath newPath ∧ s.sys.fs.mayRename oldPath newPath = true then
      some (s.finish tid (s.sys.fs.rename oldPath newPath), [])
    else none
  | .kernelFails tid => if s.client tid = .idle then none else some (s.finish tid s.sys.fs, [])
  | .others path n => some ({ s with sys := { s.sys with fs := s.sys.fs.set path (some n) } }, [])
  | .receive =>
    match s.queue with
    | [] => none
    | r :: queue => s.serve queue (.request r)
  | .call => s.serve s.queue .call
  | .monitor => s.serve s.queue .monitor

abbrev Event := Library.Event NetAction (List Reply)

abbrev Step := StepOf step

abbrev Trace := List (Transition Net Event)

def start (env : Env) (engine : CapioCLEngine) (fs : FileSystem) : Net where
  sys := System.boot env engine fs
  queue := []
  client := fun _ => .idle

/-- The server's part of an action. -/
def served (s : Net) : NetAction → Option Action
  | .receive => s.queue.head?.map Action.request
  | .call => some .call
  | .monitor => some .monitor
  | _ => none

def callOf (s : Net) (a : NetAction) : Option Call := (s.served a).bind s.sys.callOf

variable {s t : Net} {a : NetAction} {replies : List Reply}

/-- A step is one of the server, or changes at most the files and sends nothing. -/
theorem step_cases (h : s.step a = some (t, replies)) :
    (∃ b, s.served a = some b ∧ s.sys.step b = some (t.sys, replies)) ∨
    (s.served a = none ∧ replies = [] ∧ ∃ fs, t.sys = { s.sys with fs := fs }) := by
  have hserve {queue : List Request} {b : Action} (h : s.serve queue b = some (t, replies)) :
      s.sys.step b = some (t.sys, replies) := by
    obtain ⟨⟨sys, out⟩, hs, he⟩ := Option.bind_eq_some_iff.mp h
    cases he
    exact hs
  cases a with
  | receive =>
    cases hq : s.queue with
    | nil => simp [step, hq] at h
    | cons r queue =>
      simp only [step, hq] at h
      exact .inl ⟨.request r, by simp [served, hq], hserve h⟩
  | call => exact .inl ⟨.call, rfl, hserve h⟩
  | monitor => exact .inl ⟨.monitor, rfl, hserve h⟩
  | others path n =>
    cases h
    exact .inr ⟨rfl, rfl, _, rfl⟩
  | _ =>
    simp only [step] at h
    split_ifs at h
    cases h
    exact .inr ⟨rfl, rfl, _, rfl⟩

end Net
end Capio.Server
