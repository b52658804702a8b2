import Capio.Library.Run
import Capio.Server.Handlers

/-! The server process as two threads over one state: the request thread, which
takes requests and runs the calls its handler left, and the file system monitor.
The file system changes at any time on behalf of everybody else. Its tokens have
their directories: `Evaluation.run_inPlace` and `Evaluation.handle_inPlace`. -/
namespace Capio.Server
open Library

/-- Where `FileSystemMonitor::_main` stands in its loop. -/
inductive Monitor where
  | start
  | creation (files : List CString)
  | creationUnlock (file : CString) (files : List CString)
  | creationDelete (file : CString) (files : List CString)
  | data (files : List CString)
  | dataCheck (file : CString) (files : List CString)
  deriving DecidableEq

structure System where
  server : CapioServer
  fs : FileSystem
  pending : List Call
  monitor : Monitor

inductive Action where
  | request (r : Request)
  | call
  | monitor
  | environment (fs : FileSystem)

namespace System

/-- A call made by one of the threads. -/
def runCall (s : System) (c : Call) : Option (System × List Reply) := do
  let (server, fs, replies) ← c.run s.server s.fs
  some ({ s with server := server, fs := fs }, replies)

def monitorStep (s : System) : Option (System × List Reply) :=
  match s.monitor with
  | .start =>
    some ({ s with monitor := .creation s.server.fileManager.threadAwaitingFileCreation.keys }, [])
  | .creation [] =>
    some ({ s with monitor := .data s.server.fileManager.threadAwaitingData.keys }, [])
  | .creation (file :: files) =>
    if s.fs.fileExists file then some ({ s with monitor := .creationUnlock file files }, [])
    else some ({ s with monitor := .creation files }, [])
  | .creationUnlock file files =>
    { s with monitor := .creationDelete file files }.runCall (.unlockThreadAwaitingCreation file)
  | .creationDelete file files =>
    { s with monitor := .creation files }.runCall (.deleteFileAwaitingCreation file)
  | .data [] => some ({ s with monitor := .start }, [])
  | .data (file :: files) =>
    if s.fs.fileExists file then some ({ s with monitor := .dataCheck file files }, [])
    else some ({ s with monitor := .data files }, [])
  | .dataCheck file files =>
    { s with monitor := .data files }.runCall (.checkAndUnlockThreadAwaitingData file)

/-- One action with the replies it sends. `none`: not enabled, or the process dies. -/
def step (s : System) : Action → Option (System × List Reply)
  | .request r =>
    match s.pending with
    | [] => do
      let (calls, replies) ← handle s.server s.fs r
      some ({ s with pending := calls }, replies)
    | _ :: _ => none
  | .call =>
    match s.pending with
    | [] => none
    | c :: calls => { s with pending := calls }.runCall c
  | .monitor => s.monitorStep
  | .environment fs => some ({ s with fs := fs }, [])

abbrev Event := Library.Event Action (List Reply)

/-- The threads that one step replies to, in order. -/
def replied (e : Event) : List Tid := e.replies.map Reply.tid

/-- The steps of the process, each with the replies that it sends. -/
abbrev Step := StepOf step

abbrev Trace := List (Transition System Event)

/-- The server after start-up, with the parsed locations and any file system. -/
def boot (env : Env) (engine : CapioCLEngine) (fs : FileSystem) : System where
  server := ⟨env, .initial, engine, ⟨∅, ∅⟩⟩
  fs := fs
  pending := []
  monitor := .start

/-- A workflow that names no file, before any file is there. -/
def emptyWorkflow : System := boot ⟨"/c".toList, none⟩ ⟨∅⟩ ⟨fun _ => none⟩

/-- The call the monitor stands before and where it stands after it. -/
def monitorCall (s : System) : Option (Call × Monitor) :=
  match s.monitor with
  | .creationUnlock file files => some (.unlockThreadAwaitingCreation file, .creationDelete file files)
  | .creationDelete file files => some (.deleteFileAwaitingCreation file, .creation files)
  | .dataCheck file files => some (.checkAndUnlockThreadAwaitingData file, .data files)
  | _ => none

/-- The call that an action runs in a state, if it runs one. -/
def callOf (s : System) : Action → Option Call
  | .call => s.pending.head?
  | .monitor => s.monitorCall.map Prod.fst
  | _ => none

variable {s t : System} {replies : List Reply}

/-- The monitor runs three calls only. -/
theorem monitorCall_cases {c : Call} {m : Monitor} (h : s.monitorCall = some (c, m)) :
    (∃ file files, s.monitor = .creationUnlock file files ∧ c = .unlockThreadAwaitingCreation file ∧
      m = .creationDelete file files) ∨
    (∃ file files, s.monitor = .creationDelete file files ∧ c = .deleteFileAwaitingCreation file ∧
      m = .creation files) ∨
    ∃ file files, s.monitor = .dataCheck file files ∧ c = .checkAndUnlockThreadAwaitingData file ∧
      m = .data files := by
  unfold monitorCall at h
  split at h
  · cases h
    exact .inl ⟨_, _, ‹_›, rfl, rfl⟩
  · cases h
    exact .inr (.inl ⟨_, _, ‹_›, rfl, rfl⟩)
  · cases h
    exact .inr (.inr ⟨_, _, ‹_›, rfl, rfl⟩)
  · cases h

/-- What holds of these three holds of every call that the monitor makes. -/
theorem monitorCall_kind {c : Call} {m : Monitor} (P : Call → Prop)
    (h : s.monitorCall = some (c, m))
    (hunlock : ∀ file, P (.unlockThreadAwaitingCreation file))
    (hdelete : ∀ file, P (.deleteFileAwaitingCreation file))
    (hcheck : ∀ file, P (.checkAndUnlockThreadAwaitingData file)) : P c := by
  rcases monitorCall_cases h with ⟨file, _, _, rfl, _⟩ | ⟨file, _, _, rfl, _⟩ | ⟨file, _, _, rfl, _⟩
  · exact hunlock file
  · exact hdelete file
  · exact hcheck file

/-- The monitor makes nobody wait. -/
theorem monitorCall_ne_addThreadAwaitingData {c : Call} {m : Monitor}
    (h : s.monitorCall = some (c, m)) (path : CString) (tid : Tid) (size : Nat) :
    c ≠ .addThreadAwaitingData path tid size := by
  apply monitorCall_kind (· ≠ .addThreadAwaitingData path tid size) h
  · simp
  · simp
  · simp

theorem callOf_monitor {c : Call} (h : s.callOf .monitor = some c) :
    ∃ m, s.monitorCall = some (c, m) := by
  obtain ⟨⟨c', m⟩, hm, rfl⟩ := Option.map_eq_some_iff.mp h
  exact ⟨m, hm⟩

theorem step_request {r : Request} (h : s.step (.request r) = some (t, replies)) :
    s.pending = [] ∧ ∃ calls, handle s.server s.fs r = some (calls, replies) ∧
      t = { s with pending := calls } := by
  cases hp : s.pending with
  | cons c calls => simp [step, hp] at h
  | nil =>
    simp only [step, hp] at h
    obtain ⟨⟨calls, out⟩, hd, he⟩ := Option.bind_eq_some_iff.mp h
    cases he
    exact ⟨rfl, calls, hd, rfl⟩

private theorem runCall_spec {c : Call} (h : s.runCall c = some (t, replies)) :
    ∃ server fs, c.run s.server s.fs = some (server, fs, replies) ∧
      t = ⟨server, fs, s.pending, s.monitor⟩ := by
  obtain ⟨⟨server, fs, out⟩, hr, he⟩ := Option.bind_eq_some_iff.mp h
  cases he
  exact ⟨server, fs, hr, rfl⟩

theorem step_call (h : s.step .call = some (t, replies)) :
    ∃ c calls server fs, s.pending = c :: calls ∧ c.run s.server s.fs = some (server, fs, replies) ∧
      t = ⟨server, fs, calls, s.monitor⟩ := by
  cases hp : s.pending with
  | nil => simp [step, hp] at h
  | cons c calls =>
    simp only [step, hp] at h
    obtain ⟨server, fs, hr, rfl⟩ := runCall_spec h
    exact ⟨c, calls, server, fs, rfl, hr, rfl⟩

/-- The monitor looks at the tables and at the file system, or runs a call. -/
theorem step_monitor (h : s.step .monitor = some (t, replies)) :
    (∃ m, s.monitorCall = none ∧ replies = [] ∧ t = { s with monitor := m } ∧
      ∀ file files, m ≠ .creationDelete file files) ∨
    ∃ c m server fs, s.monitorCall = some (c, m) ∧ c.run s.server s.fs = some (server, fs, replies) ∧
      t = ⟨server, fs, s.pending, m⟩ := by
  simp only [step, monitorStep] at h
  split at h
  case h_4 file files hm | h_5 file files hm | h_8 file files hm =>
    right
    obtain ⟨server, fs, hr, rfl⟩ := runCall_spec h
    exact ⟨_, _, server, fs, by simp only [monitorCall, hm], hr, rfl⟩
  all_goals
    rename_i hm
    try split at h
    all_goals
      cases h
      exact .inl ⟨_, by simp only [monitorCall, hm], rfl, rfl, by simp⟩

/-- Every step runs the call it stands before, or leaves the server alone and
replies in a request handler only. -/
theorem step_cases {a : Action} (h : s.step a = some (t, replies)) :
    (∃ c, s.callOf a = some c ∧ c.run s.server s.fs = some (t.server, t.fs, replies)) ∨
    (s.callOf a = none ∧ t.server = s.server ∧
      (replies = [] ∧ (a = .monitor ∧ t.fs = s.fs ∨ a = .environment t.fs) ∨
        ∃ r, a = .request r ∧ t.fs = s.fs ∧ handle s.server s.fs r = some (t.pending, replies))) := by
  cases a with
  | request r =>
    obtain ⟨_, calls, hd, rfl⟩ := step_request h
    exact .inr ⟨rfl, rfl, .inr ⟨r, rfl, rfl, hd⟩⟩
  | call =>
    obtain ⟨c, calls, server, fs, hp, hr, rfl⟩ := step_call h
    exact .inl ⟨c, by simp [callOf, hp], hr⟩
  | monitor =>
    rcases step_monitor h with ⟨m, hc, rfl, rfl, _⟩ | ⟨c, m, server, fs, hc, hr, rfl⟩
    · exact .inr ⟨by simp [callOf, hc], rfl, .inl ⟨rfl, .inl ⟨rfl, rfl⟩⟩⟩
    · exact .inl ⟨c, by simp [callOf, hc], hr⟩
  | environment fs =>
    cases h
    exact .inr ⟨rfl, rfl, .inl ⟨rfl, .inr rfl⟩⟩

end System
end Capio.Server
