import Capio.Server.CreationWaiters

/-! Commit at termination. `exit_handler` commits the files recorded for a
thread, but no handler ever calls `add_producer_file_path`, so there are none. -/
namespace Capio.Server.System
open Library

/-- The files recorded for commit at termination, thread by thread. -/
def NoProducedFiles (server : CapioServer) : Prop :=
  ∀ tid files, server.clientManager.getProducedFiles tid = some files → files = []

variable {s t u : System} {ts xs : Trace} {out : List Reply}

private theorem noProducedFiles_run {server server' : CapioServer} {fs fs' : FileSystem} {c : Call}
    (hi : NoProducedFiles server) (h : c.run server fs = some (server', fs', out)) :
    NoProducedFiles server' := by
  cases c with
  | registerNewClient tid appName =>
    cases h
    intro u files hf
    unfold ClientManager.getProducedFiles ClientManager.registerNewClient at hf
    rw [UnorderedMap.lookup_emplace] at hf
    split_ifs at hf
    · cases hl : server.clientManager.filesToBeCommittedByTid.lookup tid with
      | none => simpa [hl] using hf.symm
      | some old =>
        simp only [hl, Option.getD_some, Option.some.injEq] at hf
        exact hf ▸ hi tid old hl
    · exact hi u files hf
  | removeClient tid =>
    cases h
    intro u files hf
    unfold ClientManager.getProducedFiles ClientManager.removeClient at hf
    rw [UnorderedMap.lookup_erase_eq] at hf
    split_ifs at hf
    exact hi u files hf
  | _ =>
    intro u files hf
    rw [(Call.run_frame h).clients rfl] at hf
    exact hi u files hf

theorem noProducedFiles_step {e : Event} (hi : NoProducedFiles s.server) (h : Step s e t) :
    NoProducedFiles t.server := by
  rcases step_cases h with ⟨c, _, hrun⟩ | ⟨_, ht, _⟩
  · exact noProducedFiles_run hi hrun
  · exact ht ▸ hi

/-- The paths a thread has sent `CREATE` for in a run. -/
def createdBy (tid : Tid) (ts : Trace) : List CString :=
  ts.filterMap fun x => match x.label.action with
    | .request (.create creator _ path) => if creator = tid then some path else none
    | _ => none

/-- `EXIT_GROUP` is handled: the handler and the calls it leaves, with steps of
the monitor between them. -/
structure ExitProcessed (tid : Tid) (s : System) (out : List Reply) (t : System) (xs : Trace)
    (u : System) : Prop where
  handled : Step s ⟨.request (.exitGroup tid), out⟩ t
  run : Run Step t xs u
  server : ∀ x ∈ xs, x.label.action = .call ∨ x.label.action = .monitor
  done : u.pending = []

/-- Regular files under the CAPIO directory that are committed on termination. -/
def CommitsOnTermination (s : System) (path : CString) : Prop :=
  s.server.fileToBeHandled path = true ∧ (∃ content, s.fs.node path = some (.file content)) ∧
    s.server.clEngine.getCommitRule path = capioFileCommittedOnTermination

/-- What the handling of `EXIT_GROUP` leaves alone. -/
structure Unaffected (s t : System) : Prop where
  env : t.server.env = s.server.env
  locations : t.server.clEngine = s.server.clEngine
  files : t.fs = s.fs
  pending : ∀ c ∈ t.pending, c.touchesFiles = false ∧ c.touchesLocations = false

private theorem unaffected_run {base : System} {c : Call} {pending : List Call} {m : Monitor}
    {server : CapioServer} {fs : FileSystem} (hi : Unaffected base s)
    (hc : c.touchesFiles = false ∧ c.touchesLocations = false)
    (hrun : c.run s.server s.fs = some (server, fs, out))
    (hp : ∀ d ∈ pending, d ∈ s.pending) : Unaffected base ⟨server, fs, pending, m⟩ where
  env := (Call.run_frame hrun).env.trans hi.env
  locations := ((Call.run_frame hrun).locations hc.2).trans hi.locations
  files := ((Call.run_frame hrun).files hc.1).trans hi.files
  pending := fun d hd => hi.pending d (hp d hd)

private theorem unaffected_step {base : System} {e : Event} (hi : Unaffected base s)
    (he : e.action = .call ∨ e.action = .monitor) (h : Step s e t) : Unaffected base t := by
  obtain ⟨action, replies⟩ := e
  rcases he with rfl | rfl
  · obtain ⟨c, calls, server, fs, hp, hrun, rfl⟩ := step_call h
    exact unaffected_run hi (hi.pending c (by simp [hp])) hrun
      (fun d hd => hp ▸ List.mem_cons_of_mem c hd)
  · rcases step_monitor h with ⟨m, _, _, rfl, _⟩ | ⟨c, m, server, fs, hc, hrun, rfl⟩
    · exact ⟨hi.env, hi.locations, hi.files, hi.pending⟩
    · obtain ⟨_, hlocations, hfiles⟩ := monitorCall_frame hc
      exact unaffected_run hi ⟨hfiles, hlocations⟩ hrun (fun _ hd => hd)

/-- Handling `EXIT_GROUP` changes no file, no token and no location. -/
theorem exit_unaffected {tid : Tid} (hi : NoProducedFiles s.server)
    (h : ExitProcessed tid s out t xs u) : Unaffected s u := by
  obtain ⟨_, calls, hd, rfl⟩ := step_request h.handled
  obtain ⟨files, hf, _, rfl⟩ := exitHandler_spec tid hd
  obtain rfl := hi tid files hf
  have hstart : Unaffected s { s with pending := [].flatMap setCommitted ++ [.removeClient tid] } :=
    ⟨rfl, rfl, rfl, by simp [Call.touchesFiles, Call.touchesLocations]⟩
  exact h.run.persists (Unaffected s) hstart fun x hx hq => by
    obtain ⟨_, _, _, _, hstep, _⟩ := h.run.source_reached hx
    exact unaffected_step hq (h.server x hx) hstep

theorem isCommitted_onTermination {server : CapioServer} {fs : FileSystem} {path content : CString}
    (hn : fs.node path = some (.file content))
    (hr : server.clEngine.getCommitRule path = capioFileCommittedOnTermination) :
    server.isCommitted fs path = some (fs.fileExists (server.token path)) := by
  have hfile : fs.isDirectory path = false := by rw [FileSystem.isDirectory, hn]
  exact isCommittedWithin_other hfile (by rw [hr]; decide) (by rw [hr]; decide)

/-- After `EXIT_GROUP` every file its thread created with this rule is committed. -/
def TerminationCommits (tid : Tid) (ts : Trace) (u : System) : Prop :=
  ∀ path ∈ createdBy tid ts, CommitsOnTermination u path → u.server.isCommitted u.fs path = some true

variable {env : Env} {engine : CapioCLEngine} {fs : FileSystem}

/-- A thread creates a file, and the kernel makes it. -/
def oneCreator : List Action :=
  [.request (.handshakeAnonymous 1 1), .call, .request (.create 1 3 "/c/f".toList), .call, .call,
    .environment ⟨fun p => if p = "/c/f".toList then some (.file []) else none⟩]

private theorem oneCreator_exits : ∃ ts s out t xs u, Run Step emptyWorkflow ts s ∧
    ExitProcessed 1 s out t xs u ∧ createdBy 1 ts = ["/c/f".toList] ∧ CommitsOnTermination u "/c/f".toList ∧
    u.server.isCommitted u.fs "/c/f".toList = some false := by
  obtain ⟨ts, s, hrun, _, hs⟩ := execute_any step emptyWorkflow oneCreator
    (fun ts s => createdBy 1 ts == ["/c/f".toList] && (s.step (.request (.exitGroup 1))).any (fun r =>
      (execute step r.1 [.call]).any (fun q => q.2.pending == [] && q.2.server.fileToBeHandled "/c/f".toList &&
        q.2.fs.node "/c/f".toList == some (.file []) &&
        q.2.server.clEngine.getCommitRule "/c/f".toList == capioFileCommittedOnTermination &&
        q.2.server.isCommitted q.2.fs "/c/f".toList == some false))) (by decide)
  rw [Bool.and_eq_true] at hs
  obtain ⟨⟨t, out⟩, hexit, ht⟩ := (Option.any_eq_true _ _).mp hs.2
  obtain ⟨xs, u, hcall, hx, hu⟩ := execute_any step t [.call] (fun _ u => u.pending == [] &&
    u.server.fileToBeHandled "/c/f".toList && u.fs.node "/c/f".toList == some (.file []) &&
    u.server.clEngine.getCommitRule "/c/f".toList == capioFileCommittedOnTermination &&
    u.server.isCommitted u.fs "/c/f".toList == some false) ht
  simp only [Bool.and_eq_true, beq_iff_eq] at hs hu
  refine ⟨ts, s, out, t, xs, u, hrun, ⟨hexit, hcall, ?_, hu.1.1.1.1⟩, hs.1,
    ⟨hu.1.1.1.2, ⟨[], hu.1.1.2⟩, hu.1.2⟩, hu.2⟩
  intro x hm
  have hact : x.label.action ∈ xs.map (fun x => x.label.action) := List.mem_map_of_mem hm
  rw [hx, List.mem_singleton] at hact
  exact .inl hact

end Capio.Server.System
