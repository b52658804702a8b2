import Capio.Server.DeferredUnlock

/-! The readers of a file when its producer closes it: `close_handler` scans them before it
increases the close count. -/
namespace Capio.Server.System
open Library CapioServer

/-- The path and its token are the same in both file systems. -/
def SameFile (env : Env) (path : CString) (fs fs' : FileSystem) : Prop :=
  fs.node path = fs'.node path ∧
    fs.node (metadataToken env path) = fs'.node (metadataToken env path)

/-- A step between the beginning and the return of a handler: its next call, one of the monitor,
or somebody else who leaves the path and its token alone. -/
def Meanwhile (path : CString) (x : Transition System Event) : Prop :=
  x.label.action = .call ∨ x.label.action = .monitor ∨
    ∃ fs, x.label.action = .environment fs ∧ SameFile x.source.server.env path fs x.source.fs

/-- `CLOSE` is handled up to the return of its handler, with other steps between its calls. -/
structure CloseProcessed (tid : Tid) (path : CString) (s : System) (out : List Reply) (t : System)
    (xs : Trace) (u : System) : Prop where
  handled : Step s ⟨.request (.close tid path), out⟩ t
  run : Run Step t xs u
  meanwhile : ∀ x ∈ xs, Meanwhile path x
  running : ∀ x ∈ xs, x.source.pending ≠ []
  returned : u.pending = []

/-- If the file is committed, nobody waits for it. -/
def ReadersAwake (s : System) (path : CString) : Prop :=
  s.server.isCommitted s.fs path = some true → ∀ tid, s.server.waitingData path tid = none

/-- One more close makes up the number that commits the file. -/
def LastCloseMissing (s : System) (path : CString) : Prop :=
  s.fs.isDirectory path = false ∧ s.server.clEngine.getCommitCloseCount path ≠ -1 ∧
    s.server.clEngine.getCommitCloseCount path = tokenCount s.fs (s.server.token path) + 1

/-- A thread waits for the file that only its commit can release. -/
def AwaitsCommit (s : System) (path : CString) : Prop :=
  ∃ tid size, s.server.waitingData path tid = some size ∧ s.server.isProducer path tid ≠ some true ∧
    ¬ (s.server.clEngine.getFireRule path = capioFileModeNoUpdate ∧
      ∃ size, awaitedSize s.fs path = some size ∧ size ≤ unsignedTid tid)

variable {s t u x : System} {path : CString} {tid : Tid} {size : Nat} {out : List Reply}
  {server server' : CapioServer} {fs fs' : FileSystem}

/-! ### The state of a file that commits on close -/

theorem committed_onClose_iff (hrule : server.clEngine.getCommitRule path = capioFileCommittedOnClose)
    (hfile : fs.isDirectory path = false) : server.isCommitted fs path = some true ↔
      fs.fileExists (server.token path) = true ∧
        (server.clEngine.getCommitCloseCount path = -1 ∨
          server.clEngine.getCommitCloseCount path ≤ tokenCount fs (server.token path)) :=
  committedWithin_onClose hfile hrule

/-- Only the path and its token count. -/
theorem isCommitted_congr (hrule : server.clEngine.getCommitRule path = capioFileCommittedOnClose)
    (h : SameFile server.env path fs fs') :
    server.isCommitted fs path = server.isCommitted fs' path := by
  have hne : ¬ capioFileCommittedOnClose = capioFileCommittedOnFile := by decide
  unfold CapioServer.isCommitted Capio.Server.isCommitted
  simp only [isCommittedWithin, hrule, hne, if_false, FileSystem.fileExists, tokenCount, h.1, h.2]
  rfl

theorem lockCondition_congr (hrule : server.clEngine.getCommitRule path = capioFileCommittedOnClose)
    (h : SameFile server.env path fs fs') :
    server.LockCondition fs path tid ↔ server.LockCondition fs' path tid := by
  unfold LockCondition
  rw [isCommitted_congr hrule h, awaitedSize_congr h.1]

theorem isDirectory_createToken : (server.createToken fs path).isDirectory path = fs.isDirectory path := by
  unfold createToken FileSystem.isDirectory
  rw [FileSystem.createExclusive_node]
  split_ifs with h
  · rw [← h]
    cases fs.node path with
    | none => rfl
    | some n => rfl
  · rfl

/-- An absent file and an empty new token have the same size. -/
theorem awaitedSize_createToken :
    awaitedSize (server.createToken fs path) path = awaitedSize fs path := by
  by_cases h : path = server.token path ∧ fs.node path = none
  · have hnew : (server.createToken fs path).node path = some (.file []) := by
      rw [createToken, FileSystem.createExclusive_node, if_pos h.1, ← h.1, h.2]
      rfl
    simp [awaitedSize, getFileSizeIfExists, FileSystem.isDirectory, FileSystem.fileExists,
      FileSystem.fileSize, hnew, h.2]
  · apply awaitedSize_congr
    rw [createToken, FileSystem.createExclusive_node]
    split_ifs with heq
    · rw [← heq]
      obtain ⟨n, hn⟩ := Option.ne_none_iff_exists'.mp fun hnone => h ⟨heq, hnone⟩
      rw [hn]
      rfl
    · rfl

/-- A thread that may go on before the token is there may go on after it. -/
theorem lockCondition_createToken
    (hrule : server.clEngine.getCommitRule path = capioFileCommittedOnClose)
    (h : server.LockCondition fs path tid) :
    server.LockCondition (server.createToken fs path) path tid := by
  unfold LockCondition at h ⊢
  rw [awaitedSize_createToken]
  refine h.imp_left fun hcommitted => ?_
  cases hdir : fs.isDirectory path with
  | true =>
    obtain ⟨entries, hn⟩ := FileSystem.isDirectory_iff.mp hdir
    have hsame : (server.createToken fs path).node path = some (.directory entries) := by
      rw [createToken, FileSystem.createExclusive_node]
      split_ifs with heq
      · rw [← heq, hn]
        rfl
      · exact hn
    unfold CapioServer.isCommitted Capio.Server.isCommitted at hcommitted ⊢
    rw [isCommittedWithin_directory hn] at hcommitted
    rw [isCommittedWithin_directory hsame]
    exact hcommitted
  | false =>
    obtain ⟨_, hcount⟩ := (committed_onClose_iff hrule hdir).mp hcommitted
    refine (committed_onClose_iff hrule (isDirectory_createToken.trans hdir)).mpr ⟨?_, ?_⟩
    · rw [createToken, FileSystem.createExclusive_exists]
      simp
    · rw [createToken, tokenCount_createExclusive]
      exact hcount

/-! ### One call -/

/-- A call that registers nobody leaves the threads waiting for a path, but for a scan of it. -/
theorem run_waits {c : Call} (h : c.run server fs = some (server', fs', out))
    (hadd : ∀ q v n, c ≠ .addThreadAwaitingData q v n) :
    server'.waitingData path tid = some size ↔ server.waitingData path tid = some size ∧
      (c = .checkAndUnlockThreadAwaitingData path → ¬ server.LockCondition fs path tid) := by
  rcases Call.run_data h with ⟨q, v, n, rfl, _⟩ | ⟨q, rfl, hscan⟩ | ⟨hquiet, hsame⟩
  · exact absurd rfl (hadd q v n)
  · have hs := checkAndUnlock_spec hscan
    by_cases hq : q = path
    · subst hq
      rw [hs.kept]
      refine and_congr_right fun hw => ?_
      obtain ⟨verdict, hb⟩ := Option.isSome_iff_exists.mp (hs.decided tid size hw)
      rw [unlockBody_keep_iff, forall_prop_of_true rfl]
      exact and_iff_right (unlockBody_eq_some_iff.mp hb).1
    · unfold waitingData
      rw [hs.others path (Ne.symm hq)]
      simp [hq]
  · unfold waitingData
    rw [hsame]
    refine (and_iff_left ?_).symm
    rintro rfl
    cases hquiet

/-! ### The handler with the steps between its calls -/

theorem SameFile.trans {env : Env} {fs'' : FileSystem} (h : SameFile env path fs fs')
    (h' : SameFile env path fs' fs'') : SameFile env path fs fs'' :=
  ⟨h.1.trans h'.1, h.2.trans h'.2⟩

/-- The files after the handler has made the token. -/
def tokenMade (s : System) (path : CString) : FileSystem := s.server.createToken s.fs path

/-- The files after the handler has increased the count as well. -/
def closeCounted (s : System) (path : CString) : FileSystem :=
  (tokenMade s path).set (s.server.token path)
    (some (.file (printCount (tokenCount s.fs (s.server.token path) + 1))))

/-- What holds of every state since the handler began in `s`: threads leave the path only when the
scan of the handler would release them too. -/
structure Closing (s : System) (path : CString) (x : System) : Prop where
  env : x.server.env = s.server.env
  clients : x.server.clientManager = s.server.clientManager
  locations : x.server.clEngine = s.server.clEngine
  waits : ∀ tid size, x.server.waitingData path tid = some size →
    s.server.waitingData path tid = some size
  keeps : ∀ tid size, s.server.waitingData path tid = some size →
    ¬ s.server.LockCondition (tokenMade s path) path tid → x.server.waitingData path tid = some size

/-- The scan of the handler is over. -/
def Scanned (s : System) (path : CString) (x : System) : Prop :=
  ∀ tid size, x.server.waitingData path tid = some size →
    ¬ s.server.LockCondition (tokenMade s path) path tid

/-- How far the handler has come. -/
inductive Stage (s : System) (path : CString) (x : System) : Prop
  | entered (pending : x.pending = setCommitted path ++ [.increaseCloseCount path])
      (files : SameFile s.server.env path x.fs s.fs)
  | created (pending : x.pending = [.checkAndUnlockThreadAwaitingData path,
        .unlockThreadAwaitingCreation path, .increaseCloseCount path])
      (files : SameFile s.server.env path x.fs (tokenMade s path))
  | scanned (pending : x.pending = [.unlockThreadAwaitingCreation path, .increaseCloseCount path] ∨
        x.pending = [.increaseCloseCount path])
      (files : SameFile s.server.env path x.fs (tokenMade s path)) (scanned : Scanned s path x)
  | returned (pending : x.pending = [])
      (token : (tokenMade s path).isDirectory (s.server.token path) = false)
      (files : SameFile s.server.env path x.fs (closeCounted s path)) (scanned : Scanned s path x)

variable {y : System}

theorem Closing.lockCondition (hi : Closing s path x) :
    x.server.LockCondition fs path tid ↔ s.server.LockCondition fs path tid := by
  simp only [LockCondition, CapioServer.isCommitted, CapioServer.isProducer, hi.env, hi.clients,
    hi.locations]

/-- Until the count is increased, whom a scan releases the scan of the handler releases too. -/
theorem Closing.lockCondition_tokenMade
    (hrule : s.server.clEngine.getCommitRule path = capioFileCommittedOnClose)
    (hi : Closing s path x) (hs : Stage s path x) (hrunning : x.pending ≠ [])
    (h : x.server.LockCondition x.fs path tid) :
    s.server.LockCondition (tokenMade s path) path tid := by
  rw [hi.lockCondition] at h
  cases hs with
  | entered _ files => exact lockCondition_createToken hrule ((lockCondition_congr hrule files).mp h)
  | created _ files => exact (lockCondition_congr hrule files).mp h
  | scanned _ files _ => exact (lockCondition_congr hrule files).mp h
  | returned pending _ _ _ => exact absurd pending hrunning

/-- A call that touches neither clients nor locations and registers nobody. -/
theorem Closing.run {c : Call} {pending : List Call} {m : Monitor} (hi : Closing s path x)
    (hlock : ∀ tid, x.server.LockCondition x.fs path tid →
      s.server.LockCondition (tokenMade s path) path tid)
    (hrun : c.run x.server x.fs = some (server', fs', out))
    (hkind : c.touchesClients = false ∧ c.touchesLocations = false)
    (hadd : ∀ q v n, c ≠ .addThreadAwaitingData q v n) :
    Closing s path ⟨server', fs', pending, m⟩ where
  env := (Call.run_frame hrun).env.trans hi.env
  clients := ((Call.run_frame hrun).clients hkind.1).trans hi.clients
  locations := ((Call.run_frame hrun).locations hkind.2).trans hi.locations
  waits := fun tid size hw => hi.waits tid size ((run_waits hrun hadd).mp hw).1
  keeps := fun tid size hw hnot =>
    (run_waits hrun hadd).mpr ⟨hi.keeps tid size hw hnot, fun _ hl => hnot (hlock tid hl)⟩

theorem Stage.same (hs : Stage s path x) (hpending : y.pending = x.pending)
    (hfiles : SameFile s.server.env path y.fs x.fs)
    (hwaits : ∀ tid size, y.server.waitingData path tid = some size →
      x.server.waitingData path tid = some size) : Stage s path y := by
  cases hs with
  | entered pending files => exact .entered (hpending.trans pending) (hfiles.trans files)
  | created pending files => exact .created (hpending.trans pending) (hfiles.trans files)
  | scanned pending files scanned =>
    exact .scanned (hpending ▸ pending) (hfiles.trans files)
      (fun tid size hw => scanned tid size (hwaits tid size hw))
  | returned pending token files scanned =>
    exact .returned (hpending.trans pending) token (hfiles.trans files)
      (fun tid size hw => scanned tid size (hwaits tid size hw))

/-- The next call of the handler. -/
theorem closing_call (hrule : s.server.clEngine.getCommitRule path = capioFileCommittedOnClose)
    (hi : Closing s path x) (hs : Stage s path x) (h : x.step .call = some (y, out)) :
    Closing s path y ∧ Stage s path y := by
  obtain ⟨c, calls, server, fs, hp, hrun, rfl⟩ := step_call h
  have hrunning : x.pending ≠ [] := by simp [hp]
  have hlock (tid : Tid) (hl : x.server.LockCondition x.fs path tid) :
      s.server.LockCondition (tokenMade s path) path tid :=
    hi.lockCondition_tokenMade hrule hs hrunning hl
  have htoken : x.server.token path = s.server.token path := by rw [token, token, hi.env]
  cases hs with
  | entered pending files =>
    obtain ⟨rfl, rfl⟩ := List.cons.inj (hp.symm.trans pending)
    refine ⟨hi.run hlock hrun ⟨rfl, rfl⟩ (by simp), .created rfl ?_⟩
    cases hrun
    unfold tokenMade createToken SameFile
    simp only [FileSystem.createExclusive_node, htoken]
    rw [show s.server.token path = metadataToken s.server.env path from rfl, files.1,
      files.2]
    exact ⟨rfl, rfl⟩
  | created pending files =>
    obtain ⟨rfl, rfl⟩ := List.cons.inj (hp.symm.trans pending)
    refine ⟨hi.run hlock hrun ⟨rfl, rfl⟩ (by simp), .scanned (.inl rfl) ?_ ?_⟩
    · rw [(Call.run_frame hrun).files rfl]
      exact files
    · intro tid size hw hl
      refine ((run_waits hrun (by simp)).mp hw).2 rfl ?_
      exact hi.lockCondition.mpr ((lockCondition_congr hrule files).mpr hl)
  | scanned pending files scanned =>
    rcases pending with pending | pending
    · obtain ⟨rfl, rfl⟩ := List.cons.inj (hp.symm.trans pending)
      refine ⟨hi.run hlock hrun ⟨rfl, rfl⟩ (by simp), .scanned (.inr rfl) ?_ ?_⟩
      · rw [(Call.run_frame hrun).files rfl]
        exact files
      · exact fun tid size hw => scanned tid size ((run_waits hrun (by simp)).mp hw).1
    · obtain ⟨rfl, rfl⟩ := List.cons.inj (hp.symm.trans pending)
      obtain ⟨fs', hinc, he⟩ := Option.bind_eq_some_iff.mp hrun
      unfold increaseCloseCount at hinc
      rw [htoken] at hinc
      dsimp only at hinc
      split_ifs at hinc with hdir
      refine ⟨hi.run hlock hrun ⟨rfl, rfl⟩ (by simp), .returned rfl ?_ ?_ ?_⟩
      · have hsame := FileSystem.isDirectory_congr files.2
        exact hsame.symm.trans (Bool.eq_false_iff.mpr hdir)
      · cases he
        cases hinc
        have hcount : tokenCount x.fs (s.server.token path) = tokenCount s.fs (s.server.token path) := by
          rw [← tokenCount_createExclusive s.fs (s.server.token path)]
          unfold tokenCount
          rw [show x.fs.node (s.server.token path) = _ from files.2]
          rfl
        unfold closeCounted SameFile
        rw [hcount]
        simp only [FileSystem.set_node]
        rw [files.1, files.2]
        exact ⟨rfl, rfl⟩
      · exact fun tid size hw => scanned tid size ((run_waits hrun (by simp)).mp hw).1
  | returned pending _ _ _ => exact absurd pending hrunning

theorem closing_step {e : Event}
    (hrule : s.server.clEngine.getCommitRule path = capioFileCommittedOnClose)
    (hi : Closing s path x) (hs : Stage s path x) (hrunning : x.pending ≠ [])
    (hmean : Meanwhile path ⟨x, e, y⟩) (h : Step x e y) : Closing s path y ∧ Stage s path y := by
  obtain ⟨action, replies⟩ := e
  rcases hmean with ha | ha | ⟨fs, ha, hsame⟩
  · obtain rfl : action = .call := ha
    exact closing_call hrule hi hs h
  · obtain rfl : action = .monitor := ha
    rcases step_monitor h with ⟨m, _, _, rfl, _⟩ | ⟨c, m, server, fs, hc, hrun, rfl⟩
    · exact ⟨⟨hi.env, hi.clients, hi.locations, hi.waits, hi.keeps⟩,
        hs.same rfl ⟨rfl, rfl⟩ (fun _ _ => id)⟩
    · obtain ⟨hclients, hlocations, hfiles⟩ := monitorCall_frame hc
      have hadd := monitorCall_ne_addThreadAwaitingData hc
      have hlock (tid : Tid) (hl : x.server.LockCondition x.fs path tid) :
          s.server.LockCondition (tokenMade s path) path tid :=
        hi.lockCondition_tokenMade hrule hs hrunning hl
      refine ⟨hi.run hlock hrun ⟨hclients, hlocations⟩ hadd, hs.same rfl ?_ ?_⟩
      · rw [(Call.run_frame hrun).files hfiles]
        exact ⟨rfl, rfl⟩
      · exact fun tid size hw => ((run_waits hrun hadd).mp hw).1
  · obtain rfl : action = .environment fs := ha
    cases h
    exact ⟨⟨hi.env, hi.clients, hi.locations, hi.waits, hi.keeps⟩,
      hs.same rfl (hi.env ▸ hsame) (fun _ _ => id)⟩

/-! ### When the handler has returned -/

theorem isDirectory_closeCounted (h : (tokenMade s path).isDirectory (s.server.token path) = false) :
    (closeCounted s path).isDirectory path = s.fs.isDirectory path := by
  have hmade : (tokenMade s path).isDirectory path = s.fs.isDirectory path := isDirectory_createToken
  rw [← hmade]
  by_cases heq : path = s.server.token path
  · rw [← heq] at h
    rw [h, FileSystem.isDirectory, closeCounted, FileSystem.set_node, if_pos heq]
  · apply FileSystem.isDirectory_congr
    rw [closeCounted, FileSystem.set_node, if_neg heq]

/-- The count that the scan of the handler sees. -/
theorem committed_tokenMade (hrule : s.server.clEngine.getCommitRule path = capioFileCommittedOnClose)
    (hdir : s.fs.isDirectory path = false) :
    s.server.isCommitted (tokenMade s path) path = some true ↔
      (s.server.clEngine.getCommitCloseCount path = -1 ∨
        s.server.clEngine.getCommitCloseCount path ≤ tokenCount s.fs (s.server.token path)) := by
  have hmade : (tokenMade s path).isDirectory path = false := isDirectory_createToken.trans hdir
  have hexists : (tokenMade s path).fileExists (s.server.token path) = true := by
    rw [tokenMade, createToken, FileSystem.createExclusive_exists]
    simp
  rw [committed_onClose_iff hrule hmade, hexists, tokenMade, createToken, tokenCount_createExclusive]
  exact and_iff_right rfl

theorem committed_closeCounted
    (hrule : s.server.clEngine.getCommitRule path = capioFileCommittedOnClose)
    (hdir : s.fs.isDirectory path = false)
    (htoken : (tokenMade s path).isDirectory (s.server.token path) = false) :
    s.server.isCommitted (closeCounted s path) path = some true ↔
      (s.server.clEngine.getCommitCloseCount path = -1 ∨
        s.server.clEngine.getCommitCloseCount path ≤ tokenCount s.fs (s.server.token path) + 1) := by
  have hexists : (closeCounted s path).fileExists (s.server.token path) = true := by
    rw [FileSystem.fileExists, closeCounted, FileSystem.set_node, if_pos rfl]
    rfl
  rw [committed_onClose_iff hrule ((isDirectory_closeCounted htoken).trans hdir), hexists, closeCounted,
    tokenCount_set, if_pos rfl, readCount_printCount]
  exact and_iff_right rfl

/-- The count that commits the file may be made up after the scan, not before it. -/
theorem readersAwake_iff (hrule : s.server.clEngine.getCommitRule path = capioFileCommittedOnClose)
    (hi : Closing s path u) (htoken : (tokenMade s path).isDirectory (s.server.token path) = false)
    (hfiles : SameFile s.server.env path u.fs (closeCounted s path)) (hscanned : Scanned s path u) :
    ReadersAwake u path ↔ ¬ (LastCloseMissing s path ∧ AwaitsCommit s path) := by
  have hcommitted : u.server.isCommitted u.fs path =
      s.server.isCommitted (closeCounted s path) path := by
    rw [← isCommitted_congr hrule hfiles]
    simp only [CapioServer.isCommitted, hi.env, hi.locations]
  unfold ReadersAwake
  rw [hcommitted]
  cases hdir : s.fs.isDirectory path with
  | true =>
    -- the entries of a directory are the same at the scan
    have hmade : (tokenMade s path).isDirectory path = true := isDirectory_createToken.trans hdir
    have hne : path ≠ s.server.token path := by
      intro heq
      rw [← heq, hmade] at htoken
      cases htoken
    obtain ⟨entries, hn⟩ := FileSystem.isDirectory_iff.mp hmade
    have hn' : (closeCounted s path).node path = some (.directory entries) := by
      rw [closeCounted, FileSystem.set_node, if_neg hne, hn]
    have hsame : s.server.isCommitted (closeCounted s path) path =
        s.server.isCommitted (tokenMade s path) path := by
      unfold CapioServer.isCommitted Capio.Server.isCommitted
      rw [isCommittedWithin_directory hn, isCommittedWithin_directory hn']
    refine iff_of_true (fun hc tid => ?_) (fun h => ?_)
    · refine Option.eq_none_iff_forall_ne_some.mpr fun size hw => ?_
      exact hscanned tid size hw (.inl (hsame ▸ hc))
    · rw [h.1.1] at hdir
      cases hdir
  | false =>
    have hend := committed_closeCounted hrule hdir htoken
    have hscan := committed_tokenMade hrule hdir
    constructor
    · rintro hawake ⟨⟨_, hne, hmissing⟩, tid, size, hw, hproducer, hsize⟩
      have hlock : ¬ s.server.LockCondition (tokenMade s path) path tid := by
        unfold LockCondition
        rw [tokenMade, awaitedSize_createToken]
        rintro (hc | hp | hle)
        · rcases hscan.mp hc with hone | hle
          · exact hne hone
          · omega
        · exact hproducer hp
        · exact hsize hle
      have hstays := hi.keeps tid size hw hlock
      rw [hawake (hend.mpr (.inr (le_of_eq hmissing))) tid] at hstays
      cases hstays
    · intro hnot hc tid
      refine Option.eq_none_iff_forall_ne_some.mpr fun size hw => hnot ?_
      have hlock := hscanned tid size hw
      unfold LockCondition at hlock
      rw [tokenMade, awaitedSize_createToken, not_or, not_or] at hlock
      obtain ⟨hscanned, hproducer, hsize⟩ := hlock
      rw [show s.server.isCommitted (s.server.createToken s.fs path) path = some true ↔ _ from hscan,
        not_or] at hscanned
      obtain ⟨hne, hshort⟩ := hscanned
      rcases hend.mp hc with hone | hle
      · exact absurd hone hne
      · exact ⟨⟨hdir, hne, by omega⟩, tid, size, hi.waits tid size hw, hproducer, hsize⟩

/-! ### Paths that CAPIO does not handle -/

/-- Nobody waits, or is about to, for a path that is not handled. -/
structure WaitsHandled (env : Env) (s : System) : Prop where
  settings : s.server.env = env
  waiting : ∀ path tid size, s.server.waitingData path tid = some size →
    CapioCLEngine.fileToBeHandled env path = true
  pending : ∀ path tid size, Call.addThreadAwaitingData path tid size ∈ s.pending →
    CapioCLEngine.fileToBeHandled env path = true

theorem handle_waitsHandled {r : Request} {calls : List Call}
    (h : handle server fs r = some (calls, out))
    (hc : Call.addThreadAwaitingData path tid size ∈ calls) : server.fileToBeHandled path = true := by
  cases r with
  | consent v q sourceFunc =>
    rcases consentToProceedHandler_spec v q sourceFunc h with ⟨rfl, _⟩ | ⟨rfl, _, hq, _⟩
    · cases hc
    · cases List.mem_singleton.mp hc
      exact hq
  | read q v fd endOfRead =>
    rcases readHandler_spec v fd q endOfRead h with ⟨rfl, _⟩ | ⟨hq, _, _, _, _, ⟨rfl, _⟩ | ⟨rfl, _⟩⟩
    · cases hc
    · cases hc
    · cases List.mem_singleton.mp hc
      exact hq
  | _ =>
    have hm := handle_mayCall h _ hc
    simp [mayCall, setCommitted] at hm

theorem waitsHandled_run {env : Env} {engine : CapioCLEngine} {fs : FileSystem} {ts : Trace}
    (h : Run Step (boot env engine fs) ts s) : WaitsHandled env s := by
  refine h.invariant (WaitsHandled env) ⟨rfl, by simp [boot, waitingData], by simp [boot]⟩ ?_
  intro x e y hi hstep
  obtain ⟨action, replies⟩ := e
  cases action with
  | request r =>
    obtain ⟨_, calls, hd, rfl⟩ := step_request hstep
    refine ⟨hi.settings, hi.waiting, fun path tid size hc => ?_⟩
    rw [← hi.settings]
    exact handle_waitsHandled hd hc
  | call =>
    obtain ⟨c, calls, server, fs, hp, hrun, rfl⟩ := step_call hstep
    refine ⟨(Call.run_frame hrun).env.trans hi.settings, fun path tid size hw => ?_, fun path tid size hc =>
      hi.pending path tid size (hp ▸ List.mem_cons_of_mem c hc)⟩
    rcases Call.run_waitingData hrun hw with hold | rfl
    · exact hi.waiting path tid size hold
    · exact hi.pending path tid size (by simp [hp])
  | monitor =>
    rcases step_monitor hstep with ⟨m, _, _, rfl, _⟩ | ⟨c, m, server, fs, hc, hrun, rfl⟩
    · exact ⟨hi.settings, hi.waiting, hi.pending⟩
    · refine ⟨(Call.run_frame hrun).env.trans hi.settings, fun path tid size hw => ?_, hi.pending⟩
      rcases Call.run_waitingData hrun hw with hold | rfl
      · exact hi.waiting path tid size hold
      · exact absurd rfl (monitorCall_ne_addThreadAwaitingData hc path tid size)
  | environment fs =>
    cases hstep
    exact ⟨hi.settings, hi.waiting, hi.pending⟩

/-! ### Every close -/

variable {env : Env} {engine : CapioCLEngine} {fs : FileSystem} {ts xs : Trace}

theorem closeHandler_producer (hhandled : server.fileToBeHandled path = true)
    (hproducer : server.isProducer path tid = some true)
    (hrule : server.clEngine.getCommitRule path = capioFileCommittedOnClose) :
    closeHandler server tid path = some (setCommitted path ++ [.increaseCloseCount path], []) := by
  unfold closeHandler
  simp [hhandled, hproducer, hrule]

theorem closing_start (hcalls : t = { s with pending := setCommitted path ++ [.increaseCloseCount path] }) :
    Closing s path t ∧ Stage s path t := by
  subst hcalls
  exact ⟨⟨rfl, rfl, rfl, fun _ _ => id, fun _ _ hw _ => hw⟩, .entered rfl ⟨rfl, rfl⟩⟩

/-- When the handler returns and the file is committed, nobody waits for it any more, unless this
close made up the number: the scan came before. -/
theorem close_wakes_readers_iff (h : Run Step (boot env engine fs) ts s)
    (hx : CloseProcessed tid path s out t xs u)
    (hproducer : s.server.isProducer path tid = some true)
    (hrule : s.server.clEngine.getCommitRule path = capioFileCommittedOnClose) :
    ReadersAwake u path ↔ ¬ (LastCloseMissing s path ∧ AwaitsCommit s path) := by
  obtain ⟨_, calls, hd, ht⟩ := step_request hx.handled
  cases hhandled : s.server.fileToBeHandled path with
  | true =>
    have hcalls := hd.symm.trans (closeHandler_producer hhandled hproducer hrule)
    cases hcalls
    have hend := hx.run.invariant_of (fun x => Meanwhile path x ∧ x.source.pending ≠ [])
      (fun x => Closing s path x ∧ Stage s path x) (closing_start ht)
      (fun x e y hi hs hc => closing_step hrule hi.1 hi.2 hc.2 hc.1 hs)
      (fun x hm => ⟨hx.meanwhile x hm, hx.running x hm⟩)
    obtain ⟨hi, hs⟩ := hend
    cases hs with
    | entered pending _ => exact absurd (hx.returned.symm.trans pending) (by simp [setCommitted])
    | created pending _ => exact absurd (hx.returned.symm.trans pending) (by simp)
    | scanned pending _ _ =>
      rcases pending with pending | pending
      · exact absurd (hx.returned.symm.trans pending) (by simp)
      · exact absurd (hx.returned.symm.trans pending) (by simp)
    | returned _ token files scanned => exact readersAwake_iff hrule hi token files scanned
  | false =>
    -- the handler leaves no call, and nobody waits for such a path
    have hnil : t.pending = [] := by
      obtain ⟨_, rfl | ⟨rfl, hp, _⟩⟩ := closeHandler_spec tid path hd
      · rw [ht]
      · rw [hhandled] at hp
        cases hp
    have hut : u = t := hx.run.invariant_of (fun x => x.source.pending ≠ []) (· = t) rfl
      (fun x e y hi _ hc => absurd (hi ▸ hnil) hc) hx.running
    have hwaits := waitsHandled_run h
    have hnobody (tid : Tid) : s.server.waitingData path tid = none := by
      refine Option.eq_none_iff_forall_ne_some.mpr fun size hw => ?_
      have hp := hwaits.waiting path tid size hw
      rw [CapioServer.fileToBeHandled, hwaits.settings, hp] at hhandled
      cases hhandled
    refine iff_of_true (fun _ tid => ?_) ?_
    · rw [hut, ht]
      exact hnobody tid
    · rintro ⟨_, v, size, hw, _⟩
      rw [hnobody v] at hw
      cases hw

/-- One close commits the file of this workflow. -/
def closedByWriter : CapioCLEngine :=
  ⟨AList.insert "/c/f".toList
    { producers := ["w".toList], consumers := [], commitRule := capioFileCommittedOnClose,
      fireRule := capioFileModeUpdate, permanent := false, exclude := false, isFile := true,
      commitOnCloseNumber := 1, directoryFileCount := -1, fileDependencies := [] } ∅⟩

/-- A reader waits for a hundred bytes of the file. -/
def waitingReader : List Action :=
  [.request (.handshakeNamed 1 1 "w".toList), .call, .request (.handshakeNamed 2 2 "r".toList), .call,
    .request (.read "/c/f".toList 2 3 100), .call]

def closedBeforeReader : System := boot ⟨"/c".toList, none⟩ closedByWriter ⟨fun _ => none⟩

private theorem writer_closes : ∃ ts s out t xs u, Run Step closedBeforeReader ts s ∧
    CloseProcessed 1 "/c/f".toList s out t xs u ∧
    s.server.isProducer "/c/f".toList 1 = some true ∧
    s.server.clEngine.getCommitRule "/c/f".toList = capioFileCommittedOnClose ∧
    u.server.isCommitted u.fs "/c/f".toList = some true ∧
    u.server.waitingData "/c/f".toList 2 = some 100 := by
  obtain ⟨ts, s, hrun, _, hs⟩ := execute_any step closedBeforeReader waitingReader (fun _ s =>
    s.server.isProducer "/c/f".toList 1 == some true &&
    s.server.clEngine.getCommitRule "/c/f".toList == capioFileCommittedOnClose &&
    (s.step (.request (.close 1 "/c/f".toList))).any (fun r =>
      (execute step r.1 [.call, .call, .call, .call]).any (fun q =>
        q.1.all (fun x => x.source.pending != []) && q.2.pending == [] &&
        q.2.server.isCommitted q.2.fs "/c/f".toList == some true &&
        q.2.server.waitingData "/c/f".toList 2 == some 100))) (by decide)
  simp only [Bool.and_eq_true, beq_iff_eq] at hs
  obtain ⟨⟨t, out⟩, hclose, ht⟩ := (Option.any_eq_true _ _).mp hs.2
  obtain ⟨xs, u, hcall, hx, hu⟩ := execute_any step t [.call, .call, .call, .call] (fun xs u =>
    xs.all (fun x => x.source.pending != []) && u.pending == [] &&
    u.server.isCommitted u.fs "/c/f".toList == some true &&
    u.server.waitingData "/c/f".toList 2 == some 100) ht
  simp only [Bool.and_eq_true, beq_iff_eq, List.all_eq_true, bne_iff_ne] at hu
  refine ⟨ts, s, out, t, xs, u, hrun, ⟨hclose, hcall, ?_, hu.1.1.1, hu.1.1.2⟩, hs.1.1, hs.1.2, hu.1.2,
    hu.2⟩
  intro x hm
  have hact : x.label.action ∈ xs.map (fun x => x.label.action) := List.mem_map_of_mem hm
  rw [hx] at hact
  simp only [List.mem_cons, List.not_mem_nil, or_false, or_self] at hact
  exact .inl hact

theorem close_wakes_readers_iff_oneWriter : ∃ ts s out t xs u, Run Step closedBeforeReader ts s ∧
    CloseProcessed 1 "/c/f".toList s out t xs u ∧ (ReadersAwake u "/c/f".toList ↔
      ¬ (LastCloseMissing s "/c/f".toList ∧ AwaitsCommit s "/c/f".toList)) := by
  obtain ⟨ts, s, out, t, xs, u, hrun, hclose, hproducer, hrule, _⟩ := writer_closes
  exact ⟨ts, s, out, t, xs, u, hrun, hclose, close_wakes_readers_iff hrun hclose hproducer hrule⟩

/-- The close that commits the file leaves its reader waiting. -/
theorem committing_close_leaves_reader : ¬ ∀ ts s, Run Step closedBeforeReader ts s →
    ∀ tid path out t xs u, CloseProcessed tid path s out t xs u →
      s.server.isProducer path tid = some true →
      s.server.clEngine.getCommitRule path = capioFileCommittedOnClose → ReadersAwake u path := by
  intro hall
  obtain ⟨ts, s, out, t, xs, u, hrun, hclose, hproducer, hrule, hcommitted, hwaits⟩ := writer_closes
  have hawake := hall ts s hrun 1 _ out t xs u hclose hproducer hrule hcommitted 2
  rw [hwaits] at hawake
  cases hawake

end Capio.Server.System
