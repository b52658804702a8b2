import Capio.Server.Handlers
import Capio.Server.TokenDirectories

/-! The functions that evaluate the commit state, with what the evaluation does to the file system:
whoever asks for a token makes the directories above it. `none` is an exception, or a recursion that
goes deeper than the bound. -/
namespace Capio.Server.Evaluation
open Library FileSystem

/-- `CapioFileManager::isCommitted`: the answer, and the file system it leaves. -/
def isCommittedWithin (env : Env) (engine : CapioCLEngine) :
    Nat → FileSystem → CString → Option (Bool × FileSystem)
  | 0, _, _ => none
  | depth + 1, fs, path =>
    match fs.node path with
    | some (.directory entries) =>
      some (engine.getDirectoryFileCount path ≤ (countEntries entries : Int), fs)
    | _ => do
      let (token, fs) ← getAndCreateMetadataPath env fs path
      let commitRule := engine.getCommitRule path
      let metadataTokenExists := fs.fileExists token
      if commitRule = capioFileCommittedOnFile then
        (engine.getFileDeps path).foldlM
          (fun st file => if st.1 then isCommittedWithin env engine depth st.2 file
            else some (false, st.2)) (true, fs)
      else if commitRule = capioFileCommittedOnClose then
        if metadataTokenExists then
          if engine.getCommitCloseCount path ≠ -1 then
            some (engine.getCommitCloseCount path ≤ tokenCount fs token, fs)
          else some (true, fs)
        else some (false, fs)
      else some (metadataTokenExists, fs)

def isCommitted (depth : Nat) (server : CapioServer) (fs : FileSystem) (path : CString) :
    Option (Bool × FileSystem) :=
  isCommittedWithin server.env server.clEngine depth fs path

/-- The body of the loop over the threads waiting for data of `path`. The file is measured before
the evaluation, and again for the reply. -/
def unlockBody (depth : Nat) (server : CapioServer) (path : CString) (fs : FileSystem) (tid : Tid)
    (_expectedSize : Nat) : Option (Option Reply × FileSystem) := do
  let filesize ← CapioServer.awaitedSize fs path
  let (committed, fs) ← isCommitted depth server fs path
  let fileSizeCheck := decide (filesize ≤ CapioServer.unsignedTid tid)
  let isFnu := decide (server.clEngine.getFireRule path = capioFileModeNoUpdate)
  let isProducer ← server.isProducer path tid
  if committed || isProducer || (fileSizeCheck && isFnu) then
    let offset ← CapioServer.awaitedSize fs path
    let reply ← server.clientManager.replyToClient tid offset
    some (some reply, fs)
  else some (none, fs)

def checkAndUnlockThreadAwaitingData (depth : Nat) (server : CapioServer) (fs : FileSystem)
    (path : CString) : Option Outcome := do
  let table := server.fileManager.threadAwaitingData
  match table.lookup path with
  | none => some (server, fs, [])
  | some threads =>
    let (threads, replies, fs) ← UnorderedMap.sweep (unlockBody depth server path) fs threads
    let table := table.insert path threads
    some (server.withFileManager { server.fileManager with
      threadAwaitingData := if threads.keys = [] then table.erase path else table }, fs, replies)

def increaseCloseCount (server : CapioServer) (fs : FileSystem) (path : CString) : Option FileSystem := do
  let (token, fs) ← getAndCreateMetadataPath server.env fs path
  if fs.isDirectory token then none
  else some (fs.set token (some (.file (printCount (tokenCount fs token + 1)))))

def createToken (server : CapioServer) (fs : FileSystem) (path : CString) : Option FileSystem := do
  let (token, fs) ← getAndCreateMetadataPath server.env fs path
  some (fs.createExclusive token)

/-- A call of a handler or of the monitor. -/
def run (depth : Nat) (server : CapioServer) (fs : FileSystem) : Call → Option Outcome
  | .checkAndUnlockThreadAwaitingData path => checkAndUnlockThreadAwaitingData depth server fs path
  | .createToken path => do
    let fs ← createToken server fs path
    some (server, fs, [])
  | .increaseCloseCount path => do
    let fs ← increaseCloseCount server fs path
    some (server, fs, [])
  | c => c.run server fs

section
variable (depth : Nat) (server : CapioServer) (fs : FileSystem)

def consentToProceedHandler (tid : Tid) (path _sourceFunc : CString) : Option (Decision × FileSystem) := do
  if ¬ server.fileToBeHandled path then return (([], [← server.clientManager.replyToClient tid 1]), fs)
  if ← server.isProducer path tid then return (([], [← server.clientManager.replyToClient tid 1]), fs)
  let fileExists := fs.fileExists path
  let (committed, fs) ← isCommitted depth server fs path
  let firable := decide (server.clEngine.getFireRule path = capioFileModeNoUpdate)
  if fileExists && (committed || firable) then
    return (([], [← server.clientManager.replyToClient tid 1]), fs)
  return (([.addThreadAwaitingData path tid 0], []), fs)

def readHandler (path : CString) (tid _fd : Tid) (endOfRead : Nat) : Option (Decision × FileSystem) := do
  if ¬ server.fileToBeHandled path then return (([], [← server.clientManager.replyToClient tid 1]), fs)
  let (isCommitted, fs) ← isCommitted depth server fs path
  let fileSize ← getFileSizeIfExists fs path
  let answer := if isCommitted then ullongMax else fileSize
  if endOfRead ≤ fileSize ∨ isCommitted then
    return (([], [← server.clientManager.replyToClient tid answer]), fs)
  if ← server.isProducer path tid then
    return (([], [← server.clientManager.replyToClient tid answer]), fs)
  return (([.addThreadAwaitingData path tid endOfRead], []), fs)

/-- The handlers that evaluate the commit state, and the others. -/
def handle : Request → Option (Decision × FileSystem)
  | .consent tid path sourceFunc => consentToProceedHandler depth server fs tid path sourceFunc
  | .read path tid fd endOfRead => readHandler depth server fs path tid fd endOfRead
  | r => (Server.handle server fs r).map (·, fs)

end

/-! ### One evaluation -/

/-- `isCommitted` of the path returns this answer and leaves this file system. -/
def Evaluates (env : Env) (engine : CapioCLEngine) (fs : FileSystem) (path : CString) (committed : Bool)
    (fs' : FileSystem) : Prop :=
  ∃ depth, isCommittedWithin env engine depth fs path = some (committed, fs')

/-- `isCommitted` of the path returns this answer. -/
def Answers (env : Env) (engine : CapioCLEngine) (fs : FileSystem) (path : CString) (committed : Bool) : Prop :=
  ∃ fs', Evaluates env engine fs path committed fs'

variable {env : Env} {engine : CapioCLEngine} {fs fs' : FileSystem} {path : CString} {depth depth' : Nat}
  {committed : Bool}

theorem isCommittedWithin_directory {entries : List CString} (h : fs.node path = some (.directory entries)) :
    isCommittedWithin env engine (depth + 1) fs path =
      some (decide (engine.getDirectoryFileCount path ≤ (countEntries entries : Int)), fs) := by
  rw [isCommittedWithin, h]

/-- Away from directories, the token's directories come first. -/
theorem isCommittedWithin_file (h : fs.isDirectory path = false) :
    isCommittedWithin env engine (depth + 1) fs path =
      (getAndCreateMetadataPath env fs path).bind fun made =>
        if engine.getCommitRule path = capioFileCommittedOnFile then
          allInTurn (isCommittedWithin env engine depth) made.2 (engine.getFileDeps path)
        else if engine.getCommitRule path = capioFileCommittedOnClose then
          some (made.2.fileExists made.1 && (decide (engine.getCommitCloseCount path = -1) ||
            decide (engine.getCommitCloseCount path ≤ tokenCount made.2 made.1)), made.2)
        else some (made.2.fileExists made.1, made.2) := by
  rw [isCommittedWithin]
  split
  · rename_i entries hn
    rw [isDirectory_iff.mpr ⟨entries, hn⟩] at h
    cases h
  · cases getAndCreateMetadataPath env fs path with
    | none => rfl
    | some made =>
      obtain ⟨token, gs⟩ := made
      simp only [Option.bind_eq_bind, Option.bind_some]
      split_ifs with hfile hclose hexists hcount
      · rfl
      · simp [hexists, hcount]
      · simp [hexists, not_not.mp hcount]
      · simp [Bool.eq_false_iff.mpr hexists]
      · rfl

theorem isCommittedWithin_succ {r : Bool × FileSystem} (h : isCommittedWithin env engine depth fs path = some r) :
    isCommittedWithin env engine (depth + 1) fs path = some r := by
  induction depth generalizing fs path r with
  | zero => cases h
  | succ depth ih =>
    cases hdir : fs.isDirectory path with
    | true =>
      obtain ⟨entries, hn⟩ := isDirectory_iff.mp hdir
      rw [isCommittedWithin_directory hn] at h ⊢
      exact h
    | false =>
      rw [isCommittedWithin_file hdir] at h ⊢
      obtain ⟨made, hmade, h⟩ := Option.bind_eq_some_iff.mp h
      rw [hmade, Option.bind_some]
      split_ifs at h ⊢
      · exact allInTurn_mono (fun s item r hr => ih hr) _ h
      · exact h
      · exact h

theorem isCommittedWithin_mono (hle : depth ≤ depth') {r : Bool × FileSystem}
    (h : isCommittedWithin env engine depth fs path = some r) :
    isCommittedWithin env engine depth' fs path = some r := by
  induction hle with
  | refl => exact h
  | step _ ih => exact isCommittedWithin_succ ih

/-- The answer does not depend on the bound that it is found with. -/
theorem Evaluates.unique {committed' : Bool} {gs gs' : FileSystem}
    (h : Evaluates env engine fs path committed gs) (h' : Evaluates env engine fs path committed' gs') :
    committed = committed' ∧ gs = gs' := by
  obtain ⟨depth, h⟩ := h
  obtain ⟨depth', h'⟩ := h'
  have hsame := (isCommittedWithin_mono (le_max_left depth depth') h).symm.trans
    (isCommittedWithin_mono (le_max_right depth depth') h')
  cases hsame
  exact ⟨rfl, rfl⟩

theorem evaluates_iff {r : Bool × FileSystem} (h : isCommittedWithin env engine depth fs path = some r) :
    Evaluates env engine fs path committed fs' ↔ r = (committed, fs') := by
  constructor
  · intro he
    obtain ⟨hanswer, hleft⟩ := Evaluates.unique ⟨depth, h⟩ he
    exact Prod.ext hanswer hleft
  · rintro rfl
    exact ⟨depth, h⟩

theorem answers_iff {r : Bool × FileSystem} (h : isCommittedWithin env engine depth fs path = some r) :
    Answers env engine fs path committed ↔ r.1 = committed := by
  unfold Answers
  simp only [evaluates_iff h]
  constructor
  · rintro ⟨gs, rfl⟩
    rfl
  · rintro rfl
    exact ⟨r.2, rfl⟩

/-- An evaluation makes directories and does nothing else. -/
theorem isCommittedWithin_grows (h : isCommittedWithin env engine depth fs path = some (committed, fs')) :
    Grows (fun _ => True) fs fs' := by
  induction depth generalizing fs path committed fs' with
  | zero => cases h
  | succ depth ih =>
    cases hdir : fs.isDirectory path with
    | true =>
      obtain ⟨entries, hn⟩ := isDirectory_iff.mp hdir
      rw [isCommittedWithin_directory hn] at h
      cases h
      exact .refl _ _
    | false =>
      rw [isCommittedWithin_file hdir] at h
      obtain ⟨⟨token, gs⟩, hmade, h⟩ := Option.bind_eq_some_iff.mp h
      have hgrows := (getAndCreateMetadataPath_grows hmade).2
      split_ifs at h
      · exact hgrows.trans (allInTurn_keeps (Grows.refl _) (fun _ _ _ => Grows.trans)
          (fun _ _ _ _ hr => ih hr) _ h)
      · cases h
        exact hgrows
      · cases h
        exact hgrows

theorem Evaluates.grows (h : Evaluates env engine fs path committed fs') : Grows (fun _ => True) fs fs' := by
  obtain ⟨depth, h⟩ := h
  exact isCommittedWithin_grows h

/-! ### What a yes takes -/

/-- The paths are looked at one after the other, and each is found committed when its turn comes; a
file that commits on others puts these first. Every file has the directories above its token made. -/
inductive Walk (env : Env) (engine : CapioCLEngine) : FileSystem → List CString → FileSystem → Prop
  | done (fs : FileSystem) : Walk env engine fs [] fs
  | directory {fs fs' : FileSystem} {path : CString} {rest entries : List CString} :
      fs.node path = some (.directory entries) →
      engine.getDirectoryFileCount path ≤ (countEntries entries : Int) →
      Walk env engine fs rest fs' → Walk env engine fs (path :: rest) fs'
  | token {fs gs fs' : FileSystem} {path token : CString} {rest : List CString} :
      fs.isDirectory path = false → engine.getCommitRule path ≠ capioFileCommittedOnFile →
      getAndCreateMetadataPath env fs path = some (token, gs) → gs.fileExists token = true →
      (engine.getCommitRule path = capioFileCommittedOnClose →
        engine.getCommitCloseCount path = -1 ∨ engine.getCommitCloseCount path ≤ tokenCount gs token) →
      Walk env engine gs rest fs' → Walk env engine fs (path :: rest) fs'
  | dependencies {fs gs fs' : FileSystem} {path token : CString} {rest : List CString} :
      fs.isDirectory path = false → engine.getCommitRule path = capioFileCommittedOnFile →
      getAndCreateMetadataPath env fs path = some (token, gs) →
      Walk env engine gs (engine.getFileDeps path ++ rest) fs' → Walk env engine fs (path :: rest) fs'

private theorem walk_of_turns {s t : FileSystem} {items rest : List CString}
    (hone : ∀ s path t rest, isCommittedWithin env engine depth s path = some (true, t) →
      Walk env engine t rest fs' → Walk env engine s (path :: rest) fs')
    (h : allInTurn (isCommittedWithin env engine depth) s items = some (true, t))
    (hrest : Walk env engine t rest fs') : Walk env engine s (items ++ rest) fs' := by
  induction items generalizing s with
  | nil =>
    cases h
    exact hrest
  | cons item items ih =>
    rw [allInTurn_cons] at h
    obtain ⟨⟨holds, u⟩, hask, h⟩ := Option.bind_eq_some_iff.mp h
    cases holds with
    | true => exact hone s item u _ hask (ih h)
    | false => cases h

theorem walk_of_committed {t : FileSystem} {rest : List CString}
    (h : isCommittedWithin env engine depth fs path = some (true, t)) (hrest : Walk env engine t rest fs') :
    Walk env engine fs (path :: rest) fs' := by
  induction depth generalizing fs path t rest with
  | zero => cases h
  | succ depth ih =>
    cases hdir : fs.isDirectory path with
    | true =>
      obtain ⟨entries, hn⟩ := isDirectory_iff.mp hdir
      rw [isCommittedWithin_directory hn, Option.some.injEq, Prod.mk.injEq, decide_eq_true_eq] at h
      obtain ⟨hcount, rfl⟩ := h
      exact .directory hn hcount hrest
    | false =>
      rw [isCommittedWithin_file hdir] at h
      obtain ⟨⟨token, gs⟩, hmade, h⟩ := Option.bind_eq_some_iff.mp h
      dsimp only at h
      split_ifs at h with hfile hclose
      · exact .dependencies hdir hfile hmade (walk_of_turns (fun _ _ _ _ hone hw => ih hone hw) h hrest)
      · simp only [Option.some.injEq, Prod.mk.injEq, Bool.and_eq_true, Bool.or_eq_true, decide_eq_true_eq] at h
        obtain ⟨⟨hexists, hcount⟩, rfl⟩ := h
        exact .token hdir hfile hmade hexists (fun _ => hcount) hrest
      · simp only [Option.some.injEq, Prod.mk.injEq] at h
        obtain ⟨hexists, rfl⟩ := h
        exact .token hdir hfile hmade hexists (fun hc => absurd hc hclose) hrest

/-- A walk to its end is a conjunction of evaluations. -/
theorem turns_of_walk {paths : List CString} (h : Walk env engine fs paths fs') :
    ∃ depth, allInTurn (isCommittedWithin env engine depth) fs paths = some (true, fs') := by
  have hmono (depth : Nat) (s : FileSystem) (path : CString) (r : Bool × FileSystem)
      (hr : isCommittedWithin env engine depth s path = some r) :
      isCommittedWithin env engine (depth + 1) s path = some r := isCommittedWithin_succ hr
  induction h with
  | done fs => exact ⟨0, rfl⟩
  | directory hn hcount _ ih =>
    obtain ⟨depth, ih⟩ := ih
    refine ⟨depth + 1, ?_⟩
    rw [allInTurn_cons, isCommittedWithin_directory hn, decide_eq_true hcount]
    exact allInTurn_mono (hmono depth) _ ih
  | token hdir hfile hmade hexists hcount _ ih =>
    obtain ⟨depth, ih⟩ := ih
    refine ⟨depth + 1, ?_⟩
    have hnow := allInTurn_mono (hmono depth) _ ih
    rw [allInTurn_cons, isCommittedWithin_file hdir, hmade, Option.bind_some, if_neg hfile]
    dsimp only
    split_ifs with hclose
    · have hyes := hcount hclose
      rw [hexists, Bool.true_and, Option.bind_some]
      rw [← decide_eq_true_iff (p := _ ∨ _), Bool.decide_or] at hyes
      rw [hyes]
      exact hnow
    · rw [hexists, Option.bind_some]
      exact hnow
  | dependencies hdir hfile hmade _ ih =>
    obtain ⟨depth, ih⟩ := ih
    obtain ⟨t, hdeps, hrest⟩ := (allInTurn_append _ _).mp ih
    refine ⟨depth + 1, ?_⟩
    rw [allInTurn_cons, isCommittedWithin_file hdir, hmade, Option.bind_some, if_pos hfile, hdeps,
      Option.bind_some]
    exact allInTurn_mono (hmono depth) _ hrest

/-- The answer is yes exactly when the walk from the path comes to its end. -/
theorem evaluates_true_iff : Evaluates env engine fs path true fs' ↔ Walk env engine fs [path] fs' := by
  constructor
  · rintro ⟨depth, h⟩
    exact walk_of_committed h (.done fs')
  · intro h
    obtain ⟨depth, h⟩ := turns_of_walk h
    rw [allInTurn_cons] at h
    obtain ⟨⟨holds, t⟩, hask, h⟩ := Option.bind_eq_some_iff.mp h
    cases holds with
    | true =>
      cases h
      exact ⟨depth, hask⟩
    | false => cases h

end Capio.Server.Evaluation
