import Capio.Server.CommitEvaluation
import Capio.Server.DependencyOrder

/-! The evaluation of the commit state against the commit state of the files as they are: they agree
where the directories made in the evaluation are nothing that it looks at. Where all of them are in
place, nothing is made, and the server behaves as its model with a pure commit state does. -/
namespace Capio.Server.Evaluation
open Library FileSystem Metadata StdPath

/-- A directory made for the token of some file that the path leads to. -/
def MadeBelow (env : Env) (engine : CapioCLEngine) (fs : FileSystem) (path m : CString) : Prop :=
  ∃ q, Reaches engine fs path q ∧ fs.isDirectory q = false ∧ MadeFor env fs q m

/-- The directory is not what the commit state of the path looks at: neither the path, nor its
token, nor an entry that it counts and still misses. -/
structure Untouched (env : Env) (engine : CapioCLEngine) (fs : FileSystem) (path m : CString) : Prop where
  kind : path ≠ m
  token : fs.isDirectory path = false → engine.getCommitRule path ≠ capioFileCommittedOnFile →
    (engine.getCommitRule path = capioFileCommittedOnClose → engine.getCommitCloseCount path ≤ 0) →
    metadataToken env path ≠ m
  entries : ∀ entries, fs.node path = some (.directory entries) → parentPath m = path →
    extension (filename m) = ".capio".toList ∨
      engine.getDirectoryFileCount path ≤ (countEntries entries : Int)

/-- The directories above the tokens can be made, and touch nothing that the path leads to. -/
structure Undisturbed (env : Env) (engine : CapioCLEngine) (fs : FileSystem) (path : CString) : Prop where
  makeable : ∀ q, Reaches engine fs path q → fs.isDirectory q = false → Makeable env fs q
  untouched : ∀ q m, Reaches engine fs path q → MadeBelow env engine fs path m →
    Untouched env engine fs q m

/-- The directories above the token are there. -/
structure InPlace (env : Env) (fs : FileSystem) (path : CString) : Prop where
  known : getCapioMetadataPath env ≠ []
  metadata : fs.isDirectory (getCapioMetadataPath env) = true
  above : fs.toBeMade (parentPath (metadataToken env path)) = some []

/-- They are there for every file that the path leads to. -/
def AllInPlace (env : Env) (engine : CapioCLEngine) (fs : FileSystem) (path : CString) : Prop :=
  ∀ q, Reaches engine fs path q → fs.isDirectory q = false → InPlace env fs q

variable {env : Env} {engine : CapioCLEngine} {made : CString → Prop} {fs fs' : FileSystem}
  {path q token : CString} {depth : Nat}

theorem madeFor_missing {m : CString} (h : MadeFor env fs path m) : fs.node m = none := by
  rcases h with ⟨ms, hms, hm⟩ | ⟨ms, hms, hm⟩
  · exact toBeMade_missing hms m hm
  · exact toBeMade_missing hms m hm

/-! ### What a path sees of the directories made -/

theorem countEntries_append (entries more : List CString) :
    countEntries (entries ++ more) = countEntries entries + countEntries more := by
  unfold countEntries
  rw [List.filter_append, List.length_append]

/-- New entries that are not counted, or not needed, make no difference. -/
theorem fileCount_le_grown (count : Int) {entries more : List CString}
    (h : ∀ name ∈ more, extension name = ".capio".toList ∨ count ≤ (countEntries entries : Int)) :
    count ≤ (countEntries (entries ++ more) : Int) ↔ count ≤ (countEntries entries : Int) := by
  by_cases henough : count ≤ (countEntries entries : Int)
  · rw [countEntries_append]
    exact iff_of_true (by omega) henough
  · have hnone : countEntries more = 0 := by
      unfold countEntries
      rw [List.length_eq_zero_iff, List.filter_eq_nil_iff]
      intro name hname
      simp [(h name hname).resolve_right henough]
    rw [countEntries_append, hnone, Nat.add_zero]

theorem fileExists_grown (h : Grows made fs fs') (hnot : ¬ made token) :
    fs'.fileExists token = fs.fileExists token := by
  cases hold : fs.fileExists token with
  | true => exact h.fileExists hold
  | false =>
    rw [fileExists, Option.isSome_eq_false_iff, Option.isNone_iff_eq_none] at hold ⊢
    exact (h.missing token hold).resolve_right fun hm => hnot hm.1

/-- A directory counts no closes. -/
theorem tokenCount_grown (h : Grows made fs fs') : tokenCount fs' token = tokenCount fs token := by
  cases hn : fs.node token with
  | none =>
    rcases h.missing token hn with hn' | ⟨_, hdir⟩
    · rw [tokenCount, tokenCount, hn, hn']
    · obtain ⟨entries, hn'⟩ := isDirectory_iff.mp hdir
      rw [tokenCount, tokenCount, hn, hn']
  | some n =>
    cases n with
    | file content => rw [tokenCount, tokenCount, hn, h.file token content hn]
    | directory entries =>
      obtain ⟨more, hn', _⟩ := h.directory token entries hn
      rw [tokenCount, tokenCount, hn, hn']

/-- A directory in the place of the token commits no file that is to be closed. -/
theorem onClose_grown {count : Int} (h : Grows made fs fs') (hmissing : made token → fs.node token = none)
    (hcount : count ≤ 0 → ¬ made token) :
    (fs'.fileExists token && (decide (count = -1) || decide (count ≤ tokenCount fs' token))) =
      (fs.fileExists token && (decide (count = -1) || decide (count ≤ tokenCount fs token))) := by
  rw [tokenCount_grown h]
  by_cases hmade : made token
  · have hzero : tokenCount fs token = 0 := by rw [tokenCount, hmissing hmade]
    have hpos : 0 < count := by
      by_contra hle
      exact hcount (by omega) hmade
    have hno : (decide (count = -1) || decide (count ≤ tokenCount fs token)) = false := by
      rw [hzero]
      simp
      omega
    rw [hno, Bool.and_false, Bool.and_false]
  · rw [fileExists_grown h hmade]

/-! ### Undisturbed evaluations -/

/-- An undisturbed evaluation answers like the commit state of the files as they were, whatever has
been made on the way. -/
theorem isCommittedWithin_follows (depth : Nat) (h : Undisturbed env engine fs path) (hq : Reaches engine fs path q)
    (hgrows : Grows (MadeBelow env engine fs path) fs fs') :
    Follows (Grows (MadeBelow env engine fs path) fs) (Server.isCommittedWithin env engine fs depth q)
      (isCommittedWithin env engine depth fs' q) := by
  induction depth generalizing q fs' with
  | zero => exact ⟨rfl, fun _ _ he => nomatch he⟩
  | succ depth ih =>
    have huntouched (m : CString) (hm : MadeBelow env engine fs path m) := h.untouched q m hq hm
    cases hdir : fs.isDirectory q with
    | true =>
      obtain ⟨entries, hn⟩ := isDirectory_iff.mp hdir
      obtain ⟨more, hn', hmore⟩ := hgrows.directory q entries hn
      have hcount := fileCount_le_grown (engine.getDirectoryFileCount q) fun name hname => by
        obtain ⟨m, hm, hparent, hfilename⟩ := hmore name hname
        rw [← hfilename]
        exact (huntouched m hm).entries entries hn hparent
      rw [Server.isCommittedWithin_directory hn, isCommittedWithin_directory hn', decide_eq_decide.mpr hcount]
      exact follows_some hgrows
    | false =>
      have hkind : ¬ MadeBelow env engine fs path q := fun hm => (huntouched q hm).kind rfl
      have hdir' : fs'.isDirectory q = false := (hgrows.isDirectory_eq hkind).trans hdir
      obtain ⟨gs, hmade, hgrows'⟩ := getAndCreateMetadataPath_grown (h.makeable q hq hdir) hgrows
        fun m hm => ⟨q, hq, hdir, hm⟩
      rw [isCommittedWithin_file hdir', hmade, Option.bind_some]
      have hmissing (m : CString) : MadeBelow env engine fs path m → fs.node m = none :=
        fun ⟨_, _, _, hm⟩ => madeFor_missing hm
      by_cases hfile : engine.getCommitRule q = capioFileCommittedOnFile
      · rw [Server.isCommittedWithin_onFile hdir hfile, if_pos hfile]
        refine allInTurn_follows _ (fun file hfile' s hs => ih ?_ hs) hgrows'
        exact reaches_trans hq (.dep hdir hfile hfile' (.refl file))
      · rw [if_neg hfile]
        by_cases hclose : engine.getCommitRule q = capioFileCommittedOnClose
        · rw [Server.isCommittedWithin_onClose hdir hclose, if_pos hclose,
            onClose_grown hgrows' (hmissing _) fun hle hm =>
              (huntouched _ hm).token hdir hfile (fun _ => hle) rfl]
          exact follows_some hgrows'
        · have hnot : ¬ MadeBelow env engine fs path (metadataToken env q) := fun hm =>
            (huntouched _ hm).token hdir hfile (fun hc => absurd hc hclose) rfl
          rw [Server.isCommittedWithin_other hdir hfile hclose, if_neg hclose, fileExists_grown hgrows' hnot]
          exact follows_some hgrows'

/-- Undisturbed, the evaluation answers with the commit state. -/
theorem isCommittedWithin_undisturbed (depth : Nat) (h : Undisturbed env engine fs path) :
    (isCommittedWithin env engine depth fs path).map Prod.fst = Server.isCommittedWithin env engine fs depth path :=
  (isCommittedWithin_follows depth h (.refl path) (.refl _ fs)).1

/-! ### Nothing to be made -/

theorem InPlace.makeable (h : InPlace env fs path) : Makeable env fs path where
  known := h.known
  metadata := .inr (by rw [toBeMade, if_neg h.known, if_pos h.metadata]; simp)
  above := by
    rw [h.above]
    simp

theorem InPlace.not_madeFor {m : CString} (h : InPlace env fs path) : ¬ MadeFor env fs path m := by
  rintro (⟨ms, hms, hm⟩ | ⟨ms, hms, hm⟩)
  · rw [toBeMade, if_neg h.known, if_pos h.metadata] at hms
    cases hms
    cases hm
  · rw [h.above] at hms
    cases hms
    cases hm

/-- In place, the token is found and nothing is made. -/
theorem getAndCreateMetadataPath_inPlace (h : InPlace env fs path) :
    getAndCreateMetadataPath env fs path = some (metadataToken env path, fs) := by
  obtain ⟨gs, hmade, hgrows⟩ := getAndCreateMetadataPath_grown h.makeable (.refl (fun _ => False) fs)
    fun m hm => h.not_madeFor hm
  rw [hmade, hgrows.eq]

theorem AllInPlace.not_madeBelow {m : CString} (h : AllInPlace env engine fs path) :
    ¬ MadeBelow env engine fs path m := fun ⟨q, hq, hdir, hm⟩ => (h q hq hdir).not_madeFor hm

theorem AllInPlace.undisturbed (h : AllInPlace env engine fs path) : Undisturbed env engine fs path where
  makeable q hq hdir := (h q hq hdir).makeable
  untouched _ _ _ hm := absurd hm h.not_madeBelow

/-- In place, the evaluation is the commit state and leaves the files alone. -/
theorem isCommittedWithin_inPlace (h : AllInPlace env engine fs path) :
    isCommittedWithin env engine depth fs path =
      (Server.isCommittedWithin env engine fs depth path).map (·, fs) := by
  obtain ⟨hanswer, hleft⟩ := isCommittedWithin_follows depth h.undisturbed (.refl path) (.refl _ fs)
  rw [← hanswer]
  cases heval : isCommittedWithin env engine depth fs path with
  | none => rfl
  | some r =>
    have hsame : r.2 = fs := ((hleft r.1 r.2 heval).mono fun m hm => h.not_madeBelow hm).eq
    rw [Option.map_some, Option.map_some, ← hsame]

/-! ### The server in these states -/

/-- The bound of `Capio.Server.isCommitted`. -/
def boundOf (server : CapioServer) : Nat := server.clEngine.locations.keys.length + 1

/-- The tokens that a call asks for have their directories. -/
def CallInPlace (server : CapioServer) (fs : FileSystem) : Call → Prop
  | .checkAndUnlockThreadAwaitingData path => AllInPlace server.env server.clEngine fs path
  | .createToken path | .increaseCloseCount path => InPlace server.env fs path
  | _ => True

/-- The tokens that a handler asks for have their directories. -/
def RequestInPlace (server : CapioServer) (fs : FileSystem) : Request → Prop
  | .consent _ path _ | .read path _ _ _ => AllInPlace server.env server.clEngine fs path
  | _ => True

variable {server : CapioServer}

theorem isCommitted_inPlace (h : AllInPlace server.env server.clEngine fs path) :
    isCommitted (boundOf server) server fs path = (server.isCommitted fs path).map (·, fs) :=
  isCommittedWithin_inPlace h

theorem unlockBody_inPlace (h : AllInPlace server.env server.clEngine fs path) (tid : Tid) (size : Nat) :
    unlockBody (boundOf server) server path fs tid size = (server.unlockBody fs path tid size).map (·, fs) := by
  unfold unlockBody CapioServer.unlockBody
  rw [isCommitted_inPlace h]
  cases hsize : CapioServer.awaitedSize fs path with
  | none => rfl
  | some filesize =>
    cases server.isCommitted fs path with
    | none => rfl
    | some committed =>
      cases server.isProducer path tid with
      | none => rfl
      | some producer =>
        simp only [Option.map_some, Option.bind_eq_bind, Option.bind_some, hsize]
        split_ifs
        · cases server.clientManager.replyToClient tid filesize <;> rfl
        · rfl

theorem checkAndUnlock_inPlace (h : AllInPlace server.env server.clEngine fs path) :
    checkAndUnlockThreadAwaitingData (boundOf server) server fs path =
      (server.checkAndUnlockThreadAwaitingData fs path).map fun r => (r.1, fs, r.2) := by
  unfold checkAndUnlockThreadAwaitingData CapioServer.checkAndUnlockThreadAwaitingData
  dsimp only
  cases server.fileManager.threadAwaitingData.lookup path with
  | none => rfl
  | some threads =>
    dsimp only
    rw [UnorderedMap.sweep_still fun e _ => unlockBody_inPlace h e.1 e.2]
    cases UnorderedMap.drain (server.unlockBody fs path) threads <;> rfl

/-- With the directories in place, every call is the one of the model of the whole server. -/
theorem run_inPlace {c : Call} (h : CallInPlace server fs c) : run (boundOf server) server fs c = c.run server fs := by
  cases c with
  | checkAndUnlockThreadAwaitingData path =>
    have hscan : run (boundOf server) server fs (.checkAndUnlockThreadAwaitingData path) =
        (server.checkAndUnlockThreadAwaitingData fs path).map fun r => (r.1, fs, r.2) :=
      checkAndUnlock_inPlace h
    rw [hscan, Call.run]
    cases server.checkAndUnlockThreadAwaitingData fs path <;> rfl
  | createToken path =>
    have hmade : createToken server fs path = some (server.createToken fs path) := by
      rw [createToken, getAndCreateMetadataPath_inPlace h]
      rfl
    rw [run, hmade]
    rfl
  | increaseCloseCount path =>
    have hmade : increaseCloseCount server fs path = server.increaseCloseCount fs path := by
      rw [increaseCloseCount, getAndCreateMetadataPath_inPlace h]
      rfl
    rw [run, hmade]
    rfl
  | _ => rfl

theorem consentToProceedHandler_inPlace (h : AllInPlace server.env server.clEngine fs path) (tid : Tid)
    (sourceFunc : CString) : consentToProceedHandler (boundOf server) server fs tid path sourceFunc =
      (Server.consentToProceedHandler server fs tid path sourceFunc).map (·, fs) := by
  unfold consentToProceedHandler Server.consentToProceedHandler
  rw [isCommitted_inPlace h]
  cases server.fileToBeHandled path with
  | false => cases server.clientManager.replyToClient tid 1 <;> rfl
  | true =>
    cases server.isProducer path tid with
    | none => rfl
    | some producer =>
      cases producer with
      | true => cases server.clientManager.replyToClient tid 1 <;> rfl
      | false =>
        cases server.isCommitted fs path with
        | none => rfl
        | some committed =>
          simp only [Bool.false_eq_true, not_true_eq_false, if_false, Option.map_some, Option.bind_eq_bind,
            Option.bind_some]
          split_ifs
          · cases server.clientManager.replyToClient tid 1 <;> rfl
          · rfl

theorem readHandler_inPlace (h : AllInPlace server.env server.clEngine fs path) (tid fd : Tid)
    (endOfRead : Nat) : readHandler (boundOf server) server fs path tid fd endOfRead =
      (Server.readHandler server fs path tid fd endOfRead).map (·, fs) := by
  unfold readHandler Server.readHandler
  rw [isCommitted_inPlace h]
  cases server.fileToBeHandled path with
  | false => cases server.clientManager.replyToClient tid 1 <;> rfl
  | true =>
    cases server.isCommitted fs path with
    | none => rfl
    | some committed =>
      cases hsize : getFileSizeIfExists fs path with
      | none => simp [hsize]
      | some size =>
        simp only [not_true_eq_false, if_false, Option.map_some, Option.bind_eq_bind, Option.bind_some, hsize]
        generalize (if committed = true then ullongMax else size) = answer
        split_ifs
        · cases server.clientManager.replyToClient tid answer <;> rfl
        · cases server.isProducer path tid with
          | none => rfl
          | some producer =>
            cases producer with
            | true => cases server.clientManager.replyToClient tid answer <;> rfl
            | false => rfl

/-- And so is every handler. -/
theorem handle_inPlace {r : Request} (h : RequestInPlace server fs r) :
    handle (boundOf server) server fs r = (Server.handle server fs r).map (·, fs) := by
  cases r with
  | consent tid path sourceFunc => exact consentToProceedHandler_inPlace h tid sourceFunc
  | read path tid fd endOfRead => exact readHandler_inPlace h tid fd endOfRead
  | _ => rfl

end Capio.Server.Evaluation
