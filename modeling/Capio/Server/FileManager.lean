import Capio.Library.Dependencies
import Capio.Server.ClEngine

/-! `CapioFileManager`: the two tables of waiting threads, and the commit state
computed from the location table and the metadata tokens. -/
namespace Capio.Server
open Library

structure CapioFileManager where
  threadAwaitingFileCreation : UnorderedMap CString (List Tid)
  threadAwaitingData : UnorderedMap CString (UnorderedMap Tid Nat)

/-- Everything the server process holds. -/
structure CapioServer where
  env : Env
  clientManager : ClientManager
  clEngine : CapioCLEngine
  fileManager : CapioFileManager

/-- `get_file_size_if_exists`: `file_size` throws on a directory. -/
def getFileSizeIfExists (fs : FileSystem) (path : CString) : Option Nat :=
  if fs.fileExists path then fs.fileSize path else some 0

/-- `operator>>` into an integer: 0 when there is no numeral. The count is not
bounded, as that of a file closed fewer than 2^63 times. -/
def readCount (content : CString) : Int :=
  match scanNumeral (content.dropWhile isSpace) with
  | some (count, _) => count
  | none => 0

/-- `" %llu \n"`. -/
def printCount (count : Int) : CString := ' ' :: (intText count ++ [' ', '\n'])

theorem readCount_printCount (count : Int) : readCount (printCount count) = count := by
  have hspace : (printCount count).dropWhile isSpace = intText count ++ [' ', '\n'] := by
    have hblank : isSpace ' ' = true := by decide
    cases count with
    | negSucc n => simp [printCount, intText, hblank, show isSpace '-' = false by decide]
    | ofNat n =>
      cases hds : natText n with
      | nil => exact absurd hds (natText_ne_nil n)
      | cons d ds =>
        have hd := isSpace_of_isDigit (natText_isDigit n d (by simp [hds]))
        simp [printCount, intText, hds, hblank, hd]
  unfold readCount
  rw [hspace, scanNumeral_intText count _ (by simp)]

/-- The number an `ifstream` on the token delivers: 0 when nothing can be read. -/
def tokenCount (fs : FileSystem) (token : CString) : Int :=
  match fs.node token with
  | some (.file content) => readCount content
  | _ => 0

theorem tokenCount_set (fs : FileSystem) (path tk : CString) (content : CString) :
    tokenCount (fs.set path (some (.file content))) tk =
      if tk = path then readCount content else tokenCount fs tk := by
  unfold tokenCount
  rw [FileSystem.set_node]
  split_ifs <;> rfl

theorem tokenCount_set_ne (fs : FileSystem) {path tk : CString} (n : Option Node) (h : tk ≠ path) :
    tokenCount (fs.set path n) tk = tokenCount fs tk := by
  unfold tokenCount
  rw [FileSystem.set_node, if_neg h]

/-- A new token counts like a missing one. -/
theorem tokenCount_createExclusive (fs : FileSystem) (path tk : CString) :
    tokenCount (fs.createExclusive path) tk = tokenCount fs tk := by
  unfold tokenCount
  rw [FileSystem.createExclusive_node]
  split_ifs with h
  · subst h
    cases fs.node tk with
    | none => rfl
    | some n => rfl
  · rfl

theorem tokenCount_missing {fs : FileSystem} {tk : CString} (h : fs.fileExists tk = false) :
    tokenCount fs tk = 0 := by
  rw [FileSystem.fileExists, Option.isSome_eq_false_iff, Option.isNone_iff_eq_none] at h
  rw [tokenCount, h]

/-- What `isCommitted` says of the files as they are, with a bound on the depth of the recursion
through `get_file_deps`; `none` when the bound is exceeded. The directories that it makes above the
tokens, and the exception where it cannot, are in `Evaluation.isCommittedWithin`. -/
def isCommittedWithin (env : Env) (engine : CapioCLEngine) (fs : FileSystem) :
    Nat → CString → Option Bool
  | 0, _ => none
  | depth + 1, path =>
    match fs.node path with
    | some (.directory entries) =>
      some (engine.getDirectoryFileCount path ≤ (countEntries entries : Int))
    | _ =>
      let token := metadataToken env path
      let commitRule := engine.getCommitRule path
      if commitRule = capioFileCommittedOnFile then
        (engine.getFileDeps path).foldlM
          (fun committed file => if committed then isCommittedWithin env engine fs depth file
            else some false) true
      else if commitRule = capioFileCommittedOnClose then
        if fs.fileExists token then
          if engine.getCommitCloseCount path ≠ -1 then
            some (engine.getCommitCloseCount path ≤ tokenCount fs token)
          else some true
        else some false
      else some (fs.fileExists token)

/-- A recursion deeper than the location table repeats a path and never ends. -/
def isCommitted (env : Env) (engine : CapioCLEngine) (fs : FileSystem) (path : CString) : Option Bool :=
  isCommittedWithin env engine fs (engine.locations.keys.length + 1) path

variable {env : Env} {engine : CapioCLEngine} {fs : FileSystem} {path : CString} {depth : Nat}

theorem isCommittedWithin_directory {entries : List CString} (h : fs.node path = some (.directory entries)) :
    isCommittedWithin env engine fs (depth + 1) path =
      some (decide (engine.getDirectoryFileCount path ≤ (countEntries entries : Int))) := by
  rw [isCommittedWithin, h]

private theorem node_ne_directory (h : fs.isDirectory path = false) (entries : List CString) :
    fs.node path ≠ some (.directory entries) := by
  intro hn
  rw [FileSystem.isDirectory, hn] at h
  cases h

/-- Away from directories the commit rule decides. -/
theorem isCommittedWithin_onFile (h : fs.isDirectory path = false)
    (hr : engine.getCommitRule path = capioFileCommittedOnFile) :
    isCommittedWithin env engine fs (depth + 1) path = (engine.getFileDeps path).foldlM
      (fun committed file => if committed then isCommittedWithin env engine fs depth file
        else some false) true := by
  rw [isCommittedWithin]
  split
  · rename_i hn
    exact absurd hn (node_ne_directory h _)
  · rw [if_pos hr]

theorem isCommittedWithin_onClose (h : fs.isDirectory path = false)
    (hr : engine.getCommitRule path = capioFileCommittedOnClose) :
    isCommittedWithin env engine fs (depth + 1) path =
      some (fs.fileExists (metadataToken env path) &&
        (decide (engine.getCommitCloseCount path = -1) || decide (engine.getCommitCloseCount path ≤
          tokenCount fs (metadataToken env path)))) := by
  have hne : ¬ engine.getCommitRule path = capioFileCommittedOnFile := by
    rw [hr]
    decide
  rw [isCommittedWithin]
  split
  · rename_i hn
    exact absurd hn (node_ne_directory h _)
  · rw [if_neg hne, if_pos hr]
    split_ifs with htoken hcount
    · simp [htoken, hcount]
    · simp [htoken, not_not.mp hcount]
    · simp [Bool.eq_false_iff.mpr htoken]

theorem committedWithin_onClose (h : fs.isDirectory path = false)
    (hr : engine.getCommitRule path = capioFileCommittedOnClose) :
    isCommittedWithin env engine fs (depth + 1) path = some true ↔
      fs.fileExists (metadataToken env path) = true ∧
        (engine.getCommitCloseCount path = -1 ∨ engine.getCommitCloseCount path ≤
          tokenCount fs (metadataToken env path)) := by
  rw [isCommittedWithin_onClose h hr]
  simp only [Option.some.injEq, Bool.and_eq_true, Bool.or_eq_true, decide_eq_true_eq]

theorem isCommittedWithin_other (h : fs.isDirectory path = false)
    (hf : engine.getCommitRule path ≠ capioFileCommittedOnFile)
    (hc : engine.getCommitRule path ≠ capioFileCommittedOnClose) :
    isCommittedWithin env engine fs (depth + 1) path =
      some (fs.fileExists (metadataToken env path)) := by
  rw [isCommittedWithin]
  split
  · rename_i hn
    exact absurd hn (node_ne_directory h _)
  · rw [if_neg hf, if_neg hc]

/-- The conjunction over the dependencies ends at the first that is not committed. -/
theorem foldlM_committed (commits : CString → Option Bool) (files : List CString) :
    files.foldlM (fun committed file => if committed then commits file else some false) true = some true ↔
      ∀ file ∈ files, commits file = some true :=
  allInOrder_eq_true_iff files

end Capio.Server
