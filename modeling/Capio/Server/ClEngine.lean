import Capio.Server.ClientManager
import Capio.Server.FileSystem

/-! `CapioCLEngine`: the location table of the workflow and the rules read from
it. Functions that can throw return `none` when they do. -/
namespace Capio.Server
open Library

/-- One row of `_locations`, in the order of the source's tuple. -/
structure Location where
  producers : List CString
  consumers : List CString
  commitRule : CString
  fireRule : CString
  permanent : Bool
  exclude : Bool
  isFile : Bool
  commitOnCloseNumber : Int
  directoryFileCount : Int
  fileDependencies : List CString

def firstIsSubpathOfSecond (path base : CString) : Bool :=
  (StdPath.mismatch (StdPath.components path) (StdPath.components base)).2 = []

/-- The loop of `match_globs` on the two suffixes not yet compared. -/
def matchGlobsLoop (glob toMatch : CString) : CString → CString → Option Bool
  | [], _ => some true
  | _, [] => some true
  | g :: gs, t :: ts =>
    if g = '*' then
      if glob.getLast? = some '*' then some true
      else
        let globEnd := (glob.dropWhile (· ≠ '*')).drop 1
        -- the position is an unsigned difference and `compare` rejects it past the end
        if toMatch.length < globEnd.length then none
        else some (toMatch.drop (toMatch.length - globEnd.length) ≠ globEnd)
    else if g ≠ '?' ∧ g ≠ t then some false
    else matchGlobsLoop glob toMatch gs ts

def matchGlobs (glob toMatch : CString) : Option Bool :=
  if glob = [] then some false else matchGlobsLoop glob toMatch glob toMatch

structure CapioCLEngine where
  locations : UnorderedMap CString Location

namespace CapioCLEngine

def fileToBeHandled (env : Env) (path : CString) : Bool :=
  if StdPath.same path env.capioDir then false
  else env.capioDir.isPrefixOf (StdPath.parentPath path)

def getCommitRule (engine : CapioCLEngine) (path : CString) : CString :=
  match engine.locations.lookup path with
  | some location => location.commitRule
  | none => capioFileCommittedOnTermination

def getFireRule (engine : CapioCLEngine) (path : CString) : CString :=
  match engine.locations.lookup path with
  | some location => location.fireRule
  | none => capioFileModeUpdate

def isFile (engine : CapioCLEngine) (path : CString) : Bool :=
  match engine.locations.lookup path with
  | some location => location.isFile
  | none => false

def isDirectory (engine : CapioCLEngine) (path : CString) : Bool := !engine.isFile path

def getDirectoryFileCount (engine : CapioCLEngine) (path : CString) : Int :=
  match engine.locations.lookup path with
  | some location => location.directoryFileCount
  | none => 0

def getCommitCloseCount (engine : CapioCLEngine) (path : CString) : Int :=
  match engine.locations.lookup path with
  | some location => location.commitOnCloseNumber
  | none => 0

def getFileDeps (engine : CapioCLEngine) (path : CString) : List CString :=
  match engine.locations.lookup path with
  | some location => location.fileDependencies
  | none => []

/-- One turn of the longest-match loop of `newFile`: match size, commit rule and
fire rule found so far. -/
def inheritStep (engine : CapioCLEngine) (path : CString) (best : Nat × CString × CString)
    (filename : CString) : Option (Nat × CString × CString) := do
  let isMatch ← matchGlobs filename path
  if isMatch ∧ engine.isDirectory filename ∧ best.1 < filename.length then
    some (filename.length, engine.getCommitRule filename, engine.getFireRule filename)
  else some best

def newFile (engine : CapioCLEngine) (path : CString) : Option CapioCLEngine :=
  if path ∈ engine.locations then some engine
  else do
    let (_, commit, fire) ← engine.locations.keys.foldlM (inheritStep engine path)
      (0, capioFileCommittedOnTermination, capioFileModeUpdate)
    some ⟨UnorderedMap.emplace engine.locations path
      { producers := [], consumers := [], commitRule := commit, fireRule := fire, permanent := false,
        exclude := false, isFile := true, commitOnCloseNumber := -1, directoryFileCount := -1,
        fileDependencies := [] }⟩

def addProducer (engine : CapioCLEngine) (path producer : CString) : Option CapioCLEngine := do
  let name := producer.filter (fun c => !isSpace c)
  let engine ← engine.newFile path
  match engine.locations.lookup path with
  | some location =>
    some ⟨engine.locations.insert path { location with producers := location.producers ++ [name] }⟩
  | none => some engine

/-- The loop over `_locations` that returns at the first entry matching the path. -/
def globProducer (path appName : CString) : List (Σ _ : CString, Location) → Option Bool
  | [] => some false
  | entry :: entries => do
    if ← matchGlobs entry.1 path then some (entry.2.producers.contains appName)
    else globProducer path appName entries

def isProducer (engine : CapioCLEngine) (clients : ClientManager) (path : CString) (pid : Tid) :
    Option Bool := do
  let appName ← clients.getAppName pid
  match engine.locations.lookup path with
  | some location => some (location.producers.contains appName)
  | none => globProducer path appName engine.locations.entries

end CapioCLEngine
end Capio.Server
