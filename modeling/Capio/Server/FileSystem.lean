import Capio.Common.StdPath
import Mathlib.Logic.Function.Basic

/-! The shared file system as the server observes it, and the metadata tokens
that the servers keep in it. -/
namespace Capio.Server

inductive Node where
  | file (content : CString)
  | directory (entries : List CString)
  deriving DecidableEq

structure FileSystem where
  node : CString → Option Node

namespace FileSystem

/-- `std::filesystem::exists`. -/
def fileExists (fs : FileSystem) (path : CString) : Bool := (fs.node path).isSome

/-- `std::filesystem::is_directory`. -/
def isDirectory (fs : FileSystem) (path : CString) : Bool :=
  match fs.node path with
  | some (.directory _) => true
  | _ => false

/-- `std::filesystem::file_size` throws on directories and missing files. -/
def fileSize (fs : FileSystem) (path : CString) : Option Nat :=
  match fs.node path with
  | some (.file content) => some content.length
  | _ => none

def set (fs : FileSystem) (path : CString) (n : Option Node) : FileSystem :=
  ⟨Function.update fs.node path n⟩

/-- `open` with `O_CREAT | O_EXCL`: an empty file appears unless the name is taken. -/
def createExclusive (fs : FileSystem) (path : CString) : FileSystem :=
  if fs.fileExists path then fs else fs.set path (some (.file []))

@[simp] theorem set_node (fs : FileSystem) (path q : CString) (n : Option Node) :
    (fs.set path n).node q = if q = path then n else fs.node q := by
  simp [set, Function.update_apply]

theorem isDirectory_iff {fs : FileSystem} {path : CString} :
    fs.isDirectory path = true ↔ ∃ entries, fs.node path = some (.directory entries) := by
  unfold isDirectory
  constructor
  · intro h
    split at h
    · rename_i entries hn
      exact ⟨entries, hn⟩
    · cases h
  · rintro ⟨entries, hn⟩
    rw [hn]

theorem createExclusive_node (fs : FileSystem) (path q : CString) :
    (fs.createExclusive path).node q =
      if q = path then some ((fs.node path).getD (.file [])) else fs.node q := by
  cases hn : fs.node path with
  | none => simp [createExclusive, fileExists, hn]
  | some n =>
    by_cases hq : q = path
    · simp [createExclusive, fileExists, hn, hq]
    · simp [createExclusive, fileExists, hn, hq]

theorem createExclusive_exists (fs : FileSystem) (path q : CString) :
    (fs.createExclusive path).fileExists q = (q = path || fs.fileExists q) := by
  by_cases hq : q = path <;> simp [fileExists, createExclusive_node, hq]

theorem isDirectory_congr {fs fs' : FileSystem} {path : CString} (h : fs.node path = fs'.node path) :
    fs.isDirectory path = fs'.isDirectory path := by
  rw [isDirectory, isDirectory, h]

end FileSystem

/-- The settings the server reads from its environment. `capioDir` is the real
path of `CAPIO_DIR`. -/
structure Env where
  capioDir : CString
  capioMetadataDir : Option CString

/-- With `CAPIO_METADATA_DIR` set the static path is left empty. -/
def getCapioMetadataPath (env : Env) : CString :=
  match env.capioMetadataDir with
  | none => StdPath.append env.capioDir ".capio_metadata".toList
  | some _ => []

/-- `std::string::find`. -/
def findSub (pattern : CString) : CString → Option Nat
  | [] => if pattern = [] then some 0 else none
  | c :: text =>
    if pattern.isPrefixOf (c :: text) then some 0 else (findSub pattern text).map (· + 1)

/-- The name of a path's token. `npos + 1` wraps to 0. -/
def metadataToken (env : Env) (path : CString) : CString :=
  let start := match findSub env.capioDir path with
    | some i => i + 1
    | none => 0
  StdPath.append (getCapioMetadataPath env) (path.drop start ++ ".capio".toList)

/-- The name that `getAndCreateMetadataPath` returns where nothing is in the way of the directories
above it. On the empty path, which exists nowhere, `create_directories` throws. -/
def createMetadataPath (env : Env) (path : CString) : Option CString :=
  if getCapioMetadataPath env = [] then none else some (metadataToken env path)

/-- `std::filesystem::path::extension` of a directory entry. -/
def extension (name : CString) : CString :=
  if name = StdPath.dot ∨ name = StdPath.dotdot then []
  else match name.reverse.span (· ≠ '.') with
    | (_, []) => []
    | (_, [_]) => []
    | (ext, _ :: _) => '.' :: ext.reverse

/-- Directory entries other than tokens. -/
def countEntries (entries : List CString) : Nat :=
  (entries.filter (fun name => extension name ≠ ".capio".toList)).length

end Capio.Server
