import Capio.Server.EngineSetters

/-! `JsonParser::parse` on a workflow document whose sections have the JSON types the parser asks
for. A field that the parser accepts as missing is an `Option`. -/
namespace Capio.Server
open Library

/-- One object of a `streaming` array. `nFiles` is there when it is a 64-bit integer. -/
structure StreamingEntry where
  name : Option (List CString)
  dirname : Option (List CString)
  committed : Option CString
  fileDeps : Option (List CString)
  mode : Option CString
  nFiles : Option Int

structure App where
  name : Option CString
  inputStream : Option (List CString)
  outputStream : Option (List CString)
  streaming : Option (List StreamingEntry)

structure Workflow where
  name : Option CString
  ioGraph : List App
  permanent : Option (List CString)
  exclude : Option (List CString)

/-- How `parse` ends without an engine. -/
inductive Stop where
  | errExit (message : CString)
  /-- An exception that nothing catches. -/
  | thrown

def orThrow {α : Type} : Option α → Except Stop α
  | some a => .ok a
  | none => .error .thrown

/-- A string read through `c_str()` or `data()` ends at its first NUL. -/
def cStr (s : CString) : CString := s.takeWhile (· ≠ '\x00')

theorem cStr_eq_self {s : CString} (h : '\x00' ∉ s) : cStr s = s := by
  rw [cStr, List.takeWhile_eq_self_iff]
  intro c hc
  exact decide_eq_true fun heq => h (heq ▸ hc)

/-- Value and rest of the text, without a value when there is no digit. -/
def strtol (s : CString) : Option (Int × CString) := scanNumeral ((cStr s).dropWhile isSpace)

def isInt (s : CString) : Bool :=
  if s = [] then false
  else match strtol s with
    | some (_, rest) => rest = []
    | none => cStr s = []

/-- Throws `invalid_argument` without a digit and `out_of_range` past 64 bits. -/
def stol (s : CString) : Option Int :=
  match strtol s with
  | some (n, _) => if -0x8000000000000000 ≤ n ∧ n < 0x8000000000000000 then some n else none
  | none => none

/-- `file.is_relative() || first_is_subpath_of_second(file, get_capio_dir())` -/
def takes (env : Env) (file : CString) : Bool :=
  !StdPath.isAbsolute file || firstIsSubpathOfSecond file env.capioDir

theorem takes_of_relative {env : Env} {file : CString} (h : StdPath.isAbsolute file = false) :
    takes env file = true := by
  simp [takes, h]

/-- A relative name is put under `CAPIO_DIR` as it is spelled. -/
def underCapioDir (env : Env) (file : CString) : CString :=
  if StdPath.isAbsolute file then file else StdPath.append env.capioDir file

/-- A relative name is put under `CAPIO_DIR` and normalised. -/
def normalUnderCapioDir (env : Env) (file : CString) : CString :=
  if StdPath.isAbsolute file then file
  else StdPath.lexicallyNormal (StdPath.append env.capioDir file)

def parseInputStream (env : Env) (appName : CString) (engine : CapioCLEngine)
    (inputStream : List CString) : Except Stop CapioCLEngine :=
  inputStream.foldlM (fun engine file =>
    if takes env file then do
      let engine ← orThrow (engine.newFile (cStr (underCapioDir env file)))
      .ok (engine.addConsumer (underCapioDir env file) appName)
    else .ok engine) engine

def parseOutputStream (env : Env) (appName : CString) (engine : CapioCLEngine)
    (outputStream : List CString) : Except Stop CapioCLEngine :=
  outputStream.foldlM (fun engine file =>
    if takes env file then do
      let engine ← orThrow (engine.newFile (underCapioDir env file))
      orThrow (engine.addProducer (underCapioDir env file) appName)
    else .ok engine) engine

/-- An array that is missing and an empty one are the same. -/
def nonEmpty (names : Option (List CString)) : Option (List CString) := names.filter (· ≠ [])

/-- The names of the entry and whether they are those of files. -/
def streamingNames (entry : StreamingEntry) : Except Stop (List CString × Bool) :=
  match nonEmpty entry.name, nonEmpty entry.dirname with
  | some names, _ => .ok (names, true)
  | none, some names => .ok (names, false)
  | none, none =>
    .error (.errExit "error: either name or dirname in streaming section is required".toList)

/-- The commit rule and the number after a colon, -1 without one. -/
def parseCommitted : Option CString → Except Stop (CString × Int)
  | none => .error (.errExit "error commit rule is mandatory in streaming section".toList)
  | some committed =>
    let commitRule := committed.takeWhile (· ≠ ':')
    match committed.dropWhile (· ≠ ':') with
    | [] => .ok (commitRule, -1)
    | _ :: nCloseStr =>
      if commitRule ≠ capioFileCommittedOnClose then
        .error (.errExit ("error commit rule: ".toList ++ commitRule))
      else if !isInt nCloseStr then
        .error (.errExit "error commit rule on_close invalid number: !is_int()".toList)
      else do
        let nClose ← orThrow (stol nCloseStr)
        .ok (commitRule, nClose)

def parseFileDeps (env : Env) (commitRule : CString) (fileDeps : Option (List CString)) :
    Except Stop (List CString) :=
  if commitRule = capioFileCommittedOnFile then
    match fileDeps with
    | none => .error (.errExit "commit rule is on_file but no file_deps section found".toList)
    | some names => .ok (names.map (underCapioDir env))
  else .ok []

/-- What an entry of the section sets for each of its names. -/
structure StreamingRules where
  isFile : Bool
  commitRule : CString
  fireRule : CString
  nClose : Int
  nFiles : Int
  fileDeps : List CString

/-- The names of an entry that the parser takes, as keys, and their rules. -/
def readEntry (env : Env) (entry : StreamingEntry) :
    Except Stop (List CString × StreamingRules) := do
  let (names, isFile) ← streamingNames entry
  let (commitRule, nClose) ← parseCommitted entry.committed
  let fileDeps ← parseFileDeps env commitRule entry.fileDeps
  .ok ((names.filter (takes env)).map (normalUnderCapioDir env),
    { isFile := isFile, commitRule := commitRule,
      fireRule := entry.mode.getD capioFileModeUpdate, nClose := nClose,
      nFiles := entry.nFiles.getD (-1), fileDeps := fileDeps })

def applyRules (engine : CapioCLEngine) (path : CString) (rules : StreamingRules) :
    Option CapioCLEngine :=
  let engine := if rules.nFiles ≠ -1 then engine.setDirectoryFileCount path rules.nFiles else engine
  let engine := if rules.isFile then engine.setFile path else engine.setDirectory path
  let engine := engine.setCommitRule path rules.commitRule
  let engine := engine.setFireRule path rules.fireRule
  let engine := engine.setCommitedNumber path rules.nClose
  engine.setFileDeps path rules.fileDeps

def parseStreaming (env : Env) (engine : CapioCLEngine) (streaming : List StreamingEntry) :
    Except Stop CapioCLEngine :=
  streaming.foldlM (fun engine entry => do
    let (paths, rules) ← readEntry env entry
    paths.foldlM (fun engine path => orThrow (applyRules engine path rules)) engine) engine

def parseApp (env : Env) (engine : CapioCLEngine) (app : App) : Except Stop CapioCLEngine :=
  match app.name with
  | none => .error (.errExit "Error: app name is mandatory".toList)
  | some appName =>
    match app.inputStream with
    | none => .error (.errExit ("No input_stream section found for app ".toList ++ appName))
    | some inputStream => do
      let engine ← parseInputStream env appName engine inputStream
      match app.outputStream with
      | none => .error (.errExit ("No output_stream section found for app ".toList ++ appName))
      | some outputStream => do
        let engine ← parseOutputStream env appName engine outputStream
        match app.streaming with
        | none => .ok engine
        | some streaming => parseStreaming env engine streaming

/-- The names of `permanent` and of `exclude`: the test reads the path under `CAPIO_DIR`, the
setter the name as it is spelled. `name.data()` is taken for a text that ends with the name, as it
does where the parser of the document has put a NUL behind it. -/
def parseFlags (env : Env) (setFlag : CapioCLEngine → CString → Bool → CapioCLEngine)
    (engine : CapioCLEngine) (names : List CString) : CapioCLEngine :=
  names.foldl (fun engine name =>
    if firstIsSubpathOfSecond (normalUnderCapioDir env name) env.capioDir then
      setFlag engine (cStr name) true
    else engine) engine

/-- `none` is the empty path of a server started without a configuration file. -/
def parse (env : Env) (source : Option Workflow) : Except Stop CapioCLEngine := do
  let engine ← orThrow (CapioCLEngine.newFile ⟨∅⟩ env.capioDir)
  match source with
  | none => .ok engine
  | some document =>
    match document.name with
    | none => .error (.errExit "Error: workflow name is mandatory".toList)
    | some _ => do
      let engine ← document.ioGraph.foldlM (parseApp env) engine
      let engine := parseFlags env CapioCLEngine.setPermanent engine (document.permanent.getD [])
      .ok (parseFlags env CapioCLEngine.setExclude engine (document.exclude.getD []))

end Capio.Server
