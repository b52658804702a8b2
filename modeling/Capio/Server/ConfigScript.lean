import Capio.Library.Script
import Capio.Server.JsonParser

/-! The updates of the location table that a workflow document asks for, in the order in which
the parser makes them. -/
namespace Capio.Server
open Library CapioCLEngine

inductive Update where
  | create (path : CString)
  | consumer (path appName : CString)
  | producer (path appName : CString)
  | streaming (path : CString) (rules : StreamingRules)
  | permanent (path : CString)
  | exclude (path : CString)
  | halt (stop : Stop)

def StreamingRules.assign (rules : StreamingRules) (l : Location) : Location :=
  { l with
    isFile := rules.isFile, commitRule := rules.commitRule, fireRule := rules.fireRule
    commitOnCloseNumber := rules.nClose.bmod 0x100000000
    directoryFileCount := if rules.nFiles ≠ -1 then rules.nFiles else l.directoryFileCount
    fileDependencies := rules.fileDeps }

/-- What an update writes to the entry of a path. -/
def Update.write (path : CString) : Update → Location → Location
  | .consumer p appName, l =>
    if p = path then { l with consumers := l.consumers ++ [withoutSpaces appName] } else l
  | .producer p appName, l =>
    if p = path then { l with producers := l.producers ++ [withoutSpaces appName] } else l
  | .streaming p rules, l => if p = path then rules.assign l else l
  | .permanent p, l => if p = path then { l with permanent := true } else l
  | .exclude p, l => if p = path then { l with exclude := true } else l
  | _, l => l

def Update.run (engine : CapioCLEngine) (u : Update) : Except Stop CapioCLEngine :=
  match u with
  | .create path => orThrow (engine.newFile path)
  | .streaming path _ =>
    if path ∈ engine.locations then .ok (engine.update path (u.write path)) else .error .thrown
  | .halt stop => .error stop
  | .consumer path _ => .ok (engine.update path (u.write path))
  | .producer path _ => .ok (engine.update path (u.write path))
  | .permanent path => .ok (engine.update path (u.write path))
  | .exclude path => .ok (engine.update path (u.write path))

/-! ### The updates of each section -/

def inputUpdates (env : Env) (appName : CString) (inputStream : List CString) : List Update :=
  (inputStream.filter (takes env)).flatMap (fun file =>
    [.create (cStr (underCapioDir env file)), .consumer (underCapioDir env file) appName])

def outputUpdates (env : Env) (appName : CString) (outputStream : List CString) : List Update :=
  (outputStream.filter (takes env)).flatMap (fun file =>
    [.create (underCapioDir env file), .producer (underCapioDir env file) appName])

def rulesUpdates (rules : StreamingRules) (path : CString) : List Update :=
  .streaming path rules :: rules.fileDeps.map .create

def entryUpdates (env : Env) (entry : StreamingEntry) : List Update :=
  match readEntry env entry with
  | .error stop => [.halt stop]
  | .ok (paths, rules) => paths.flatMap (rulesUpdates rules)

def appUpdates (env : Env) (app : App) : List Update :=
  match app.name with
  | none => [.halt (.errExit "Error: app name is mandatory".toList)]
  | some appName =>
    match app.inputStream with
    | none => [.halt (.errExit ("No input_stream section found for app ".toList ++ appName))]
    | some inputStream =>
      inputUpdates env appName inputStream ++
      match app.outputStream with
      | none => [.halt (.errExit ("No output_stream section found for app ".toList ++ appName))]
      | some outputStream =>
        outputUpdates env appName outputStream ++
          (app.streaming.getD []).flatMap (entryUpdates env)

/-- The flags that `permanent` or `exclude` sets: the names whose normal form is in `CAPIO_DIR`,
as they are spelled. -/
def flagKeys (env : Env) (names : Option (List CString)) : List CString :=
  ((names.getD []).filter (fun name =>
    firstIsSubpathOfSecond (normalUnderCapioDir env name) env.capioDir)).map cStr

def updates (env : Env) (document : Workflow) : List Update :=
  .create env.capioDir ::
    match document.name with
    | none => [.halt (.errExit "Error: workflow name is mandatory".toList)]
    | some _ => document.ioGraph.flatMap (appUpdates env) ++
      ((flagKeys env document.permanent).map .permanent ++
        (flagKeys env document.exclude).map .exclude)

/-- An application without a failing check has all its sections. -/
theorem appUpdates_of_no_halt {env : Env} {app : App}
    (h : ∀ stop, .halt stop ∉ appUpdates env app) : ∃ appName inputStream outputStream,
      app.name = some appName ∧ app.inputStream = some inputStream ∧
      app.outputStream = some outputStream ∧
      appUpdates env app = inputUpdates env appName inputStream ++
        (outputUpdates env appName outputStream ++
          (app.streaming.getD []).flatMap (entryUpdates env)) := by
  unfold appUpdates at h ⊢
  cases hname : app.name with
  | none =>
    rw [hname] at h
    exact absurd (List.mem_singleton.mpr rfl) (h _)
  | some appName =>
    cases hinput : app.inputStream with
    | none =>
      rw [hname, hinput] at h
      exact absurd (List.mem_singleton.mpr rfl) (h _)
    | some inputStream =>
      cases houtput : app.outputStream with
      | none =>
        rw [hname, hinput, houtput] at h
        exact absurd (List.mem_append_right _ (List.mem_singleton.mpr rfl)) (h _)
      | some outputStream => exact ⟨appName, inputStream, outputStream, rfl, rfl, rfl, rfl⟩

theorem updates_of_no_halt {env : Env} {document : Workflow}
    (h : ∀ stop, .halt stop ∉ updates env document) :
    updates env document = .create env.capioDir :: (document.ioGraph.flatMap (appUpdates env) ++
      ((flagKeys env document.permanent).map .permanent ++
        (flagKeys env document.exclude).map .exclude)) := by
  unfold updates at h ⊢
  cases hname : document.name with
  | none =>
    rw [hname] at h
    exact absurd (List.mem_cons_of_mem _ (List.mem_singleton.mpr rfl)) (h _)
  | some name => rfl

/-- What the updates of every section have, also put together, the updates of an application
have. -/
theorem appUpdates_keeps {env : Env} (P : List Update → Prop) (hnil : P [])
    (happend : ∀ us us', P us → P us' → P (us ++ us')) (hhalt : ∀ stop, P [.halt stop])
    (hinput : ∀ appName files, P (inputUpdates env appName files))
    (houtput : ∀ appName files, P (outputUpdates env appName files))
    (hentry : ∀ entry, P (entryUpdates env entry)) (app : App) : P (appUpdates env app) := by
  have hstreaming (entries : List StreamingEntry) : P (entries.flatMap (entryUpdates env)) := by
    induction entries with
    | nil => exact hnil
    | cons entry entries ih => exact happend _ _ (hentry entry) ih
  unfold appUpdates
  cases app.name with
  | none => exact hhalt _
  | some appName =>
    cases app.inputStream with
    | none => exact hhalt _
    | some inputStream =>
      apply happend _ _ (hinput appName inputStream)
      cases app.outputStream with
      | none => exact hhalt _
      | some outputStream => exact happend _ _ (houtput appName outputStream) (hstreaming _)

def Update.isFlag : Update → Bool
  | .permanent _ | .exclude _ => true
  | _ => false

private theorem isFlag_entryUpdates {env : Env} (entry : StreamingEntry) :
    ∀ u ∈ entryUpdates env entry, u.isFlag = false := by
  intro u hu
  unfold entryUpdates at hu
  cases hread : readEntry env entry with
  | error stop =>
    rw [hread] at hu
    rw [List.mem_singleton.mp hu]
    rfl
  | ok read =>
    rw [hread] at hu
    obtain ⟨path, _, hu⟩ := List.mem_flatMap.mp hu
    rcases List.mem_cons.mp hu with rfl | hu
    · rfl
    · obtain ⟨dependency, _, rfl⟩ := List.mem_map.mp hu
      rfl

theorem isFlag_appUpdates {env : Env} (app : App) : ∀ u ∈ appUpdates env app, u.isFlag = false := by
  apply appUpdates_keeps (fun us => ∀ u ∈ us, u.isFlag = false)
  case hnil => exact fun u hu => absurd hu List.not_mem_nil
  case happend => exact fun us us' h h' => List.forall_mem_append.mpr ⟨h, h'⟩
  case hhalt =>
    intro stop u hu
    rw [List.mem_singleton.mp hu]
    rfl
  case hinput =>
    intro appName files u hu
    obtain ⟨file, _, hu⟩ := List.mem_flatMap.mp hu
    rcases List.mem_pair.mp hu with rfl | rfl <;> rfl
  case houtput =>
    intro appName files u hu
    obtain ⟨file, _, hu⟩ := List.mem_flatMap.mp hu
    rcases List.mem_pair.mp hu with rfl | rfl <;> rfl
  case hentry => exact isFlag_entryUpdates

/-! ### The parser runs these updates -/

private theorem runUpdates_creates (paths : List CString) (engine : CapioCLEngine) :
    runScript Update.run (paths.map .create) engine = orThrow (paths.foldlM newFile engine) := by
  induction paths generalizing engine with
  | nil => rfl
  | cons path paths ih =>
    change orThrow (engine.newFile path) >>= runScript Update.run (paths.map .create) = _
    rw [List.foldlM_cons]
    cases engine.newFile path with
    | none => rfl
    | some engine' => exact ih engine'

theorem addConsumer_eq (engine : CapioCLEngine) (path consumer : CString) :
    engine.addConsumer path consumer =
      engine.update path (Update.write path (.consumer path consumer)) := by
  unfold addConsumer
  congr 1
  funext l
  simp [Update.write]

theorem parseInputStream_eq (env : Env) (appName : CString) (engine : CapioCLEngine)
    (inputStream : List CString) : parseInputStream env appName engine inputStream =
      runScript Update.run (inputUpdates env appName inputStream) engine := by
  unfold inputUpdates
  rw [runScript_flatMap, List.foldlM_filter]
  unfold parseInputStream
  congr 1
  funext engine file
  split_ifs
  · simp only [addConsumer_eq]
    rfl
  · rfl

/-- After `newFile` the path has an entry, so the second `newFile` changes nothing. -/
theorem addProducer_of_mem {engine : CapioCLEngine} {path : CString} (producer : CString)
    (h : path ∈ engine.locations) : engine.addProducer path producer =
      some (engine.update path (Update.write path (.producer path producer))) := by
  obtain ⟨location, hlookup⟩ := Option.isSome_iff_exists.mp (AList.lookup_isSome.mpr h)
  unfold addProducer
  rw [newFile_of_mem h]
  simp [hlookup, update, Update.write, withoutSpaces]

theorem parseOutputStream_eq (env : Env) (appName : CString) (engine : CapioCLEngine)
    (outputStream : List CString) : parseOutputStream env appName engine outputStream =
      runScript Update.run (outputUpdates env appName outputStream) engine := by
  unfold outputUpdates
  rw [runScript_flatMap, List.foldlM_filter]
  unfold parseOutputStream
  congr 1
  funext engine file
  split_ifs
  · change _ = orThrow (engine.newFile (underCapioDir env file)) >>= fun engine =>
      .ok (engine.update (underCapioDir env file)
        (Update.write (underCapioDir env file) (.producer (underCapioDir env file) appName)))
    cases h : engine.newFile (underCapioDir env file) with
    | none => rfl
    | some engine' =>
      have hmem := (newFile_spec h).1 (underCapioDir env file)
      change orThrow (engine'.addProducer (underCapioDir env file) appName) = _
      rw [addProducer_of_mem appName (hmem.mpr (.inl rfl))]
      rfl
  · rfl

/-- The guarded setters of an entry are one update. -/
private theorem applyRules_eq_setFileDeps (engine : CapioCLEngine) (path : CString)
    (rules : StreamingRules) : ∃ f : Location → Location,
      applyRules engine path rules = (engine.update path f).setFileDeps path rules.fileDeps ∧
        ∀ l, { f l with fileDependencies := rules.fileDeps } = rules.assign l := by
  unfold applyRules setDirectoryFileCount setFile setDirectory setCommitRule setFireRule
    setCommitedNumber StreamingRules.assign
  by_cases hcount : rules.nFiles ≠ -1
  · simp only [if_pos hcount]
    cases rules.isFile with
    | true =>
      simp only [if_true, update_update]
      exact ⟨_, rfl, fun l => rfl⟩
    | false =>
      simp only [Bool.false_eq_true, if_false, update_update]
      exact ⟨_, rfl, fun l => rfl⟩
  · simp only [if_neg hcount]
    cases rules.isFile with
    | true =>
      simp only [if_true, update_update]
      exact ⟨_, rfl, fun l => rfl⟩
    | false =>
      simp only [Bool.false_eq_true, if_false, update_update]
      exact ⟨_, rfl, fun l => rfl⟩

theorem applyRules_eq (engine : CapioCLEngine) (path : CString) (rules : StreamingRules) :
    orThrow (applyRules engine path rules) = runScript Update.run (rulesUpdates rules path) engine := by
  obtain ⟨f, happly, hassign⟩ := applyRules_eq_setFileDeps engine path rules
  have hwrite : Update.write path (.streaming path rules) = rules.assign := by
    funext l
    exact if_pos rfl
  have hrun : Update.run engine (.streaming path rules) =
      if path ∈ engine.locations then .ok (engine.update path rules.assign)
      else .error .thrown := by
    rw [← hwrite]
    rfl
  rw [happly]
  change _ = Update.run engine (.streaming path rules) >>=
    runScript Update.run (rules.fileDeps.map .create)
  unfold setFileDeps
  rw [lookup_update, if_pos rfl, hrun]
  cases hlookup : engine.locations.lookup path with
  | none =>
    rw [if_neg (AList.lookup_eq_none.mp hlookup)]
    rfl
  | some location =>
    have hmem : path ∈ engine.locations := by
      rw [← AList.lookup_isSome, hlookup]
      rfl
    rw [if_pos hmem]
    simp only [Option.map_some, update, hlookup, AList.insert_insert, hassign]
    exact (runUpdates_creates rules.fileDeps _).symm

theorem parseStreaming_eq (env : Env) (engine : CapioCLEngine) (streaming : List StreamingEntry) :
    parseStreaming env engine streaming =
      runScript Update.run (streaming.flatMap (entryUpdates env)) engine := by
  rw [runScript_flatMap]
  unfold parseStreaming
  congr 1
  funext engine entry
  unfold entryUpdates
  cases readEntry env entry with
  | error stop => rfl
  | ok read =>
    dsimp only
    rw [runScript_flatMap]
    simp only [← applyRules_eq]
    rfl

theorem parseApp_eq (env : Env) (engine : CapioCLEngine) (app : App) :
    parseApp env engine app = runScript Update.run (appUpdates env app) engine := by
  unfold parseApp appUpdates
  cases app.name with
  | none => rfl
  | some appName =>
    cases app.inputStream with
    | none => rfl
    | some inputStream =>
      dsimp only
      rw [runScript_append, ← parseInputStream_eq]
      cases parseInputStream env appName engine inputStream with
      | error stop => rfl
      | ok engine =>
        cases app.outputStream with
        | none => rfl
        | some outputStream =>
          dsimp only [bind, Except.bind]
          rw [runScript_append, ← parseOutputStream_eq]
          cases parseOutputStream env appName engine outputStream with
          | error stop => rfl
          | ok engine =>
            cases app.streaming with
            | none => rfl
            | some streaming => exact parseStreaming_eq env engine streaming

theorem parseFlags_eq (env : Env) (setFlag : CapioCLEngine → CString → Bool → CapioCLEngine)
    (flag : CString → Update)
    (hflag : ∀ engine path, Update.run engine (flag path) = .ok (setFlag engine path true))
    (engine : CapioCLEngine) (names : Option (List CString)) :
    .ok (parseFlags env setFlag engine (names.getD [])) =
      runScript Update.run ((flagKeys env names).map flag) engine := by
  unfold parseFlags flagKeys
  generalize names.getD [] = names
  induction names generalizing engine with
  | nil => rfl
  | cons name names ih =>
    rw [List.foldl_cons, ih]
    split_ifs with h
    · rw [List.filter_cons, if_pos h]
      change _ = Update.run engine (flag (cStr name)) >>= _
      rw [hflag]
      rfl
    · rw [List.filter_cons, if_neg h]

/-- The parser is a run of the document's updates. -/
theorem parse_eq_runUpdates (env : Env) (document : Workflow) :
    parse env (some document) = runScript Update.run (updates env document) ⟨∅⟩ := by
  have hpermanent : ∀ engine path,
      Update.run engine (.permanent path) = .ok (setPermanent engine path true) := by
    intro engine path
    simp only [Update.run, setPermanent]
    congr 2
    funext l
    exact if_pos rfl
  have hexclude : ∀ engine path,
      Update.run engine (.exclude path) = .ok (setExclude engine path true) := by
    intro engine path
    simp only [Update.run, setExclude]
    congr 2
    funext l
    exact if_pos rfl
  unfold parse updates
  change _ = orThrow (newFile ⟨∅⟩ env.capioDir) >>= runScript Update.run _
  congr 1
  funext engine
  dsimp only
  cases document.name with
  | none => rfl
  | some workflowName =>
    dsimp only
    rw [runScript_append, runScript_flatMap]
    simp only [← parseApp_eq]
    cases document.ioGraph.foldlM (parseApp env) engine with
    | error stop => rfl
    | ok engine =>
      dsimp only [bind, Except.bind]
      rw [runScript_append, ← parseFlags_eq env setPermanent .permanent hpermanent]
      exact parseFlags_eq env setExclude .exclude hexclude _ _

end Capio.Server
