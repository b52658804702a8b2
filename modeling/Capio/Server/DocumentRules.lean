import Capio.Server.CommitEvaluation
import Capio.Server.CommitRecursion
import Capio.Server.ConfigEntries
import Capio.Server.DependencyOrder
import Capio.Server.ProducerRoles
import Capio.Server.WaitingTables

/-! The location table while the server runs: it goes on as the parser began, and the document
decides the rules to the end. -/
namespace Capio.Server.System
open Library CapioCLEngine Metadata

/-- What a step writes to the table: the file that an application has announced. -/
def tableUpdates (x : Transition System Event) : List Update :=
  match x.source.callOf x.label.action with
  | some (.addProducer path tid) =>
    ((x.source.server.clientManager.getAppName tid).elim [] fun appName => [.create path, .producer path appName])
  | _ => []

def announcements (ts : Trace) : List Update := ts.flatMap tableUpdates

variable {env : Env} {engine engine' : CapioCLEngine} {document : Workflow} {fs : FileSystem} {ts : Trace} {s : System}
  {us : List Update} {path appName : CString}

/-- `addProducer` makes two updates of the parser. -/
theorem addProducer_updates (h : engine.addProducer path appName = some engine') :
    ∃ made, Update.run engine (.create path) = .ok made ∧ Update.run made (.producer path appName) = .ok engine' := by
  obtain ⟨made, hmade, h⟩ := Option.bind_eq_some_iff.mp h
  refine ⟨made, orThrow_eq_ok_iff.mpr hmade, ?_⟩
  unfold Update.run CapioCLEngine.update
  dsimp only
  cases hl : made.locations.lookup path with
  | none =>
    rw [hl] at h
    exact congrArg Except.ok (Option.some.inj h)
  | some l =>
    rw [hl] at h
    dsimp only
    have hwrite : Update.write path (.producer path appName) l =
        { l with producers := l.producers ++ [withoutSpaces appName] } := if_pos rfl
    rw [← Option.some.inj h, hwrite]
    rfl

/-- A step announces a file, or leaves the table alone. -/
theorem table_cases {e : Event} {t : System} (h : Step s e t) :
    (∃ path appName, tableUpdates ⟨s, e, t⟩ = [.create path, .producer path appName] ∧
      s.server.clEngine.addProducer path appName = some t.server.clEngine) ∨
    tableUpdates ⟨s, e, t⟩ = [] ∧ t.server.clEngine = s.server.clEngine := by
  unfold tableUpdates
  dsimp only
  rcases step_cases h with ⟨c, hc, hrun⟩ | ⟨hc, hsame, _⟩
  · rw [hc]
    cases c with
    | addProducer path tid =>
      obtain ⟨server, hadd, he⟩ := Option.bind_eq_some_iff.mp hrun
      obtain ⟨appName, hname, hadd⟩ := Option.bind_eq_some_iff.mp hadd
      obtain ⟨engine', hengine, hserver⟩ := Option.bind_eq_some_iff.mp hadd
      cases hserver
      refine .inl ⟨path, appName, ?_, ?_⟩
      · dsimp only
        rw [hname]
        rfl
      · rw [hengine, ← (Prod.mk.inj (Option.some.inj he)).1]
    | _ => exact .inr ⟨rfl, (Call.run_frame hrun).locations rfl⟩
  · rw [hc, hsame]
    exact .inr ⟨rfl, rfl⟩

theorem announcements_snoc (ts : Trace) (x : Transition System Event) :
    announcements (ts ++ [x]) = announcements ts ++ tableUpdates x := by
  rw [announcements, List.flatMap_append, List.flatMap_singleton]
  rfl

/-- At every moment of a run, the table is one that the updates of the document and the announcements
so far lead to. -/
theorem table_run (hus : RunsTo us engine) (h : Run Step (boot env engine fs) ts s) :
    RunsTo (us ++ announcements ts) s.server.clEngine := by
  induction h with
  | nil =>
    rw [announcements, List.flatMap_nil, List.append_nil]
    exact hus
  | snoc _ hstep ih =>
    rw [announcements_snoc, ← List.append_assoc]
    rcases table_cases hstep with ⟨path, appName, hupdates, hadd⟩ | ⟨hnone, hsame⟩
    · obtain ⟨made, hcreate, hproducer⟩ := addProducer_updates hadd
      have htwo := (ih.step (List.Perm.refl _) hcreate).step (List.Perm.refl _) hproducer
      rw [hupdates]
      rwa [List.append_assoc] at htwo
    · rw [hnone, List.append_nil, hsame]
      exact ih

/-- The announcements write no rules and no stop. -/
theorem announcement_kind {u : Update} (hu : u ∈ announcements ts) :
    u.written = none ∧ ∃ path, u = .create path ∨ ∃ appName, u = .producer path appName := by
  obtain ⟨x, _, hu⟩ := List.mem_flatMap.mp hu
  unfold tableUpdates at hu
  split at hu
  · rename_i path tid _
    cases hname : x.source.server.clientManager.getAppName tid with
    | none =>
      rw [hname] at hu
      cases hu
    | some appName =>
      rw [hname] at hu
      rcases List.mem_pair.mp hu with rfl | rfl
      · exact ⟨rfl, path, .inl rfl⟩
      · exact ⟨rfl, path, .inr ⟨appName, rfl⟩⟩
  · cases hu

theorem written_announcements (ts : Trace) : (us ++ announcements ts).filterMap Update.written = us.filterMap Update.written := by
  rw [List.filterMap_append]
  have hnone : (announcements ts).filterMap Update.written = [] :=
    List.filterMap_eq_nil_iff.mpr fun u hu => (announcement_kind hu).1
  rw [hnone, List.append_nil]

/-- An entry stays, and keeps its rules. -/
theorem rules_kept (h : Run Step (boot env engine fs) ts s) {l : Location} (hl : engine.locations.lookup path = some l) :
    ∃ l', s.server.clEngine.locations.lookup path = some l' ∧ l'.SameRules l := by
  induction h with
  | nil => exact ⟨l, hl, .refl l⟩
  | snoc _ hstep ih =>
    obtain ⟨l', hl', hrules⟩ := ih
    rcases table_cases hstep with ⟨p, appName, _, hadd⟩ | ⟨_, hsame⟩
    · obtain ⟨made, hcreate, hproducer⟩ := addProducer_updates hadd
      have hmade := (Update.run_effect hcreate).kept path l' hl'
      refine ⟨_, (Update.run_effect hproducer).kept path _ hmade, ?_⟩
      have hcreates : (Update.write path (.create p) l').SameRules l' := Update.write_rules (by simp) l'
      have hproduces (l : Location) : (Update.write path (.producer p appName) l).SameRules l :=
        Update.write_rules (by simp) l
      exact ((hproduces _).trans hcreates).trans hrules
    · rw [hsame]
      exact ⟨l', hl', hrules⟩

/-- The producers of a path are those of the document and who has announced it since. -/
theorem producers_run (h : Run Step (boot env engine fs) ts s) (path : CString) :
    s.server.clEngine.ownProducers path =
      engine.ownProducers path ++ (announcements ts).filterMap (Update.producerFor path) := by
  induction h with
  | nil => exact (List.append_nil _).symm
  | snoc _ hstep ih =>
    rw [announcements_snoc, List.filterMap_append, ← List.append_assoc, ← ih]
    rcases table_cases hstep with ⟨p, appName, hupdates, hadd⟩ | ⟨hnone, hsame⟩
    · obtain ⟨engine', location, hadd', hlookup, hproducers, hothers⟩ := addProducer_writes appName
        (fun hmem hglob => by rw [addProducer_throws hmem hglob] at hadd; cases hadd)
      obtain rfl := Option.some.inj (hadd'.symm.trans hadd)
      rw [hupdates]
      by_cases hp : p = path
      · subst hp
        have hadds : [Update.create p, .producer p appName].filterMap (Update.producerFor p) = [withoutSpaces appName] := by
          simp [List.filterMap_cons, Update.producerFor]
        rw [ownProducers, hlookup, Option.elim_some, hproducers, hadds]
      · have hnone : [Update.create p, .producer p appName].filterMap (Update.producerFor path) = [] := by
          simp [List.filterMap_cons, Update.producerFor, hp]
        rw [hnone, List.append_nil, ownProducers, hothers path (Ne.symm hp), ownProducers]
    · rw [hnone, hsame]
      exact (List.append_nil _).symm

theorem inheritsAt_congr {before before' : List Update} {inherited : CString × CString}
    (h : before'.filterMap Update.written = before.filterMap Update.written) (hi : InheritsAt before' path inherited) :
    InheritsAt before path inherited := by
  have hoffers {directory : CString} {rules : StreamingRules} :
      Offers before' path directory rules ↔ Offers before path directory rules := by
    constructor
    · exact fun ⟨haccepted, hlast, hdir⟩ => ⟨haccepted, h ▸ hlast, hdir⟩
    · exact fun ⟨haccepted, hlast, hdir⟩ => ⟨haccepted, h.symm ▸ hlast, hdir⟩
  cases hi with
  | directory hoffer hlongest =>
    exact .directory (hoffers.mp hoffer) fun other rules' hother => hlongest other rules' (hoffers.mpr hother)
  | default hnone => exact .default fun directory rules hoffer => hnone directory rules (hoffers.mpr hoffer)

/-- A file that the document does not name gets rules that the document offers it, whenever it is
announced and whatever has been announced before. -/
theorem inherits_run (hus : RunsTo us engine) (h : Run Step (boot env engine fs) ts s) {l : Location}
    (hnot : path ∉ named us) (hl : s.server.clEngine.locations.lookup path = some l) :
    InheritsAt us path (l.commitRule, l.fireRule) := by
  have htable := table_run hus h
  have hmem : path ∈ named (us ++ announcements ts) := by
    rw [← htable.mem_iff, ← AList.lookup_isSome, hl]
    rfl
  obtain ⟨before, after, heq, hfirst⟩ := exists_first_create hmem
  obtain ⟨inherited, hinherits, hentry⟩ := htable.entry heq hfirst
  obtain rfl := Option.some.inj (hentry.symm.trans hl)
  -- the entry is made behind the updates of the document
  obtain ⟨pre, hbefore, hrest⟩ : ∃ pre, before = us ++ pre ∧ announcements ts = pre ++ .create path :: after := by
    rcases List.append_eq_append_iff.mp heq with ⟨pre, hbefore, hrest⟩ | ⟨rest, hus', hrest⟩
    · exact ⟨pre, hbefore, hrest⟩
    · cases rest with
      | nil =>
        rw [List.append_nil] at hus'
        exact ⟨[], by rw [hus', List.append_nil], hrest.symm⟩
      | cons u rest =>
        obtain ⟨rfl, _⟩ := List.cons.inj hrest
        refine absurd (mem_named_iff.mpr ?_) hnot
        rw [hus']
        exact List.mem_append_right _ List.mem_cons_self
  have hquiet (u : Update) (hu : u ∈ pre ++ .create path :: after) : u.written = none :=
    (announcement_kind (hrest ▸ hu)).1
  have hplain : ∀ rules, .streaming path rules ∉ after := by
    intro rules hmem
    cases hquiet _ (List.mem_append_right _ (List.mem_cons_of_mem _ hmem))
  have hrules := writeAll_plain hplain (freshLocation (0, inherited))
  rw [hrules.commitRule, hrules.fireRule]
  refine inheritsAt_congr ?_ hinherits
  rw [hbefore, List.filterMap_append]
  have hnone : pre.filterMap Update.written = [] :=
    List.filterMap_eq_nil_iff.mpr fun u hu => hquiet u (List.mem_append_left _ hu)
  rw [hnone, List.append_nil]

/-! ### What commits on what -/

/-- Only streaming entries make a path commit on others. -/
theorem commitsOn_iff_written (h : RunsTo us engine) (path dependency : CString) :
    engine.CommitsOn path dependency ↔ ∃ rules, lastRules path (us.filterMap Update.written) = some rules ∧
      rules.commitRule = capioFileCommittedOnFile ∧ dependency ∈ rules.fileDeps := by
  constructor
  · rintro ⟨hrule, hdep⟩
    cases hl : engine.locations.lookup path with
    | none => simp [getFileDeps, hl] at hdep
    | some l =>
      simp only [getCommitRule, getFileDeps, hl] at hrule hdep
      obtain ⟨rules, hlast⟩ := h.exists_lastRules (fun l => dependency ∈ l.fileDependencies)
        (fun _ => List.not_mem_nil) (fun l l' hsame hq => hsame.fileDependencies ▸ hq) hl hdep
      have hhas := holds_of_lookup hl (h.has path rules hlast)
      exact ⟨rules, hlast, hhas.commitRule ▸ hrule, hhas.fileDependencies ▸ hdep⟩
  · rintro ⟨rules, hlast, hrule, hdep⟩
    obtain ⟨l, hl, hhas⟩ := h.has path rules hlast
    rw [CommitsOn, getCommitRule, getFileDeps, hl]
    dsimp only
    rw [hhas.commitRule, hhas.fileDependencies]
    exact ⟨hrule, hdep⟩

/-- What a document lets a path commit on, it names. -/
theorem dependency_named {rules : StreamingRules} {dependency : CString}
    (h : .streaming path rules ∈ updates env document) (hdep : dependency ∈ rules.fileDeps) :
    dependency ∈ named (updates env document) := by
  have hkeeps (app : App) : .streaming path rules ∈ appUpdates env app → .create dependency ∈ appUpdates env app := by
    apply appUpdates_keeps (fun us => .streaming path rules ∈ us → .create dependency ∈ us)
    case hnil => simp
    case happend =>
      intro us us' hus hus' hmem
      exact List.mem_append.mpr ((List.mem_append.mp hmem).imp hus hus')
    case hhalt => simp
    case hinput => simp [inputUpdates]
    case houtput => simp [outputUpdates]
    case hentry =>
      intro entry hmem
      unfold entryUpdates at hmem ⊢
      cases hread : readEntry env entry with
      | error stop =>
        rw [hread] at hmem
        cases List.mem_singleton.mp hmem
      | ok read =>
        rw [hread] at hmem
        obtain ⟨p, hp, hmem⟩ := List.mem_flatMap.mp hmem
        refine List.mem_flatMap.mpr ⟨p, hp, ?_⟩
        rcases List.mem_cons.mp hmem with hsame | hmem
        · cases hsame
          exact List.mem_cons_of_mem _ (List.mem_map_of_mem hdep)
        · simp at hmem
  rw [mem_named_iff]
  unfold updates at h ⊢
  cases hname : document.name with
  | none => simp [hname] at h
  | some name =>
    simp only [hname, List.mem_cons, List.mem_append, List.mem_flatMap, List.mem_map, reduceCtorEq, and_false,
      exists_false, or_false, false_or] at h ⊢
    obtain ⟨app, happ, hmem⟩ := h
    exact .inr ⟨app, happ, hkeeps app hmem⟩

/-- What a path of the document commits on has an entry of the document. -/
theorem dependency_listed {dependency : CString} (hus : RunsTo (updates env document) engine)
    (h : engine.CommitsOn path dependency) : dependency ∈ engine.locations := by
  obtain ⟨rules, hlast, _, hdep⟩ := (commitsOn_iff_written hus path dependency).mp h
  obtain ⟨⟨p, r⟩, hw, rfl⟩ := Option.map_eq_some_iff.mp hlast
  obtain ⟨hwritten, hp⟩ := List.mem_filter.mp (List.mem_of_getLast? hw)
  obtain rfl : p = path := of_decide_eq_true hp
  exact (hus.mem_iff dependency).mpr (dependency_named (written_of_streaming.mp hwritten) hdep)

theorem getters_run (h : Run Step (boot env engine fs) ts s) (hmem : path ∈ engine.locations) :
    s.server.clEngine.getCommitRule path = engine.getCommitRule path ∧
      s.server.clEngine.getCommitCloseCount path = engine.getCommitCloseCount path ∧
      s.server.clEngine.getDirectoryFileCount path = engine.getDirectoryFileCount path ∧
      s.server.clEngine.getFileDeps path = engine.getFileDeps path := by
  obtain ⟨l, hl⟩ := Option.isSome_iff_exists.mp (AList.lookup_isSome.mpr hmem)
  obtain ⟨l', hl', hsame⟩ := rules_kept h hl
  simp only [getCommitRule, getCommitCloseCount, getDirectoryFileCount, getFileDeps, hl, hl']
  exact ⟨hsame.commitRule, hsame.commitOnCloseNumber, hsame.directoryFileCount, hsame.fileDependencies⟩

/-- Whether a file of the document is committed is a question to the document and the files alone: the
evaluation goes the same way in the table of the running server. -/
theorem committed_run (hus : RunsTo (updates env document) engine) (h : Run Step (boot env engine fs) ts s)
    (hmem : path ∈ engine.locations) (depth : Nat) (fs' : FileSystem) :
    Evaluation.isCommittedWithin env s.server.clEngine depth fs' path =
      Evaluation.isCommittedWithin env engine depth fs' path := by
  induction depth generalizing path fs' with
  | zero => rfl
  | succ depth ih =>
    obtain ⟨hrule, hclose, hcount, hdeps⟩ := getters_run h hmem
    cases hdir : fs'.isDirectory path with
    | true =>
      obtain ⟨entries, hn⟩ := FileSystem.isDirectory_iff.mp hdir
      rw [Evaluation.isCommittedWithin_directory hn, Evaluation.isCommittedWithin_directory hn, hcount]
    | false =>
      rw [Evaluation.isCommittedWithin_file hdir, Evaluation.isCommittedWithin_file hdir, hrule, hclose, hdeps]
      refine Option.bind_congr fun made _ => ?_
      split_ifs with hfile hclose'
      · refine allInTurn_congr fun s' dependency hdep => ih (dependency_listed hus ⟨hfile, hdep⟩) s'
      · rfl
      · rfl

/-! ### The document governs -/

/-- What the document says of every path, at one moment of a run. -/
structure Governs (env : Env) (document : Workflow) (engine : CapioCLEngine) (ts : Trace) (s : System) : Prop where
  streamed : ∀ path rules, lastRules path (streamed env document) = some rules →
    ∃ l, s.server.clEngine.locations.lookup path = some l ∧ l.Has rules
  kept : ∀ path l, engine.locations.lookup path = some l →
    ∃ l', s.server.clEngine.locations.lookup path = some l' ∧ l'.SameRules l
  inherits : ∀ path l, path ∉ named (updates env document) → s.server.clEngine.locations.lookup path = some l →
    InheritsAt (updates env document) path (l.commitRule, l.fireRule)
  producers : ∀ path, s.server.clEngine.ownProducers path =
    engine.ownProducers path ++ (announcements ts).filterMap (Update.producerFor path)
  committed : ∀ path, path ∈ named (updates env document) → ∀ depth fs,
    Evaluation.isCommittedWithin env s.server.clEngine depth fs path =
      Evaluation.isCommittedWithin env engine depth fs path

/-- In every run of a server that was started with an accepted document: the entries of the document keep
their rules; a file that it does not name has rules which it offers, whenever it was announced; the producers
of a path are those of the document and those that announced it; and for a file of the document, what is
announced does not change when it is committed. -/
theorem document_governs (env : Env) (document : Workflow) (engine : CapioCLEngine) (fs : FileSystem)
    (hparse : parse env (some document) = .ok engine) (h : Run Step (boot env engine fs) ts s) :
    Governs env document engine ts s := by
  rw [parse_eq_runUpdates] at hparse
  have hus := RunsTo.of_runScript hparse
  constructor
  case streamed =>
    intro path rules hlast
    rw [← written_updates env document hus.no_halt, ← written_announcements ts] at hlast
    exact (table_run hus h).has path rules hlast
  case kept => exact fun path l hl => rules_kept h hl
  case inherits => exact fun path l hnot hl => inherits_run hus h hnot hl
  case producers => exact producers_run h
  case committed => exact fun path hmem => committed_run hus h ((hus.mem_iff path).mpr hmem)

/-- An application announces a file of its own and one of the document. -/
def announcesTwo : List Action :=
  [.request (.handshakeNamed 7 7 "other app".toList), .call, .request (.create 7 0 "/c/x".toList), .call, .call,
    .request (.create 7 0 "/c/a".toList), .call, .call]

theorem document_governs_announcesTwo : ∃ engine ts s,
    parse listingEnv (some (dependentOutput "b".toList)) = .ok engine ∧
    Run Step (boot listingEnv engine ⟨fun _ => none⟩) ts s ∧
    s.server.clEngine.ownProducers "/c/a".toList = ["app".toList, "otherapp".toList] ∧
    Governs listingEnv (dependentOutput "b".toList) engine ts s := by
  obtain ⟨engine, hok⟩ := exists_engine_of_isOk
    (by decide : (parse listingEnv (some (dependentOutput "b".toList))).toOption.isSome = true)
  obtain ⟨ts, s, hrun, _, hproducers⟩ := execute_any step
    (boot listingEnv ((parse listingEnv (some (dependentOutput "b".toList))).toOption.getD ⟨∅⟩) ⟨fun _ => none⟩) announcesTwo
    (fun _ s => s.server.clEngine.ownProducers "/c/a".toList == ["app".toList, "otherapp".toList]) (by decide)
  rw [hok] at hrun
  exact ⟨engine, ts, s, hok, hrun, beq_iff_eq.mp hproducers, document_governs _ _ engine _ hok hrun⟩

end Capio.Server.System
