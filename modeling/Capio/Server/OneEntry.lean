import Capio.Server.ParseSurvival

/-! One file, one entry: when the sections of a document that mention a relative file name all
reach the entry of its normal form. -/
namespace Capio.Server
open Library CapioCLEngine

/-- The path that a client in `CAPIO_DIR` sends for the name. -/
def fileKey (env : Env) (r : CString) : CString :=
  StdPath.lexicallyNormal (StdPath.append env.capioDir r)

/-- What the sections that mention the name write is in the entry. -/
structure SetAsWritten (env : Env) (document : Workflow) (r : CString) (l : Location) : Prop where
  consumers : ∀ app ∈ document.ioGraph, ∀ appName, app.name = some appName →
    r ∈ app.inputStream.getD [] → withoutSpaces appName ∈ l.consumers
  producers : ∀ app ∈ document.ioGraph, ∀ appName, app.name = some appName →
    r ∈ app.outputStream.getD [] → withoutSpaces appName ∈ l.producers
  rules : ∀ rules, lastRules (fileKey env r) (streamed env document) = some rules → l.Has rules
  permanent : r ∈ document.permanent.getD [] → l.permanent = true
  exclude : r ∈ document.exclude.getD [] → l.exclude = true

/-- The entry of the normal form has everything, and the spelling of the streams no other. -/
structure OneEntry (env : Env) (document : Workflow) (r : CString) (engine : CapioCLEngine) :
    Prop where
  applied : ∃ l, engine.locations.lookup (fileKey env r) = some l ∧ SetAsWritten env document r l
  single : underCapioDir env r ∈ engine.locations → underCapioDir env r = fileKey env r

def AppliedToOneEntry (env : Env) (document : Workflow) (r : CString) : Prop :=
  (∃ message, parse env (some document) = .error (.errExit message)) ∨
    ∃ engine, parse env (some document) = .ok engine ∧ OneEntry env document r engine

def InStreams (document : Workflow) (r : CString) : Prop :=
  ∃ app ∈ document.ioGraph, r ∈ app.inputStream.getD [] ∨ r ∈ app.outputStream.getD []

/-- `CAPIO_DIR/r` needs no normalisation, and a flag of `r` is also given to the full path. -/
structure NormallySpelled (env : Env) (document : Workflow) (r : CString) : Prop where
  streams : underCapioDir env r = fileKey env r
  permanent : r ∈ document.permanent.getD [] → fileKey env r ∈ flagKeys env document.permanent
  exclude : r ∈ document.exclude.getD [] → fileKey env r ∈ flagKeys env document.exclude

/-! ### What an update changes of an entry -/

/-- Applications are only added and flags only set. -/
structure Location.Extends (l l' : Location) : Prop where
  consumers : l.consumers ⊆ l'.consumers
  producers : l.producers ⊆ l'.producers
  permanent : l.permanent = true → l'.permanent = true
  exclude : l.exclude = true → l'.exclude = true

theorem Update.write_extends (u : Update) (path : CString) (l : Location) :
    l.Extends (u.write path l) := by
  apply Update.write_cases l.Extends u
  case same => exact ⟨fun _ h => h, fun _ h => h, id, id⟩
  case consumer => exact fun _ => ⟨List.subset_append_left _ _, fun _ h => h, id, id⟩
  case producer => exact fun _ => ⟨fun _ h => h, List.subset_append_left _ _, id, id⟩
  case streaming => exact fun _ _ => ⟨fun _ h => h, fun _ h => h, id, id⟩
  case permanent => exact fun _ => ⟨fun _ h => h, fun _ h => h, fun _ => rfl, id⟩
  case exclude => exact fun _ => ⟨fun _ h => h, fun _ h => h, id, fun _ => rfl⟩

/-- Only its own update sets a flag. -/
theorem Update.write_flags {u : Update} {path : CString} {l : Location} :
    (u ≠ .permanent path → (u.write path l).permanent = l.permanent) ∧
      (u ≠ .exclude path → (u.write path l).exclude = l.exclude) := by
  apply Update.write_cases (fun l' =>
    (u ≠ .permanent path → l'.permanent = l.permanent) ∧
      (u ≠ .exclude path → l'.exclude = l.exclude)) u
  case same => exact ⟨fun _ => rfl, fun _ => rfl⟩
  case consumer => exact fun _ => ⟨fun _ => rfl, fun _ => rfl⟩
  case producer => exact fun _ => ⟨fun _ => rfl, fun _ => rfl⟩
  case streaming => exact fun _ _ => ⟨fun _ => rfl, fun _ => rfl⟩
  case permanent => exact fun hu => ⟨fun hne => absurd hu hne, fun _ => rfl⟩
  case exclude => exact fun hu => ⟨fun _ => rfl, fun hne => absurd hu hne⟩

/-! ### The places of a name in the updates -/

section Places
variable {env : Env} {document : Workflow} {r : CString}

theorem cStr_underCapioDir (hdir : '\x00' ∉ env.capioDir) (hnul : '\x00' ∉ r) :
    cStr (underCapioDir env r) = underCapioDir env r := by
  refine cStr_eq_self fun h => ?_
  unfold underCapioDir StdPath.append at h
  split_ifs at h <;> simp_all

/-- The updates of the streams and the flags after them. -/
theorem updates_eq_append (hrun : ∀ stop, .halt stop ∉ updates env document) :
    updates env document = (.create env.capioDir :: document.ioGraph.flatMap (appUpdates env)) ++
      ((flagKeys env document.permanent).map .permanent ++
        (flagKeys env document.exclude).map .exclude) := by
  rw [updates_of_no_halt hrun]
  rfl

private theorem flatMap_within {α β : Type} {a : α} {as : List α} (h : a ∈ as)
    (f : α → List β) : f a <:+: as.flatMap f := by
  rw [List.flatMap_def]
  exact List.infix_of_mem_flatten (List.mem_map_of_mem h)

theorem appUpdates_within {app : App} (happ : app ∈ document.ioGraph) :
    appUpdates env app <:+:
      .create env.capioDir :: document.ioGraph.flatMap (appUpdates env) :=
  (flatMap_within happ (appUpdates env)).trans (List.suffix_cons _ _).isInfix

private theorem no_halt_app {app : App} (happ : app ∈ document.ioGraph)
    (hrun : ∀ stop, .halt stop ∉ updates env document) :
    ∀ stop, .halt stop ∉ appUpdates env app := by
  intro stop hstop
  refine hrun stop ?_
  rw [updates_eq_append hrun]
  exact List.mem_append_left _ ((appUpdates_within happ).subset hstop)

theorem consumer_pair {app : App} (happ : app ∈ document.ioGraph)
    (hrun : ∀ stop, .halt stop ∉ updates env document) (hr : StdPath.isAbsolute r = false)
    {appName : CString} (hname : app.name = some appName) (hin : r ∈ app.inputStream.getD []) :
    [.create (cStr (underCapioDir env r)), .consumer (underCapioDir env r) appName] <:+:
      .create env.capioDir :: document.ioGraph.flatMap (appUpdates env) := by
  obtain ⟨appName', inputStream, outputStream, hname', hinput, _, hus⟩ :=
    appUpdates_of_no_halt (no_halt_app happ hrun)
  obtain rfl : appName' = appName := Option.some.inj (hname'.symm.trans hname)
  rw [hinput] at hin
  refine List.IsInfix.trans ?_ (appUpdates_within happ)
  rw [hus]
  refine List.IsInfix.trans ?_ (List.prefix_append _ _).isInfix
  exact flatMap_within (List.mem_filter.mpr ⟨hin, takes_of_relative hr⟩) (fun file =>
    [Update.create (cStr (underCapioDir env file)),
      Update.consumer (underCapioDir env file) appName'])

theorem producer_pair {app : App} (happ : app ∈ document.ioGraph)
    (hrun : ∀ stop, .halt stop ∉ updates env document) (hr : StdPath.isAbsolute r = false)
    {appName : CString} (hname : app.name = some appName) (hin : r ∈ app.outputStream.getD []) :
    [.create (underCapioDir env r), .producer (underCapioDir env r) appName] <:+:
      .create env.capioDir :: document.ioGraph.flatMap (appUpdates env) := by
  obtain ⟨appName', inputStream, outputStream, hname', _, houtput, hus⟩ :=
    appUpdates_of_no_halt (no_halt_app happ hrun)
  obtain rfl : appName' = appName := Option.some.inj (hname'.symm.trans hname)
  rw [houtput] at hin
  refine List.IsInfix.trans ?_ (appUpdates_within happ)
  rw [hus]
  refine List.IsInfix.trans ?_ (List.suffix_append _ _).isInfix
  refine List.IsInfix.trans ?_ (List.prefix_append _ _).isInfix
  exact flatMap_within (List.mem_filter.mpr ⟨hin, takes_of_relative hr⟩) (fun file =>
    [Update.create (underCapioDir env file), Update.producer (underCapioDir env file) appName'])

theorem named_of_inStreams (hdir : '\x00' ∉ env.capioDir) (hnul : '\x00' ∉ r)
    (hr : StdPath.isAbsolute r = false) (hstream : InStreams document r)
    (hrun : ∀ stop, .halt stop ∉ updates env document) :
    underCapioDir env r ∈
      named (.create env.capioDir :: document.ioGraph.flatMap (appUpdates env)) := by
  obtain ⟨app, happ, hin⟩ := hstream
  obtain ⟨appName, _, _, hname, _⟩ := appUpdates_of_no_halt (no_halt_app happ hrun)
  rw [mem_named_iff]
  rcases hin with hin | hin
  · have hpair := consumer_pair happ hrun hr hname hin
    rw [cStr_underCapioDir hdir hnul] at hpair
    exact hpair.subset List.mem_cons_self
  · exact (producer_pair happ hrun hr hname hin).subset List.mem_cons_self

end Places

/-! ### The entry of a name that is normally spelled -/

section Normal
variable {env : Env} {document : Workflow} {r : CString} {engine : CapioCLEngine}

/-- Two updates in a row, the first of which makes the entry that the second writes to. -/
theorem runScript_kept_pair {us rest : List Update} {path : CString} {u₀ : Update}
    (Q : Location → Prop) (hset : ∀ l, Q (u₀.write path l))
    (hkeep : ∀ (u : Update) (l : Location), Q l → Q (u.write path l))
    (hpair : [.create path, u₀] <:+: us)
    (h : runScript Update.run (us ++ rest) ⟨∅⟩ = .ok engine) :
    ∃ l, engine.locations.lookup path = some l ∧ Q l := by
  obtain ⟨first, last, rfl⟩ := hpair
  have hnamed : path ∈ named (first ++ [.create path]) := by simp [mem_named_iff]
  refine runScript_kept Q hset hkeep hnamed (?_ : runScript Update.run
    (first ++ [.create path] ++ u₀ :: (last ++ rest)) ⟨∅⟩ = .ok engine)
  simpa using h

theorem consumer_applied {app : App} (happ : app ∈ document.ioGraph)
    (h : runScript Update.run (updates env document) ⟨∅⟩ = .ok engine)
    (hdir : '\x00' ∉ env.capioDir) (hnul : '\x00' ∉ r) (hr : StdPath.isAbsolute r = false)
    {appName : CString} (hname : app.name = some appName) (hin : r ∈ app.inputStream.getD []) :
    ∃ l, engine.locations.lookup (underCapioDir env r) = some l ∧
      withoutSpaces appName ∈ l.consumers := by
  have hrun := runScript_no_halt h
  have hpair := consumer_pair happ hrun hr hname hin
  rw [cStr_underCapioDir hdir hnul] at hpair
  rw [updates_eq_append hrun] at h
  refine runScript_kept_pair (fun l => withoutSpaces appName ∈ l.consumers) (fun l => ?_)
    (fun u l hmem => (u.write_extends _ l).consumers hmem) hpair h
  simp [Update.write]

theorem producer_applied {app : App} (happ : app ∈ document.ioGraph)
    (h : runScript Update.run (updates env document) ⟨∅⟩ = .ok engine)
    (hr : StdPath.isAbsolute r = false)
    {appName : CString} (hname : app.name = some appName) (hin : r ∈ app.outputStream.getD []) :
    ∃ l, engine.locations.lookup (underCapioDir env r) = some l ∧
      withoutSpaces appName ∈ l.producers := by
  have hrun := runScript_no_halt h
  have hpair := producer_pair happ hrun hr hname hin
  rw [updates_eq_append hrun] at h
  refine runScript_kept_pair (fun l => withoutSpaces appName ∈ l.producers) (fun l => ?_)
    (fun u l hmem => (u.write_extends _ l).producers hmem) hpair h
  simp [Update.write]

/-- The flags come after every stream, so the entry is there. -/
theorem flag_applied {path : CString} (Q : Location → Prop) (flag : CString → Update)
    (hset : ∀ l, Q ((flag path).write path l))
    (hkeep : ∀ (u : Update) (l : Location), Q l → Q (u.write path l))
    (h : runScript Update.run (updates env document) ⟨∅⟩ = .ok engine)
    (hnamed : path ∈ named (.create env.capioDir :: document.ioGraph.flatMap (appUpdates env)))
    (hflag : flag path ∈ (flagKeys env document.permanent).map Update.permanent ++
      (flagKeys env document.exclude).map Update.exclude) :
    ∃ l, engine.locations.lookup path = some l ∧ Q l := by
  rw [updates_eq_append (runScript_no_halt h)] at h
  obtain ⟨first, last, hsplit⟩ := List.append_of_mem hflag
  rw [hsplit, ← List.append_assoc] at h
  refine runScript_kept Q hset hkeep ?_ h
  unfold named at hnamed ⊢
  rw [List.filterMap_append]
  exact List.mem_append_left _ hnamed

theorem oneEntry_of_normallySpelled (h : parse env (some document) = .ok engine)
    (hdir : '\x00' ∉ env.capioDir) (hnul : '\x00' ∉ r) (hr : StdPath.isAbsolute r = false)
    (hstream : InStreams document r) (hnormal : NormallySpelled env document r) :
    OneEntry env document r engine := by
  have hrules := rulesSet_of_parse h
  rw [parse_eq_runUpdates] at h
  have hrun := runScript_no_halt h
  have hkey := hnormal.streams
  have hnamed := named_of_inStreams hdir hnul hr hstream hrun
  rw [hkey] at hnamed
  have hmem : fileKey env r ∈ engine.locations := by
    rw [runScript_named h, updates_eq_append hrun, mem_named_iff]
    exact List.mem_append_left _ (mem_named_iff.mp hnamed)
  obtain ⟨l, hl⟩ := Option.isSome_iff_exists.mp (AList.lookup_isSome.mpr hmem)
  refine ⟨⟨l, hl, ?_⟩, fun _ => hkey⟩
  constructor
  · intro app happ appName hname hin
    have hconsumer := consumer_applied happ h hdir hnul hr hname hin
    rw [hkey] at hconsumer
    exact holds_of_lookup hl hconsumer
  · intro app happ appName hname hin
    have hproducer := producer_applied happ h hr hname hin
    rw [hkey] at hproducer
    exact holds_of_lookup hl hproducer
  · intro rules hlast
    exact holds_of_lookup hl (hrules _ rules hlast)
  · intro hin
    exact holds_of_lookup hl (flag_applied (fun l => l.permanent = true) .permanent
      (fun l => by simp [Update.write]) (fun u l hq => (u.write_extends _ l).permanent hq) h hnamed
      (List.mem_append_left _ (List.mem_map_of_mem (hnormal.permanent hin))))
  · intro hin
    exact holds_of_lookup hl (flag_applied (fun l => l.exclude = true) .exclude
      (fun l => by simp [Update.write]) (fun u l hq => (u.write_extends _ l).exclude hq) h hnamed
      (List.mem_append_right _ (List.mem_map_of_mem (hnormal.exclude hin))))

/-- A flag among the updates comes from its section. -/
theorem mem_flags {u : Update} (hrun : ∀ stop, .halt stop ∉ updates env document)
    (hflag : u.isFlag = true) (hu : u ∈ updates env document) :
    u ∈ (flagKeys env document.permanent).map Update.permanent ++
      (flagKeys env document.exclude).map Update.exclude := by
  rw [updates_eq_append hrun] at hu
  rcases List.mem_append.mp hu with hu | hu
  · rcases List.mem_cons.mp hu with rfl | hu
    · cases hflag
    · obtain ⟨app, happ, hu⟩ := List.mem_flatMap.mp hu
      rw [isFlag_appUpdates app u hu] at hflag
      cases hflag
  · exact hu

/-- A flag in the entry comes from its section. -/
theorem mem_flagKeys {path : CString} {l : Location} (h : parse env (some document) = .ok engine)
    (hl : engine.locations.lookup path = some l) :
    (l.permanent = true → path ∈ flagKeys env document.permanent) ∧
      (l.exclude = true → path ∈ flagKeys env document.exclude) := by
  rw [parse_eq_runUpdates] at h
  have hrun := runScript_no_halt h
  constructor
  · intro hq
    obtain ⟨u, hmem, rfl⟩ := runScript_brought (fun l => l.permanent = true) (· = .permanent path)
      (fun _ => Bool.false_ne_true) (fun u l hne => (Update.write_flags.1 hne ▸ ·)) h hl hq
    simpa using mem_flags hrun rfl hmem
  · intro hq
    obtain ⟨u, hmem, rfl⟩ := runScript_brought (fun l => l.exclude = true) (· = .exclude path)
      (fun _ => Bool.false_ne_true) (fun u l hne => (Update.write_flags.2 hne ▸ ·)) h hl hq
    simpa using mem_flags hrun rfl hmem

theorem normallySpelled_of_oneEntry (h : parse env (some document) = .ok engine)
    (hdir : '\x00' ∉ env.capioDir) (hnul : '\x00' ∉ r) (hr : StdPath.isAbsolute r = false)
    (hstream : InStreams document r) (hone : OneEntry env document r engine) :
    NormallySpelled env document r := by
  obtain ⟨⟨l, hl, hset⟩, hsingle⟩ := hone
  have hflags := mem_flagKeys h hl
  rw [parse_eq_runUpdates] at h
  have hrun := runScript_no_halt h
  have hnamed := named_of_inStreams hdir hnul hr hstream hrun
  refine ⟨hsingle ?_, fun hin => hflags.1 (hset.permanent hin),
    fun hin => hflags.2 (hset.exclude hin)⟩
  rw [runScript_named h, updates_eq_append hrun, mem_named_iff]
  exact List.mem_append_left _ (mem_named_iff.mp hnamed)

end Normal

/-- All sections of a name reach one entry exactly when the document survives and its spelling
under `CAPIO_DIR` is the normal one, in the flags too. -/
theorem one_entry_iff (env : Env) (document : Workflow) (r : CString)
    (hdir : '\x00' ∉ env.capioDir) (hnul : '\x00' ∉ r) (hr : StdPath.isAbsolute r = false)
    (hstream : InStreams document r) : AppliedToOneEntry env document r ↔
      Harmless (updates env document) ∧
        ((∃ message, .halt (.errExit message) ∈ updates env document) ∨
          NormallySpelled env document r) := by
  have hthrown := parse_thrown_iff env document
  constructor
  · rintro (⟨message, hexit⟩ | ⟨engine, hok, hone⟩)
    · refine ⟨not_not.mp fun h => ?_, .inl ⟨message, ?_⟩⟩
      · rw [hthrown.mpr h] at hexit
        cases hexit
      · rw [parse_eq_runUpdates] at hexit
        obtain ⟨before, u, after, m, hus, _, hu⟩ := runScript_error_iff.mp hexit
        rw [hus, Update.run_errExit hu]
        simp
    · refine ⟨not_not.mp fun h => ?_,
        .inr (normallySpelled_of_oneEntry hok hdir hnul hr hstream hone)⟩
      rw [hthrown.mpr h] at hok
      cases hok
  · rintro ⟨hharmless, hcase⟩
    cases hparse : parse env (some document) with
    | error stop =>
      cases stop with
      | errExit message => exact .inl ⟨message, hparse⟩
      | thrown => exact absurd hharmless (hthrown.mp hparse)
    | ok engine =>
      right
      refine ⟨engine, hparse, ?_⟩
      rcases hcase with ⟨message, hhalt⟩ | hnormal
      · rw [parse_eq_runUpdates] at hparse
        exact absurd hhalt (runScript_no_halt hparse _)
      · exact oneEntry_of_normallySpelled hparse hdir hnul hr hstream hnormal

/-- A document that lists one output file and makes it permanent. -/
def permanentOutput (spelling : CString) : Workflow :=
  { name := some "wf".toList
    ioGraph := [
      { name := some "app".toList, inputStream := some [], outputStream := some ["a".toList]
        streaming := none }]
    permanent := some [spelling]
    exclude := none }

theorem one_entry_iff_output :
    '\x00' ∉ listingEnv.capioDir ∧ InStreams (permanentOutput "/c/a".toList) "a".toList ∧
      (AppliedToOneEntry listingEnv (permanentOutput "/c/a".toList) "a".toList ↔
        Harmless (updates listingEnv (permanentOutput "/c/a".toList)) ∧
          ((∃ message, .halt (.errExit message) ∈
              updates listingEnv (permanentOutput "/c/a".toList)) ∨
            NormallySpelled listingEnv (permanentOutput "/c/a".toList) "a".toList)) := by
  have hdir : '\x00' ∉ listingEnv.capioDir := by decide
  have hstream : InStreams (permanentOutput "/c/a".toList) "a".toList :=
    ⟨_, List.mem_singleton.mpr rfl, .inr (by decide)⟩
  exact ⟨hdir, hstream, one_entry_iff listingEnv _ _ hdir (by decide) (by decide) hstream⟩

def permanentIn (result : Except Stop CapioCLEngine) (path : CString) : Option Bool :=
  match result with
  | .ok engine => (engine.locations.lookup path).map Location.permanent
  | .error _ => none

/-- The parser makes the raw name permanent, under which there is no entry. -/
theorem permanent_name_ignored :
    ¬ ∀ (env : Env) (document : Workflow) (r : CString), '\x00' ∉ env.capioDir → '\x00' ∉ r →
      StdPath.isAbsolute r = false → InStreams document r → AppliedToOneEntry env document r := by
  intro h
  have hstream : InStreams (permanentOutput "a".toList) "a".toList :=
    ⟨_, List.mem_singleton.mpr rfl, .inr (by decide)⟩
  have hparsed : permanentIn (parse listingEnv (some (permanentOutput "a".toList)))
      (fileKey listingEnv "a".toList) = some false := by decide
  rcases h listingEnv _ _ (by decide) (by decide) (by decide) hstream with
    ⟨message, hexit⟩ | ⟨engine, hok, ⟨l, hl, hset⟩, _⟩
  · rw [hexit] at hparsed
    cases hparsed
  · rw [hok] at hparsed
    change (engine.locations.lookup _).map Location.permanent = some false at hparsed
    rw [hl, Option.map_some, hset.permanent (List.mem_singleton.mpr rfl)] at hparsed
    cases hparsed

end Capio.Server
