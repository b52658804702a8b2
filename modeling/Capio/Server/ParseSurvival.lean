import Capio.Server.ConfigRuns

/-! Which documents the parser survives: the first lookup, glob comparison or number that throws,
and the rules in the engine when none does. -/
namespace Capio.Server
open Library CapioCLEngine

/-! ### The rules a document writes -/

def entryRules (env : Env) (entry : StreamingEntry) : List (CString × StreamingRules) :=
  match readEntry env entry with
  | .ok (paths, rules) => paths.map (fun path => (path, rules))
  | .error _ => []

/-- The keys of the streaming entries under `CAPIO_DIR` with their rules, in document order. -/
def streamed (env : Env) (document : Workflow) : List (CString × StreamingRules) :=
  document.ioGraph.flatMap (fun app => (app.streaming.getD []).flatMap (entryRules env))

def lastRules (path : CString) (written : List (CString × StreamingRules)) :
    Option StreamingRules :=
  ((written.filter (fun w => w.1 = path)).getLast?).map Prod.snd

structure Location.Has (l : Location) (rules : StreamingRules) : Prop where
  isFile : l.isFile = rules.isFile
  commitRule : l.commitRule = rules.commitRule
  fireRule : l.fireRule = rules.fireRule
  commitOnCloseNumber : l.commitOnCloseNumber = rules.nClose.bmod 0x100000000
  directoryFileCount : rules.nFiles ≠ -1 → l.directoryFileCount = rules.nFiles
  fileDependencies : l.fileDependencies = rules.fileDeps

/-- Every streaming entry has its rules, those of the last one for its key. -/
def RulesSet (env : Env) (document : Workflow) (engine : CapioCLEngine) : Prop :=
  ∀ path rules, lastRules path (streamed env document) = some rules →
    ∃ l, engine.locations.lookup path = some l ∧ l.Has rules

/-- The parser returns an engine with all rules set or stops at one of its checks. -/
def ParsesSafely (env : Env) (document : Workflow) : Prop :=
  (∃ message, parse env (some document) = .error (.errExit message)) ∨
    ∃ engine, parse env (some document) = .ok engine ∧ RulesSet env document engine

/-- No update that the parser reaches throws. -/
def Harmless (us : List Update) : Prop :=
  ∀ before u after, us = before ++ u :: after → Throws before u →
    ∃ message, .halt (.errExit message) ∈ before

/-! ### The updates write these rules -/

def Update.written : Update → Option (CString × StreamingRules)
  | .streaming path rules => some (path, rules)
  | _ => none

theorem written_rulesUpdates (rules : StreamingRules) (path : CString) :
    (rulesUpdates rules path).filterMap Update.written = [(path, rules)] := by
  unfold rulesUpdates
  rw [List.filterMap_cons]
  simp [Update.written, List.filterMap_map, Function.comp_def]

private theorem written_entryUpdates (env : Env) (entry : StreamingEntry) :
    (entryUpdates env entry).filterMap Update.written = entryRules env entry := by
  unfold entryUpdates entryRules
  cases readEntry env entry with
  | error stop => rfl
  | ok read =>
    dsimp only
    rw [List.filterMap_flatMap]
    simp only [written_rulesUpdates]
    exact List.map_eq_flatMap.symm

private theorem written_streams (env : Env) (appName : CString) (files : List CString) :
    (inputUpdates env appName files).filterMap Update.written = [] ∧
      (outputUpdates env appName files).filterMap Update.written = [] := by
  rw [List.filterMap_eq_nil_iff, List.filterMap_eq_nil_iff]
  unfold inputUpdates outputUpdates
  constructor
  · intro u hu
    obtain ⟨file, _, hu⟩ := List.mem_flatMap.mp hu
    rcases List.mem_pair.mp hu with rfl | rfl <;> rfl
  · intro u hu
    obtain ⟨file, _, hu⟩ := List.mem_flatMap.mp hu
    rcases List.mem_pair.mp hu with rfl | rfl <;> rfl

private theorem written_appUpdates (env : Env) (app : App)
    (hrun : ∀ stop, .halt stop ∉ appUpdates env app) :
    (appUpdates env app).filterMap Update.written =
      (app.streaming.getD []).flatMap (entryRules env) := by
  obtain ⟨appName, inputStream, outputStream, _, _, _, hus⟩ := appUpdates_of_no_halt hrun
  rw [hus, List.filterMap_append, List.filterMap_append, (written_streams env appName _).1,
    (written_streams env appName _).2, List.filterMap_flatMap]
  simp [written_entryUpdates]

theorem written_updates (env : Env) (document : Workflow)
    (hrun : ∀ stop, .halt stop ∉ updates env document) :
    (updates env document).filterMap Update.written = streamed env document := by
  have hus := updates_of_no_halt hrun
  have happs : document.ioGraph.flatMap
      (fun app => (appUpdates env app).filterMap Update.written) = streamed env document := by
    refine List.flatMap_congr fun app happ => written_appUpdates env app fun stop hstop => ?_
    refine hrun stop ?_
    rw [hus]
    exact List.mem_cons_of_mem _
      (List.mem_append_left _ (List.mem_flatMap.mpr ⟨app, happ, hstop⟩))
  rw [hus, ← happs]
  simp [List.filterMap_flatMap, List.filterMap_cons, Update.written, List.filterMap_map,
    Function.comp_def]

theorem lastRules_concat (path : CString) (written : List (CString × StreamingRules))
    (w : CString × StreamingRules) : lastRules path (written ++ [w]) =
      if w.1 = path then some w.2 else lastRules path written := by
  unfold lastRules
  rw [List.filter_append]
  split_ifs with h
  · simp [h]
  · simp [h]

theorem lastRules_eq_none_iff (path : CString) (written : List (CString × StreamingRules)) :
    lastRules path written = none ↔ ∀ w ∈ written, w.1 ≠ path := by
  unfold lastRules
  rw [Option.map_eq_none_iff, List.getLast?_eq_none_iff, List.filter_eq_nil_iff]
  simp

/-- The rules of one entry are those of the other. -/
structure Location.SameRules (l l' : Location) : Prop where
  isFile : l.isFile = l'.isFile
  commitRule : l.commitRule = l'.commitRule
  fireRule : l.fireRule = l'.fireRule
  commitOnCloseNumber : l.commitOnCloseNumber = l'.commitOnCloseNumber
  directoryFileCount : l.directoryFileCount = l'.directoryFileCount
  fileDependencies : l.fileDependencies = l'.fileDependencies

theorem Location.SameRules.refl (l : Location) : l.SameRules l := ⟨rfl, rfl, rfl, rfl, rfl, rfl⟩

theorem Location.SameRules.trans {l l' l'' : Location} (h : l.SameRules l')
    (h' : l'.SameRules l'') : l.SameRules l'' where
  isFile := h.isFile.trans h'.isFile
  commitRule := h.commitRule.trans h'.commitRule
  fireRule := h.fireRule.trans h'.fireRule
  commitOnCloseNumber := h.commitOnCloseNumber.trans h'.commitOnCloseNumber
  directoryFileCount := h.directoryFileCount.trans h'.directoryFileCount
  fileDependencies := h.fileDependencies.trans h'.fileDependencies

theorem Location.SameRules.has {l l' : Location} {rules : StreamingRules} (h : l'.SameRules l)
    (hl : l.Has rules) : l'.Has rules where
  isFile := h.isFile.trans hl.isFile
  commitRule := h.commitRule.trans hl.commitRule
  fireRule := h.fireRule.trans hl.fireRule
  commitOnCloseNumber := h.commitOnCloseNumber.trans hl.commitOnCloseNumber
  directoryFileCount := fun hcount => h.directoryFileCount.trans (hl.directoryFileCount hcount)
  fileDependencies := h.fileDependencies.trans hl.fileDependencies

/-- Only a streaming entry for the path changes its rules. -/
theorem Update.write_rules {u : Update} {path : CString} (h : ∀ rules, u ≠ .streaming path rules)
    (l : Location) : (u.write path l).SameRules l := by
  apply Update.write_cases (fun l' => l'.SameRules l) u
  case same => exact Location.SameRules.refl l
  case consumer => exact fun _ => ⟨rfl, rfl, rfl, rfl, rfl, rfl⟩
  case producer => exact fun _ => ⟨rfl, rfl, rfl, rfl, rfl, rfl⟩
  case streaming => exact fun rules hu => absurd hu (h rules)
  case permanent => exact fun _ => ⟨rfl, rfl, rfl, rfl, rfl, rfl⟩
  case exclude => exact fun _ => ⟨rfl, rfl, rfl, rfl, rfl, rfl⟩

theorem StreamingRules.assign_has (rules : StreamingRules) (l : Location) :
    (rules.assign l).Has rules :=
  ⟨rfl, rfl, rfl, rfl, fun h => if_pos h, rfl⟩

theorem Update.written_eq_some_iff {u : Update} {path : CString} {rules : StreamingRules} :
    u.written = some (path, rules) ↔ u = .streaming path rules := by
  cases u <;> simp [Update.written]

theorem lastRules_concat_streaming (path : CString) (us : List Update) (rules : StreamingRules) :
    lastRules path ((us ++ [Update.streaming path rules]).filterMap Update.written) = some rules := by
  rw [List.filterMap_append]
  simp [Update.written, lastRules_concat]

theorem lastRules_concat_other {u : Update} {path : CString} (us : List Update)
    (h : ∀ rules, u ≠ .streaming path rules) :
    lastRules path ((us ++ [u]).filterMap Update.written) =
      lastRules path (us.filterMap Update.written) := by
  rw [List.filterMap_append]
  cases hw : u.written with
  | none => simp [hw]
  | some w =>
    have hne : w.1 ≠ path := by
      rintro rfl
      exact h w.2 (Update.written_eq_some_iff.mp hw)
    simp [hw, lastRules_concat, hne]

/-- One more update: the entry has the rules if they are its own or were there before. -/
theorem Update.write_has {u : Update} {path : CString} {l : Location} {us : List Update}
    {rules : StreamingRules}
    (hlast : lastRules path ((us ++ [u]).filterMap Update.written) = some rules)
    (h : lastRules path (us.filterMap Update.written) = some rules → l.Has rules) :
    (u.write path l).Has rules := by
  by_cases hwritten : ∃ r, u = .streaming path r
  · obtain ⟨r, rfl⟩ := hwritten
    have hr : r = rules := Option.some.inj ((lastRules_concat_streaming path us r).symm.trans hlast)
    subst hr
    simp only [Update.write, if_true]
    exact r.assign_has l
  · have hother : ∀ rules, u ≠ .streaming path rules := not_exists.mp hwritten
    rw [lastRules_concat_other us hother] at hlast
    exact (u.write_rules hother l).has (h hlast)

/-- The rules of an entry are the last ones written; no other update changes them. -/
theorem RunsTo.has {us : List Update} {engine : CapioCLEngine} (h : RunsTo us engine)
    (path : CString) (rules : StreamingRules)
    (hlast : lastRules path (us.filterMap Update.written) = some rules) :
    ∃ l, engine.locations.lookup path = some l ∧ l.Has rules := by
  induction h generalizing rules with
  | start => cases hlast
  | @step us u m m₁ m' _ horder hu ih =>
    have hmem : path ∈ m.locations := by
      by_cases hwritten : ∃ r, u = .streaming path r
      · obtain ⟨r, rfl⟩ := hwritten
        unfold Update.run at hu
        dsimp only at hu
        split_ifs at hu with hmem
        exact (horder.mem path).mp hmem
      · rw [lastRules_concat_other us (not_exists.mp hwritten)] at hlast
        obtain ⟨l, hl, _⟩ := ih rules hlast
        rw [← AList.lookup_isSome, hl]
        rfl
    obtain ⟨l, hl⟩ := Option.isSome_iff_exists.mp (AList.lookup_isSome.mpr hmem)
    exact ⟨_, (Update.effect_reordered horder hu).kept path l hl,
      u.write_has hlast fun hbefore => holds_of_lookup hl (ih rules hbefore)⟩

theorem written_of_streaming {us : List Update} {path : CString} {rules : StreamingRules} :
    (path, rules) ∈ us.filterMap Update.written ↔ .streaming path rules ∈ us := by
  rw [List.mem_filterMap]
  constructor
  · rintro ⟨u, hu, hw⟩
    exact Update.written_eq_some_iff.mp hw ▸ hu
  · exact fun hu => ⟨_, hu, rfl⟩

/-- A streamed path has last rules, which some update writes. -/
theorem exists_last_streaming {us : List Update} {path : CString} {rules : StreamingRules}
    (h : .streaming path rules ∈ us) : ∃ last, lastRules path (us.filterMap Update.written) = some last ∧
      .streaming path last ∈ us := by
  have hsome : lastRules path (us.filterMap Update.written) ≠ none := by
    intro hnone
    exact (lastRules_eq_none_iff _ _).mp hnone _ (written_of_streaming.mpr h) rfl
  obtain ⟨last, hlast⟩ := Option.ne_none_iff_exists'.mp hsome
  refine ⟨last, hlast, written_of_streaming.mp ?_⟩
  obtain ⟨⟨p, r⟩, hw, rfl⟩ := Option.map_eq_some_iff.mp hlast
  obtain ⟨hmem, hpath⟩ := List.mem_filter.mp (List.mem_of_getLast? hw)
  obtain rfl : p = path := of_decide_eq_true hpath
  exact hmem

/-- What no new entry has and no other update brings an entry has from a streaming entry. -/
theorem RunsTo.exists_lastRules {us : List Update} {engine : CapioCLEngine} {path : CString}
    {l : Location} (h : RunsTo us engine) (Q : Location → Prop)
    (hfresh : ∀ rules, ¬ Q (freshLocation rules))
    (hkept : ∀ l l' : Location, l'.SameRules l → Q l' → Q l)
    (hl : engine.locations.lookup path = some l) (hq : Q l) :
    ∃ rules, lastRules path (us.filterMap Update.written) = some rules := by
  obtain ⟨u, hu, rules, rfl⟩ := RunsTo.brought Q (fun u => ∃ rules, u = .streaming path rules) hfresh
    (fun u l hnot => hkept l _ (u.write_rules (not_exists.mp hnot) l)) h hl hq
  obtain ⟨last, hlast, _⟩ := exists_last_streaming hu
  exact ⟨last, hlast⟩

theorem rulesSet_of_parse {env : Env} {document : Workflow} {engine : CapioCLEngine}
    (h : parse env (some document) = .ok engine) : RulesSet env document engine := by
  rw [parse_eq_runUpdates] at h
  intro path rules hlast
  rw [← written_updates env document (runScript_no_halt h)] at hlast
  exact (RunsTo.of_runScript h).has path rules hlast

theorem parse_thrown_iff (env : Env) (document : Workflow) :
    parse env (some document) = .error .thrown ↔ ¬ Harmless (updates env document) := by
  rw [parse_eq_runUpdates, runScript_thrown_iff]
  unfold Harmless
  push Not
  exact ⟨fun ⟨before, u, after, hus, hcheck, hthrows⟩ => ⟨before, u, after, hus, hthrows, hcheck⟩,
    fun ⟨before, u, after, hus, hthrows, hcheck⟩ => ⟨before, u, after, hus, hcheck, hthrows⟩⟩

theorem parses_safely_iff (env : Env) (document : Workflow) :
    ParsesSafely env document ↔ Harmless (updates env document) := by
  rw [← not_not (a := Harmless (updates env document)), ← parse_thrown_iff]
  constructor
  · rintro (⟨message, hexit⟩ | ⟨engine, hok, _⟩) hthrown
    · rw [hexit] at hthrown
      cases hthrown
    · rw [hok] at hthrown
      cases hthrown
  · intro hnot
    cases hparse : parse env (some document) with
    | ok engine => exact .inr ⟨engine, hparse, rulesSet_of_parse hparse⟩
    | error stop =>
      cases stop with
      | errExit message => exact .inl ⟨message, hparse⟩
      | thrown => exact absurd hparse hnot

/-- One application that writes `a` and streams `b`. -/
def unlistedStreaming : Workflow :=
  { name := some "wf".toList
    ioGraph := [
      { name := some "app".toList, inputStream := some [], outputStream := some ["a".toList]
        streaming := some [
          { name := some ["b".toList], dirname := none, committed := some "on_close".toList
            fileDeps := none, mode := none, nFiles := none }] }]
    permanent := none
    exclude := none }

def listingEnv : Env := { capioDir := "/c".toList, capioMetadataDir := none }

def isThrown : Except Stop CapioCLEngine → Bool
  | .error .thrown => true
  | _ => false

/-- `setFileDeps` looks up an entry that no stream has made. -/
theorem unlisted_streaming_throws :
    ¬ ∀ (env : Env) (document : Workflow), ParsesSafely env document := by
  intro h
  have hthrown : isThrown (parse listingEnv (some unlistedStreaming)) = true := by decide
  rcases h listingEnv unlistedStreaming with ⟨message, hexit⟩ | ⟨engine, hok, _⟩
  · rw [hexit] at hthrown
    cases hthrown
  · rw [hok] at hthrown
    cases hthrown

end Capio.Server
