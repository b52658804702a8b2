import Capio.Library.Dependencies
import Capio.Server.FileManager
import Capio.Server.ParseSurvival

/-! The recursion of `isCommitted` through the file dependencies of an accepted document ends
exactly when the dependencies have no cycle. -/
namespace Capio.Server
open Library CapioCLEngine

/-- The recursion of `isCommitted` ends for every path and file system. -/
def CommitEnds (env : Env) (engine : CapioCLEngine) : Prop :=
  ∀ (path : CString) (fs : FileSystem), ∃ depth,
    isCommittedWithin env engine fs depth path ≠ none

/-- The document makes the first path commit on files of which the second is one. -/
def DependsOn (env : Env) (document : Workflow) (path dependency : CString) : Prop :=
  ∃ rules, lastRules path (streamed env document) = some rules ∧
    rules.commitRule = capioFileCommittedOnFile ∧ dependency ∈ rules.fileDeps

/-! ### `isCommitted` as a test over a dependency graph -/

section Graph
variable {env : Env} {engine : CapioCLEngine} {fs : FileSystem}

/-- Paths that commit on other files ask these; all others decide by themselves. -/
def ownAnswer (env : Env) (engine : CapioCLEngine) (fs : FileSystem) (path : CString) :
    Option Bool :=
  if fs.isDirectory path = false ∧ engine.getCommitRule path = capioFileCommittedOnFile then none
  else isCommittedWithin env engine fs 1 path

/-- The answer of a path that asks no other is the same at every depth. -/
theorem isCommittedWithin_own {path : CString}
    (h : ¬ (fs.isDirectory path = false ∧ engine.getCommitRule path = capioFileCommittedOnFile)) :
    ∃ committed, ∀ depth, isCommittedWithin env engine fs (depth + 1) path = some committed := by
  by_cases hdir : fs.isDirectory path = true
  · obtain ⟨entries, hentries⟩ := FileSystem.isDirectory_iff.mp hdir
    exact ⟨_, fun _ => isCommittedWithin_directory hentries⟩
  · have hfile : fs.isDirectory path = false := by simpa using hdir
    have hrule : engine.getCommitRule path ≠ capioFileCommittedOnFile := fun hr => h ⟨hfile, hr⟩
    by_cases hclose : engine.getCommitRule path = capioFileCommittedOnClose
    · exact ⟨_, fun _ => isCommittedWithin_onClose hfile hclose⟩
    · exact ⟨_, fun _ => isCommittedWithin_other hfile hrule hclose⟩

theorem ownAnswer_own {path : CString}
    (h : ¬ (fs.isDirectory path = false ∧ engine.getCommitRule path = capioFileCommittedOnFile)) :
    ∃ committed, ownAnswer env engine fs path = some committed ∧
      ∀ depth, isCommittedWithin env engine fs (depth + 1) path = some committed := by
  obtain ⟨committed, hcommitted⟩ := isCommittedWithin_own h
  exact ⟨committed, (if_neg h).trans (hcommitted 0), hcommitted⟩

theorem isCommittedWithin_eq (depth : Nat) (path : CString) :
    isCommittedWithin env engine fs depth path =
      holdsWithin (ownAnswer env engine fs) engine.getFileDeps depth path := by
  induction depth generalizing path with
  | zero => rfl
  | succ depth ih =>
    by_cases h : fs.isDirectory path = false ∧ engine.getCommitRule path = capioFileCommittedOnFile
    · have hnode : ownAnswer env engine fs path = none := if_pos h
      rw [isCommittedWithin_onFile h.1 h.2, holdsWithin_node hnode]
      simp only [ih]
      rfl
    · obtain ⟨committed, hleaf, hcommitted⟩ := ownAnswer_own h
      rw [hcommitted, holdsWithin_leaf hleaf]

theorem recurses_iff (path dependency : CString) :
    Recurses (ownAnswer env engine fs) engine.getFileDeps path dependency ↔
      (fs.isDirectory path = false ∧ engine.getCommitRule path = capioFileCommittedOnFile) ∧
        dependency ∈ engine.getFileDeps path := by
  unfold Recurses
  refine and_congr_left' ?_
  constructor
  · intro hnone
    by_contra h
    obtain ⟨committed, hleaf, _⟩ := ownAnswer_own h
    rw [hleaf] at hnone
    cases hnone
  · exact fun h => if_pos h

end Graph

/-! ### The dependencies of an accepted document -/

section Accepted
variable {env : Env} {document : Workflow} {engine : CapioCLEngine}

/-- Only a streaming entry gives a path dependencies. -/
theorem lastRules_of_fileDeps (h : parse env (some document) = .ok engine) {path : CString}
    {l : Location} (hl : engine.locations.lookup path = some l) {dependency : CString}
    (hdep : dependency ∈ l.fileDependencies) :
    ∃ rules, lastRules path (streamed env document) = some rules := by
  rw [parse_eq_runUpdates] at h
  rw [← written_updates env document (runScript_no_halt h)]
  exact (RunsTo.of_runScript h).exists_lastRules (fun l => dependency ∈ l.fileDependencies)
    (fun _ => List.not_mem_nil) (fun l l' hsame hq => hsame.fileDependencies ▸ hq) hl hdep

theorem dependsOn_iff (h : parse env (some document) = .ok engine) (path dependency : CString) :
    DependsOn env document path dependency ↔
      engine.getCommitRule path = capioFileCommittedOnFile ∧
        dependency ∈ engine.getFileDeps path := by
  have hset := rulesSet_of_parse h
  constructor
  · rintro ⟨rules, hlast, hrule, hdep⟩
    obtain ⟨l, hl, hhas⟩ := hset path rules hlast
    simp only [getCommitRule, getFileDeps, hl, hhas.commitRule, hhas.fileDependencies]
    exact ⟨hrule, hdep⟩
  · rintro ⟨hrule, hdep⟩
    cases hl : engine.locations.lookup path with
    | none => simp [getFileDeps, hl] at hdep
    | some l =>
      simp only [getCommitRule, getFileDeps, hl] at hrule hdep
      obtain ⟨rules, hlast⟩ := lastRules_of_fileDeps h hl hdep
      have hhas := holds_of_lookup hl (hset path rules hlast)
      exact ⟨rules, hlast, hhas.commitRule ▸ hrule, hhas.fileDependencies ▸ hdep⟩

theorem finite_dependsOn : {path | ∃ dependency, DependsOn env document path dependency}.Finite := by
  refine Set.Finite.subset ((streamed env document).map Prod.fst).finite_toSet ?_
  intro path ⟨dependency, rules, hlast, _⟩
  by_contra hnot
  have hnone : lastRules path (streamed env document) = none := by
    rw [lastRules_eq_none_iff]
    exact fun w hw heq => hnot (List.mem_map.mpr ⟨w, hw, heq⟩)
  rw [hnone] at hlast
  cases hlast

theorem commitEnds_of_acyclic (h : parse env (some document) = .ok engine)
    (hacyclic : ∀ path, ¬ Relation.TransGen (DependsOn env document) path path) :
    CommitEnds env engine := by
  intro path fs
  have hwf := wellFounded_of_acyclic finite_dependsOn (fun a b hab => ⟨b, hab⟩) hacyclic
  have hsub : WellFounded
      (fun b a => Recurses (ownAnswer env engine fs) engine.getFileDeps a b) := by
    refine Subrelation.wf (fun {b a} hba => ?_) hwf
    have hrecurses := (recurses_iff a b).mp hba
    exact (dependsOn_iff h a b).mpr ⟨hrecurses.1.2, hrecurses.2⟩
  obtain ⟨depth, hdepth⟩ := holdsWithin_of_wellFounded hsub path
  exact ⟨depth, by rwa [isCommittedWithin_eq]⟩

/-! ### A file system on which every token counts enough -/

/-- No directories, and a token for every path with this count. -/
def countedEverywhere (count : Int) : FileSystem := ⟨fun _ => some (.file (printCount count))⟩

theorem exists_closeCount_le (engine : CapioCLEngine) :
    ∃ count : Int, ∀ path, engine.getCommitCloseCount path ≤ count := by
  obtain ⟨count, hcount⟩ :=
    (0 :: engine.locations.keys.map engine.getCommitCloseCount).finite_toSet.bddAbove
  refine ⟨count, fun path => hcount ?_⟩
  cases hl : engine.locations.lookup path with
  | none =>
    have hzero : engine.getCommitCloseCount path = 0 := by simp [getCommitCloseCount, hl]
    rw [hzero]
    exact List.mem_cons_self
  | some l =>
    have hkey : path ∈ engine.locations.keys := by
      rw [← AList.mem_keys, ← AList.lookup_isSome, hl]
      rfl
    exact List.mem_cons_of_mem _ (List.mem_map_of_mem hkey)

theorem ownAnswer_countedEverywhere {count : Int}
    (hcount : ∀ path, engine.getCommitCloseCount path ≤ count) (path : CString) :
    ownAnswer env engine (countedEverywhere count) path ≠ some false := by
  have hfile : (countedEverywhere count).isDirectory path = false := rfl
  have hexists : ∀ p, (countedEverywhere count).fileExists p = true := fun _ => rfl
  have htoken : ∀ p, tokenCount (countedEverywhere count) p = count :=
    fun _ => readCount_printCount count
  unfold ownAnswer
  split_ifs with h
  · exact fun h => nomatch h
  · have hrule : engine.getCommitRule path ≠ capioFileCommittedOnFile := fun hr => h ⟨hfile, hr⟩
    by_cases hclose : engine.getCommitRule path = capioFileCommittedOnClose
    · rw [isCommittedWithin_onClose hfile hclose, hexists, htoken]
      simp [hcount path]
    · rw [isCommittedWithin_other hfile hrule hclose, hexists]
      simp

theorem acyclic_of_commitEnds (h : parse env (some document) = .ok engine)
    (hends : CommitEnds env engine) (path : CString) :
    ¬ Relation.TransGen (DependsOn env document) path path := by
  intro hcycle
  obtain ⟨count, hcount⟩ := exists_closeCount_le engine
  have hrecurses : ∀ a b, DependsOn env document a b →
      Recurses (ownAnswer env engine (countedEverywhere count)) engine.getFileDeps a b := by
    intro a b hab
    obtain ⟨hrule, hdep⟩ := (dependsOn_iff h a b).mp hab
    exact (recurses_iff a b).mpr ⟨⟨rfl, hrule⟩, hdep⟩
  obtain ⟨depth, hdepth⟩ := hends path (countedEverywhere count)
  rw [isCommittedWithin_eq] at hdepth
  exact hdepth (holdsWithin_of_cycle (ownAnswer_countedEverywhere hcount)
    (Relation.TransGen.mono hrecurses _ _ hcycle) depth)

end Accepted

/-- A document whose one output file commits on another file. -/
def dependentOutput (dependency : CString) : Workflow :=
  { name := some "wf".toList
    ioGraph := [
      { name := some "app".toList, inputStream := some [], outputStream := some ["a".toList]
        streaming := some [
          { name := some ["a".toList], dirname := none, committed := some "on_file".toList
            fileDeps := some [dependency], mode := none, nFiles := none }] }]
    permanent := none
    exclude := none }

theorem exists_engine_of_isOk {result : Except Stop CapioCLEngine}
    (h : result.toOption.isSome = true) : ∃ engine, result = .ok engine := by
  cases result with
  | error stop => cases h
  | ok engine => exact ⟨engine, rfl⟩

end Capio.Server
