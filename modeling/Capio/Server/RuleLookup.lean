import Capio.Server.ClEngine
import Mathlib.Data.List.MinMax

/-! Commit and fire rules of a path without an entry: what `newFile` inherits from the longest
matching directory, against the defaults the getters return before it. -/
namespace Capio.Server
open Library

namespace CapioCLEngine
variable (engine : CapioCLEngine) (path : CString)

def matchesDirectory (filename : CString) : Bool :=
  matchGlobs filename path = some true && engine.isDirectory filename

/-- The first of the longest directory entries whose glob matches. -/
def longestMatch (filenames : List CString) : Option CString :=
  (filenames.filter (engine.matchesDirectory path)).argmax List.length

/-- The comparison reads past the end of the path for some key. -/
def GlobThrows : Prop := ∃ filename ∈ engine.locations, matchGlobs filename path = none

def ruleOf (filename : CString) : Nat × CString × CString :=
  (filename.length, engine.getCommitRule filename, engine.getFireRule filename)

def defaultRules : Nat × CString × CString :=
  (0, capioFileCommittedOnTermination, capioFileModeUpdate)

def inherited (filenames : List CString) : Nat × CString × CString :=
  (engine.longestMatch path filenames).elim defaultRules engine.ruleOf

variable {engine path}

theorem longestMatch_concat (filenames : List CString) (filename : CString) :
    engine.longestMatch path (filenames ++ [filename]) =
      if engine.matchesDirectory path filename = true ∧
          (engine.inherited path filenames).1 < filename.length
      then some filename else engine.longestMatch path filenames := by
  unfold inherited longestMatch
  rw [List.filter_append]
  by_cases hm : engine.matchesDirectory path filename = true
  · have hpos : 0 < filename.length := by
      refine List.length_pos_of_ne_nil ?_
      rintro rfl
      simp [matchesDirectory, matchGlobs] at hm
    have hsingle : [filename].filter (engine.matchesDirectory path) = [filename] := by simp [hm]
    rw [hsingle, List.argmax_concat]
    cases (filenames.filter (engine.matchesDirectory path)).argmax List.length with
    | none => simp [hm, defaultRules, hpos]
    | some d => simp only [hm, Option.elim_some, ruleOf, true_and]
  · have hnil : [filename].filter (engine.matchesDirectory path) = [] := by simp [hm]
    rw [hnil, List.append_nil, if_neg (fun h => hm h.1)]

/-- One turn of the loop extends the scanned keys by one. -/
theorem inheritStep_inherited (filenames : List CString) {filename : CString}
    (h : matchGlobs filename path ≠ none) :
    engine.inheritStep path (engine.inherited path filenames) filename =
      some (engine.inherited path (filenames ++ [filename])) := by
  obtain ⟨isMatch, hglob⟩ := Option.ne_none_iff_exists'.mp h
  have hdir : engine.matchesDirectory path filename = true ↔
      isMatch = true ∧ engine.isDirectory filename = true := by
    simp [matchesDirectory, hglob]
  have hconcat : engine.inherited path (filenames ++ [filename]) =
      (if engine.matchesDirectory path filename = true ∧
          (engine.inherited path filenames).1 < filename.length
        then engine.ruleOf filename else engine.inherited path filenames) := by
    conv_lhs => unfold inherited
    rw [longestMatch_concat]
    split_ifs
    · rfl
    · rfl
  unfold inheritStep
  rw [hglob, hconcat, Option.bind_eq_bind, Option.bind_some, ← apply_ite some]
  simp only [hdir, and_assoc, ruleOf]

theorem foldlM_inheritStep (filenames : List CString)
    (h : ∀ filename ∈ filenames, matchGlobs filename path ≠ none) :
    filenames.foldlM (engine.inheritStep path) defaultRules =
      some (engine.inherited path filenames) := by
  induction filenames using List.reverseRecOn with
  | nil => rfl
  | append_singleton filenames filename ih =>
    rw [List.foldlM_append, ih (fun f hf => h f (List.mem_append_left _ hf)),
      Option.bind_eq_bind, Option.bind_some, List.foldlM_cons,
      inheritStep_inherited filenames (h filename (by simp))]
    rfl

theorem foldlM_inheritStep_none (filenames : List CString) (best : Nat × CString × CString)
    (h : ∃ filename ∈ filenames, matchGlobs filename path = none) :
    filenames.foldlM (engine.inheritStep path) best = none := by
  induction filenames generalizing best with
  | nil => simp at h
  | cons filename filenames ih =>
    rw [List.foldlM_cons]
    obtain ⟨f, hf, hnone⟩ := h
    rcases List.mem_cons.mp hf with rfl | hf
    · have hstep : engine.inheritStep path best f = none := by
        unfold inheritStep
        rw [hnone]
        rfl
      rw [hstep]
      rfl
    · cases engine.inheritStep path best filename with
      | none => rfl
      | some best' => exact ih best' ⟨f, hf, hnone⟩

/-- The entry `newFile` makes for a path it does not know. -/
def freshLocation (rules : Nat × CString × CString) : Location :=
  { producers := [], consumers := [], commitRule := rules.2.1, fireRule := rules.2.2,
    permanent := false, exclude := false, isFile := true, commitOnCloseNumber := -1,
    directoryFileCount := -1, fileDependencies := [] }

theorem newFile_of_mem (h : path ∈ engine.locations) : engine.newFile path = some engine := if_pos h

theorem newFile_throws (h : path ∉ engine.locations) (hglob : engine.GlobThrows path) :
    engine.newFile path = none := by
  unfold newFile
  obtain ⟨filename, hmem, hnone⟩ := hglob
  rw [if_neg h, ← defaultRules, foldlM_inheritStep_none _ _ ⟨filename, AList.mem_keys.mp hmem, hnone⟩]
  rfl

theorem newFile_of_not_mem (h : path ∉ engine.locations) (hglob : ¬ engine.GlobThrows path) :
    engine.newFile path = some ⟨UnorderedMap.emplace engine.locations path
      (freshLocation (engine.inherited path engine.locations.keys))⟩ := by
  have hkeys : ∀ filename ∈ engine.locations.keys, matchGlobs filename path ≠ none := by
    intro filename hmem hnone
    exact hglob ⟨filename, AList.mem_keys.mpr hmem, hnone⟩
  unfold newFile
  rw [if_neg h, ← defaultRules, foldlM_inheritStep _ hkeys]
  rfl

/-- The entry that `newFile` makes, and the others as they were. -/
theorem newFile_lookup (h : path ∉ engine.locations) (hglob : ¬ engine.GlobThrows path) :
    ∃ engine', engine.newFile path = some engine' ∧
      engine'.locations.lookup path =
        some (freshLocation (engine.inherited path engine.locations.keys)) ∧
      ∀ q, q ≠ path → engine'.locations.lookup q = engine.locations.lookup q := by
  refine ⟨_, newFile_of_not_mem h hglob, ?_, fun q hq => ?_⟩
  · rw [UnorderedMap.lookup_emplace, if_pos rfl, AList.lookup_eq_none.mpr h]
    rfl
  · rw [UnorderedMap.lookup_emplace, if_neg hq]

theorem not_globThrows_of_newFile {engine' : CapioCLEngine} (hmem : path ∉ engine.locations)
    (h : engine.newFile path = some engine') : ¬ engine.GlobThrows path := by
  intro hglob
  rw [newFile_throws hmem hglob] at h
  cases h

end CapioCLEngine

open CapioCLEngine

/-- The rules of the path are the same before and after `newFile`. -/
def LookupIndependent (engine : CapioCLEngine) (path : CString) : Prop :=
  ∃ engine', engine.newFile path = some engine' ∧
    engine'.getCommitRule path = engine.getCommitRule path ∧
    engine'.getFireRule path = engine.getFireRule path

/-- A getter without an entry answers the default, and the new entry has what the longest
matching directory says. -/
theorem lookup_independent_iff (engine : CapioCLEngine) (path : CString)
    (h : path ∉ engine.locations) :
    LookupIndependent engine path ↔ ¬ engine.GlobThrows path ∧
      ∀ directory ∈ engine.longestMatch path engine.locations.keys,
        engine.getCommitRule directory = capioFileCommittedOnTermination ∧
          engine.getFireRule directory = capioFileModeUpdate := by
  have hnone : engine.locations.lookup path = none := AList.lookup_eq_none.mpr h
  have hcommit : engine.getCommitRule path = capioFileCommittedOnTermination := by
    simp [getCommitRule, hnone]
  have hfire : engine.getFireRule path = capioFileModeUpdate := by
    simp [getFireRule, hnone]
  unfold LookupIndependent
  rw [hcommit, hfire]
  by_cases hglob : engine.GlobThrows path
  · simp [newFile_throws h hglob, hglob]
  · obtain ⟨engine', hnew, hlookup, _⟩ := newFile_lookup h hglob
    simp only [hnew, Option.some.injEq, exists_eq_left', getCommitRule, getFireRule, hlookup]
    unfold inherited
    cases engine.longestMatch path engine.locations.keys with
    | none => simp [freshLocation, defaultRules, hglob]
    | some directory => simp [freshLocation, ruleOf, hglob, getCommitRule, getFireRule]

/-- A directory of the configuration that commits its files when they are closed. -/
def closingDirectory : CapioCLEngine :=
  ⟨AList.insert "/c/d".toList { freshLocation defaultRules with
    commitRule := capioFileCommittedOnClose, isFile := false } ∅⟩

theorem lookup_independent_iff_closing :
    "/c/d/x".toList ∉ closingDirectory.locations ∧
      (LookupIndependent closingDirectory "/c/d/x".toList ↔
        ¬ closingDirectory.GlobThrows "/c/d/x".toList ∧
          ∀ directory ∈ closingDirectory.longestMatch "/c/d/x".toList
              closingDirectory.locations.keys,
            closingDirectory.getCommitRule directory = capioFileCommittedOnTermination ∧
              closingDirectory.getFireRule directory = capioFileModeUpdate) := by
  have h : "/c/d/x".toList ∉ closingDirectory.locations := by decide
  exact ⟨h, lookup_independent_iff closingDirectory "/c/d/x".toList h⟩

/-- Creating the file moves its commit rule from `on_termination` to `on_close`. -/
theorem creation_changes_rule :
    ¬ ∀ (engine : CapioCLEngine) (path : CString), path ∉ engine.locations →
      LookupIndependent engine path := by
  intro h
  obtain ⟨engine', hnew, hcommit, _⟩ := h closingDirectory "/c/d/x".toList (by decide)
  have hafter : (closingDirectory.newFile "/c/d/x".toList).map
      (fun engine => engine.getCommitRule "/c/d/x".toList) = some capioFileCommittedOnClose := by
    decide
  rw [hnew, Option.map_some, hcommit] at hafter
  exact absurd hafter (by decide)

end Capio.Server
