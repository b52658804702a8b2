import Capio.Server.GlobMatching
import Capio.Server.RuleLookup

/-! The directory whose rules a new file inherits: the longest entry that `match_globs` accepts,
against the longest that stands for the file or a directory above it. -/
namespace Capio.Server
open Library CapioCLEngine

/-- The path itself or a directory above it, component by component. -/
def AtOrAbove (above path : CString) : Prop :=
  above = path ∨ above ≠ [] ∧ ∃ n, above = StdPath.parentPath^[n] path

namespace CapioCLEngine

/-- A directory entry that stands for the path or for a directory above it. -/
structure Encloses (engine : CapioCLEngine) (directory path : CString) : Prop where
  known : directory ∈ engine.locations
  isDirectory : engine.isDirectory directory = true
  matched : ∃ above, AtOrAbove above path ∧ GlobMatches directory above

/-- No longer entry encloses the path. -/
structure LongestEnclosing (engine : CapioCLEngine) (directory path : CString) : Prop where
  encloses : engine.Encloses directory path
  longest : ∀ other, engine.Encloses other path → other.length ≤ directory.length

/-- The rules are those of the longest directory that encloses the path, or the defaults. -/
def EnclosingRules (engine : CapioCLEngine) (path commitRule fireRule : CString) : Prop :=
  (∃ directory, engine.LongestEnclosing directory path ∧
      commitRule = engine.getCommitRule directory ∧ fireRule = engine.getFireRule directory) ∨
    (∀ directory, ¬ engine.Encloses directory path) ∧
      commitRule = capioFileCommittedOnTermination ∧ fireRule = capioFileModeUpdate

/-- The new entry has the rules of the enclosing directory, and no other directory is chosen. -/
def InheritsEnclosing (engine : CapioCLEngine) (path : CString) : Prop :=
  ∃ engine' location, engine.newFile path = some engine' ∧
    engine'.locations.lookup path = some location ∧
    engine.EnclosingRules path location.commitRule location.fireRule ∧
    ∀ directory ∈ engine.longestMatch path engine.locations.keys, engine.Encloses directory path

/-- The first, in the order of the table, of the longest directory entries whose text is
accepted. -/
def longestAccepted (engine : CapioCLEngine) (path : CString) : Option CString :=
  (engine.locations.keys.filter
    (fun filename => Accepted filename path ∧ engine.isDirectory filename)).argmax List.length

variable {engine : CapioCLEngine} {path : CString}

theorem globThrows_iff : engine.GlobThrows path ↔
    ∃ filename ∈ engine.locations, ReadsPastEnd filename path := by
  unfold GlobThrows
  simp only [matchGlobs_none_iff]

theorem longestMatch_eq : engine.longestMatch path engine.locations.keys = engine.longestAccepted path := by
  unfold longestMatch longestAccepted
  congr 2
  funext filename
  rw [matchesDirectory, Bool.eq_iff_iff, Bool.and_eq_true, decide_eq_true_eq, decide_eq_true_eq,
    matchGlobs_true_iff]

/-- The texts of the table lead to the enclosing directory. -/
structure TextsSuffice (engine : CapioCLEngine) (path : CString) : Prop where
  inRange : ∀ filename ∈ engine.locations, ¬ ReadsPastEnd filename path
  chosen : ∀ directory, engine.longestAccepted path = some directory →
    engine.Encloses directory path ∧ ∃ longest, engine.LongestEnclosing longest path ∧
      engine.getCommitRule longest = engine.getCommitRule directory ∧
      engine.getFireRule longest = engine.getFireRule directory
  none : engine.longestAccepted path = none → ∀ directory, engine.Encloses directory path →
    ∃ longest, engine.LongestEnclosing longest path ∧
      engine.getCommitRule longest = capioFileCommittedOnTermination ∧
      engine.getFireRule longest = capioFileModeUpdate

theorem inheritsEnclosing_of_returns (h : path ∉ engine.locations) (hglob : ¬ engine.GlobThrows path) :
    engine.InheritsEnclosing path ↔
      engine.EnclosingRules path (engine.inherited path engine.locations.keys).2.1
          (engine.inherited path engine.locations.keys).2.2 ∧
        ∀ directory ∈ engine.longestAccepted path, engine.Encloses directory path := by
  obtain ⟨engine', hnew, hlookup, _⟩ := newFile_lookup h hglob
  rw [← longestMatch_eq]
  constructor
  · rintro ⟨engine'', location, hnew', hlookup', hrules, hchosen⟩
    rw [hnew, Option.some.injEq] at hnew'
    subst hnew'
    rw [hlookup, Option.some.injEq] at hlookup'
    subst hlookup'
    exact ⟨hrules, hchosen⟩
  · rintro ⟨hrules, hchosen⟩
    exact ⟨engine', _, hnew, hlookup, hrules, hchosen⟩

/-- A path without an entry inherits from the enclosing directory exactly when comparing texts
leads to it. -/
theorem inherits_enclosing_iff (engine : CapioCLEngine) (path : CString)
    (h : path ∉ engine.locations) :
    engine.InheritsEnclosing path ↔ engine.TextsSuffice path := by
  by_cases hglob : engine.GlobThrows path
  · refine iff_of_false ?_ fun htexts => ?_
    · rintro ⟨engine', _, hnew, _⟩
      exact not_globThrows_of_newFile h hnew hglob
    · obtain ⟨filename, hmem, hpast⟩ := globThrows_iff.mp hglob
      exact htexts.inRange filename hmem hpast
  · have hrange : ∀ filename ∈ engine.locations, ¬ ReadsPastEnd filename path :=
      fun filename hmem hpast => hglob (globThrows_iff.mpr ⟨filename, hmem, hpast⟩)
    rw [inheritsEnclosing_of_returns h hglob, inherited, longestMatch_eq]
    cases hchosen : engine.longestAccepted path with
    | none =>
      constructor
      · rintro ⟨hrules, _⟩
        refine ⟨hrange, fun _ hsome => ?_, fun _ directory hencloses => ?_⟩
        · rw [hchosen] at hsome
          cases hsome
        · rcases hrules with ⟨longest, hlongest, hcommit, hfire⟩ | ⟨hnone, _⟩
          · exact ⟨longest, hlongest, hcommit.symm, hfire.symm⟩
          · exact absurd hencloses (hnone directory)
      · intro htexts
        refine ⟨?_, fun _ hmem => nomatch hmem⟩
        by_cases hencloses : ∃ directory, engine.Encloses directory path
        · obtain ⟨directory, hencloses⟩ := hencloses
          obtain ⟨longest, hlongest, hcommit, hfire⟩ := htexts.none hchosen directory hencloses
          exact .inl ⟨longest, hlongest, hcommit.symm, hfire.symm⟩
        · exact .inr ⟨not_exists.mp hencloses, rfl, rfl⟩
    | some directory =>
      constructor
      · rintro ⟨hrules, hencloses⟩
        have hdirectory := hencloses directory rfl
        refine ⟨hrange, fun d hsome => ?_, fun hnone => ?_⟩
        · rw [hchosen, Option.some.injEq] at hsome
          subst hsome
          rcases hrules with ⟨longest, hlongest, hcommit, hfire⟩ | ⟨hnone, _⟩
          · exact ⟨hdirectory, longest, hlongest, hcommit.symm, hfire.symm⟩
          · exact absurd hdirectory (hnone directory)
        · rw [hchosen] at hnone
          cases hnone
      · intro htexts
        obtain ⟨hencloses, longest, hlongest, hcommit, hfire⟩ := htexts.chosen directory hchosen
        refine ⟨.inl ⟨longest, hlongest, hcommit.symm, hfire.symm⟩, fun d hmem => ?_⟩
        rw [← Option.mem_some_iff.mp hmem]
        exact hencloses

theorem inherits_enclosing_iff_closing : "/c/d/x".toList ∉ closingDirectory.locations ∧
    (closingDirectory.InheritsEnclosing "/c/d/x".toList ↔
      closingDirectory.TextsSuffice "/c/d/x".toList) := by
  have h : "/c/d/x".toList ∉ closingDirectory.locations := by decide
  exact ⟨h, inherits_enclosing_iff closingDirectory "/c/d/x".toList h⟩

/-- The directory `/c/d` begins the name of `/c/data`. -/
private theorem closingDirectory_not_encloses (directory : CString) :
    ¬ closingDirectory.Encloses directory "/c/data".toList := by
  rintro ⟨hmem, _, above, habove, hmatches⟩
  have hkey : directory = "/c/d".toList := by
    rw [closingDirectory, AList.mem_insert] at hmem
    exact hmem.resolve_right (AList.notMem_empty _)
  subst hkey
  obtain ⟨hlength, _⟩ := (globMatches_fixed (by decide)).mp hmatches
  have hparents (n : Nat) : StdPath.parentPath^[n] "/c/data".toList ∈
      ["/c/data".toList, "/c".toList, "/".toList] := by
    induction n with
    | zero => decide
    | succ n ih =>
      rw [Function.iterate_succ_apply']
      revert ih
      generalize StdPath.parentPath^[n] "/c/data".toList = p
      simp only [List.mem_cons, List.not_mem_nil, or_false]
      rintro (rfl | rfl | rfl) <;> decide
  rcases habove with rfl | ⟨_, n, rfl⟩
  · exact absurd hlength (by decide)
  · have hmem := hparents n
    simp only [List.mem_cons, List.not_mem_nil, or_false] at hmem
    rcases hmem with he | he | he
    · rw [he] at hlength
      exact absurd hlength (by decide)
    · rw [he] at hlength
      exact absurd hlength (by decide)
    · rw [he] at hlength
      exact absurd hlength (by decide)

/-- A directory gives its rules to a file that only begins like it. -/
theorem name_beginning_inherits : ¬ ∀ (engine : CapioCLEngine) (path : CString),
    path ∉ engine.locations → engine.InheritsEnclosing path := by
  intro hall
  obtain ⟨engine', location, hnew, hlookup, hrules, _⟩ :=
    hall closingDirectory "/c/data".toList (by decide)
  rcases hrules with ⟨directory, hlongest, _⟩ | ⟨_, hcommit, _⟩
  · exact closingDirectory_not_encloses directory hlongest.encloses
  · have hafter : (closingDirectory.newFile "/c/data".toList).map
        (fun engine => engine.getCommitRule "/c/data".toList) = some capioFileCommittedOnClose := by
      decide
    rw [hnew, Option.map_some, getCommitRule, hlookup, Option.some.injEq] at hafter
    exact absurd (hcommit.symm.trans hafter) (by decide)

end CapioCLEngine
end Capio.Server
