import Capio.Server.RuleLookup

/-! The two loops over `_locations` that pick one entry: whether what they pick depends on the
order in which the hash table is visited. -/
namespace Capio.Server
open Library CapioCLEngine

namespace CapioCLEngine

/-- The rules that `newFile` stores for the path. -/
def storedRules (engine : CapioCLEngine) (path : CString) : Option (CString × CString) :=
  (engine.newFile path).map fun engine' => (engine'.getCommitRule path, engine'.getFireRule path)

/-- The producer test and the inherited rules of the path are the same for every table with these
entries. -/
def OrderIrrelevant (engine : CapioCLEngine) (clients : ClientManager) (path : CString)
    (pid : Tid) : Prop :=
  ∀ engine' : CapioCLEngine, UnorderedMap.Reordered engine.locations engine'.locations →
    engine'.isProducer clients path pid = engine.isProducer clients path pid ∧
      engine'.storedRules path = engine.storedRules path

/-- What an entry makes of the path in the loop of `isProducer`: nothing, an exception or an
answer. -/
def entryAnswer (path appName : CString) (entry : Σ _ : CString, Location) : Option (Option Bool) :=
  match matchGlobs entry.1 path with
  | none => some none
  | some true => some (some (entry.2.producers.contains appName))
  | some false => none

/-- A directory entry that matches the path, none of those that do being longer. -/
abbrev LongestMatching (engine : CapioCLEngine) (path directory : CString) : Prop :=
  UnorderedMap.Greatest (engine.matchesDirectory path) List.length engine.locations directory

/-- All entries that the loops could stop at say the same. -/
structure EntriesAgree (engine : CapioCLEngine) (clients : ClientManager) (path : CString)
    (pid : Tid) : Prop where
  producers : ∀ appName, clients.getAppName pid = some appName →
    ∀ entry ∈ engine.locations.entries, ∀ entry' ∈ engine.locations.entries, ∀ answer answer',
      entryAnswer path appName entry = some answer →
      entryAnswer path appName entry' = some answer' → answer = answer'
  rules : engine.GlobThrows path ∨ ∀ directory directory', engine.LongestMatching path directory →
    engine.LongestMatching path directory' →
      engine.getCommitRule directory = engine.getCommitRule directory' ∧
        engine.getFireRule directory = engine.getFireRule directory'

variable {engine engine' : CapioCLEngine} {clients : ClientManager} {path : CString} {pid : Tid}

/-- The loop of `isProducer` takes the first answer. -/
theorem globProducer_eq (appName : CString) (entries : List (Σ _ : CString, Location)) :
    globProducer path appName entries =
      (entries.findSome? (entryAnswer path appName)).getD (some false) := by
  induction entries with
  | nil => rfl
  | cons entry entries ih =>
    rw [globProducer, List.findSome?_cons, entryAnswer]
    cases matchGlobs entry.1 path with
    | none => rfl
    | some isMatch =>
      cases isMatch with
      | true => rfl
      | false => exact ih

theorem isProducer_fresh (h : path ∉ engine.locations) :
    engine.isProducer clients path pid = (clients.getAppName pid).bind fun appName =>
      (engine.locations.entries.findSome? (entryAnswer path appName)).getD (some false) := by
  rw [isProducer, AList.lookup_eq_none.mpr h]
  simp only [globProducer_eq]
  rfl

/-- The answer of the loop is the same in every order exactly when the entries agree on it. -/
theorem isProducer_order_iff (h : path ∉ engine.locations) :
    (∀ engine' : CapioCLEngine, UnorderedMap.Reordered engine.locations engine'.locations →
      engine'.isProducer clients path pid = engine.isProducer clients path pid) ↔
    ∀ appName, clients.getAppName pid = some appName →
      ∀ entry ∈ engine.locations.entries, ∀ entry' ∈ engine.locations.entries, ∀ answer answer',
        entryAnswer path appName entry = some answer →
        entryAnswer path appName entry' = some answer' → answer = answer' := by
  have hfresh (m : UnorderedMap CString Location) (hm : UnorderedMap.Reordered engine.locations m) :
      path ∉ m := fun hmem => h ((hm.mem path).mp hmem)
  cases hname : clients.getAppName pid with
  | none =>
    refine iff_of_true (fun engine' hperm => ?_) fun _ h => nomatch h
    rw [isProducer_fresh h, isProducer_fresh (hfresh _ hperm), hname]
    rfl
  | some appName =>
    have hiff := UnorderedMap.findSome?_order_iff (m := engine.locations) (entryAnswer path appName)
      (some false)
    constructor
    · intro hsame name hname'
      obtain rfl := Option.some.inj hname'
      refine hiff.mp fun m hm => ?_
      have hm' := hsame ⟨m⟩ hm
      rw [isProducer_fresh h, isProducer_fresh (hfresh m hm), hname] at hm'
      exact hm'
    · intro hagree engine' hperm
      rw [isProducer_fresh h, isProducer_fresh (hfresh _ hperm), hname]
      exact hiff.mpr (hagree appName rfl) engine'.locations hperm

theorem storedRules_returns (h : path ∉ engine.locations) (hglob : ¬ engine.GlobThrows path) :
    engine.storedRules path = some ((engine.longestMatch path engine.locations.keys).elim
      (capioFileCommittedOnTermination, capioFileModeUpdate)
      fun directory => (engine.getCommitRule directory, engine.getFireRule directory)) := by
  obtain ⟨engine', hnew, hlookup, _⟩ := newFile_lookup h hglob
  rw [storedRules, hnew, Option.map_some, getCommitRule, getFireRule, hlookup, inherited]
  cases engine.longestMatch path engine.locations.keys with
  | none => rfl
  | some directory => rfl

theorem globThrows_reordered (h : UnorderedMap.Reordered engine.locations engine'.locations) :
    engine'.GlobThrows path ↔ engine.GlobThrows path := by
  unfold GlobThrows
  simp only [h.mem]

/-- Which entries match and what their rules are does not depend on the order. -/
theorem getters_reordered (path : CString)
    (h : UnorderedMap.Reordered engine.locations engine'.locations) :
    engine'.matchesDirectory path = engine.matchesDirectory path ∧
      engine'.getCommitRule = engine.getCommitRule ∧ engine'.getFireRule = engine.getFireRule := by
  refine ⟨?_, ?_, ?_⟩
  · funext filename
    rw [matchesDirectory, matchesDirectory, isDirectory, isDirectory, isFile, isFile, h.lookup]
  · funext filename
    rw [getCommitRule, getCommitRule, h.lookup]
  · funext filename
    rw [getFireRule, getFireRule, h.lookup]

theorem storedRules_order_iff (h : path ∉ engine.locations) (hglob : ¬ engine.GlobThrows path) :
    (∀ engine' : CapioCLEngine, UnorderedMap.Reordered engine.locations engine'.locations →
      engine'.storedRules path = engine.storedRules path) ↔
    ∀ directory directory', engine.LongestMatching path directory →
      engine.LongestMatching path directory' →
        engine.getCommitRule directory = engine.getCommitRule directory' ∧
          engine.getFireRule directory = engine.getFireRule directory' := by
  have hrules (m : UnorderedMap CString Location) (hm : UnorderedMap.Reordered engine.locations m) :
      CapioCLEngine.storedRules ⟨m⟩ path =
        some (((m.keys.filter (engine.matchesDirectory path)).argmax List.length).elim
          (capioFileCommittedOnTermination, capioFileModeUpdate)
          fun directory => (engine.getCommitRule directory, engine.getFireRule directory)) := by
    have hm' : UnorderedMap.Reordered engine.locations (CapioCLEngine.mk m).locations := hm
    obtain ⟨hmatches, hcommit, hfire⟩ := getters_reordered path hm'
    rw [storedRules_returns (fun hmem => h ((hm.mem path).mp hmem))
      (fun hthrows => hglob ((globThrows_reordered hm').mp hthrows)), longestMatch, hmatches, hcommit,
      hfire]
  have hiff := UnorderedMap.argmax_order_iff (m := engine.locations) (engine.matchesDirectory path)
    List.length (fun directory => (engine.getCommitRule directory, engine.getFireRule directory))
    (capioFileCommittedOnTermination, capioFileModeUpdate)
  simp only [Prod.mk.injEq] at hiff
  rw [← hiff]
  constructor
  · intro hsame m hm
    have hm' := hsame ⟨m⟩ hm
    rw [hrules m hm, storedRules_returns h hglob, Option.some.injEq] at hm'
    exact hm'
  · intro hsame engine' hperm
    have heq := hsame engine'.locations hperm
    rw [storedRules_returns h hglob]
    exact (hrules engine'.locations hperm).trans (congrArg some heq)

/-- The order of the table decides nothing about a path without an entry exactly when all entries
that a loop could stop at agree. -/
theorem order_irrelevant_iff (engine : CapioCLEngine) (clients : ClientManager) (path : CString)
    (pid : Tid) (h : path ∉ engine.locations) :
    engine.OrderIrrelevant clients path pid ↔ engine.EntriesAgree clients path pid := by
  have hrules : (∀ engine' : CapioCLEngine,
      UnorderedMap.Reordered engine.locations engine'.locations →
        engine'.storedRules path = engine.storedRules path) ↔
      engine.GlobThrows path ∨ ∀ directory directory', engine.LongestMatching path directory →
        engine.LongestMatching path directory' →
          engine.getCommitRule directory = engine.getCommitRule directory' ∧
            engine.getFireRule directory = engine.getFireRule directory' := by
    by_cases hglob : engine.GlobThrows path
    · refine iff_of_true (fun engine' hperm => ?_) (.inl hglob)
      have hthrows := (globThrows_reordered hperm).mpr hglob
      rw [storedRules, storedRules, newFile_throws h hglob,
        newFile_throws (fun hmem => h ((hperm.mem path).mp hmem)) hthrows]
    · rw [storedRules_order_iff h hglob, or_iff_right hglob]
  constructor
  · intro hsame
    exact ⟨(isProducer_order_iff h).mp fun engine' hperm => (hsame engine' hperm).1,
      hrules.mp fun engine' hperm => (hsame engine' hperm).2⟩
  · intro hagree engine' hperm
    exact ⟨(isProducer_order_iff h).mpr hagree.producers engine' hperm,
      hrules.mpr hagree.rules engine' hperm⟩

theorem order_irrelevant_iff_closing : "/c/d/x".toList ∉ closingDirectory.locations ∧
    (closingDirectory.OrderIrrelevant .initial "/c/d/x".toList 1 ↔
      closingDirectory.EntriesAgree .initial "/c/d/x".toList 1) := by
  have h : "/c/d/x".toList ∉ closingDirectory.locations := by decide
  exact ⟨h, order_irrelevant_iff closingDirectory .initial "/c/d/x".toList 1 h⟩

/-- The entry that `parse` makes for `CAPIO_DIR`, and files that an application produces. -/
def producedFiles (first second : CString × List CString) : CapioCLEngine :=
  ⟨((∅ : UnorderedMap CString Location).insert second.1
    { freshLocation defaultRules with producers := second.2 }).insert first.1
    { freshLocation defaultRules with producers := first.2 }⟩

/-- The entry of `CAPIO_DIR` matches every file below it and names no producer. -/
theorem capio_dir_hides_producer : ¬ ∀ (engine : CapioCLEngine) (clients : ClientManager)
    (path : CString) (pid : Tid), path ∉ engine.locations →
      engine.OrderIrrelevant clients path pid := by
  intro hall
  have hsame := hall (producedFiles ("/c".toList, []) ("/c/a*".toList, ["w".toList]))
    (ClientManager.initial.registerNewClient 1 "w".toList) "/c/a1".toList 1 (by decide)
    (producedFiles ("/c/a*".toList, ["w".toList]) ("/c".toList, [])) (List.Perm.swap _ _ _)
  exact absurd hsame.1 (by decide)

end CapioCLEngine
end Capio.Server
