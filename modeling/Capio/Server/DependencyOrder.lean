import Capio.Library.Dependencies
import Capio.Server.CommitPermanence

/-! The dependencies of the location table, and the same table with the dependencies in another
order. -/
namespace Capio.Server
open Library CapioCLEngine Metadata

/-- The first path commits on the second. -/
def CapioCLEngine.CommitsOn (engine : CapioCLEngine) (path dependency : CString) : Prop :=
  engine.getCommitRule path = capioFileCommittedOnFile ∧ dependency ∈ engine.getFileDeps path

def CapioCLEngine.AcyclicDeps (engine : CapioCLEngine) : Prop :=
  ∀ path, ¬ Relation.TransGen engine.CommitsOn path path

/-- The same rules, with the dependencies in any order and any number of times. -/
structure SameUpToRepetition (engine engine' : CapioCLEngine) : Prop where
  commitRule : ∀ path, engine'.getCommitRule path = engine.getCommitRule path
  closeCount : ∀ path, engine'.getCommitCloseCount path = engine.getCommitCloseCount path
  fileCount : ∀ path, engine'.getDirectoryFileCount path = engine.getDirectoryFileCount path
  fileDeps : ∀ path dependency,
    dependency ∈ engine'.getFileDeps path ↔ dependency ∈ engine.getFileDeps path

/-- The dependencies that pass the test are named once more, in front of the others. -/
def CapioCLEngine.putFirst (engine : CapioCLEngine) (test : CString → Bool) : CapioCLEngine :=
  ⟨engine.locations.mapValues fun location => { location with
    fileDependencies := location.fileDependencies.filter test ++ location.fileDependencies }⟩

/-- The path leads to one of the targets. -/
def LeadsTo (engine : CapioCLEngine) (fs : FileSystem) (target : CString → Prop) (path : CString) : Prop :=
  ∃ t, target t ∧ Reaches engine fs path t

/-- Until a target is reached, what leads to one comes first. -/
def LeadsFirst (engine : CapioCLEngine) (fs : FileSystem) (target : CString → Prop) : Prop :=
  ∀ path, ¬ target path → LeadsTo engine fs target path →
    ∃ first rest, engine.getFileDeps path = first :: rest ∧ LeadsTo engine fs target first

variable {engine engine' : CapioCLEngine} {fs : FileSystem} {path q : CString} {target : CString → Prop}

theorem commitsOn_congr (hsame : SameUpToRepetition engine engine') (path dependency : CString) :
    engine'.CommitsOn path dependency ↔ engine.CommitsOn path dependency := by
  unfold CommitsOn
  rw [hsame.commitRule, hsame.fileDeps]

theorem acyclicDeps_congr (hsame : SameUpToRepetition engine engine') :
    engine'.AcyclicDeps ↔ engine.AcyclicDeps := by
  have hrel : engine'.CommitsOn = engine.CommitsOn := by
    funext path dependency
    exact propext (commitsOn_congr hsame path dependency)
  rw [AcyclicDeps, hrel]
  rfl

theorem reaches_congr (hsame : SameUpToRepetition engine engine') (h : Reaches engine fs path q) :
    Reaches engine' fs path q := by
  induction h with
  | refl path => exact .refl path
  | dep hdir hrule hmem _ ih =>
    exact .dep hdir ((hsame.commitRule _).trans hrule) ((hsame.fileDeps _ _).mpr hmem) ih

theorem SameUpToRepetition.refl (engine : CapioCLEngine) : SameUpToRepetition engine engine where
  commitRule _ := rfl
  closeCount _ := rfl
  fileCount _ := rfl
  fileDeps _ _ := Iff.rfl

theorem SameUpToRepetition.symm (hsame : SameUpToRepetition engine engine') :
    SameUpToRepetition engine' engine where
  commitRule path := (hsame.commitRule path).symm
  closeCount path := (hsame.closeCount path).symm
  fileCount path := (hsame.fileCount path).symm
  fileDeps path dependency := (hsame.fileDeps path dependency).symm

theorem reaches_trans {r : CString} (h : Reaches engine fs path q) (h' : Reaches engine fs q r) :
    Reaches engine fs path r := by
  induction h with
  | refl path => exact h'
  | dep hdir hrule hmem _ ih => exact .dep hdir hrule hmem (ih h')

theorem wellFounded_commitsOn (hacyclic : engine.AcyclicDeps) :
    WellFounded fun dependency path => engine.CommitsOn path dependency := by
  refine wellFounded_of_acyclic engine.locations.keys.finite_toSet (fun path dependency h => ?_) hacyclic
  by_contra hnot
  have hnone := AList.lookup_eq_none.mpr fun hmem => hnot (AList.mem_keys.mp hmem)
  have hdeps := h.2
  rw [getFileDeps, hnone] at hdeps
  cases hdeps

/-- Where one file only commits on others, and not on itself, there is no cycle. -/
theorem acyclic_of_one (path : CString)
    (h : ∀ p dependency, engine.CommitsOn p dependency → p = path ∧ dependency ≠ path) : engine.AcyclicDeps := by
  intro p hcycle
  obtain ⟨_, hfirst, _⟩ := Relation.TransGen.head'_iff.mp hcycle
  obtain ⟨_, _, hlast⟩ := Relation.TransGen.tail'_iff.mp hcycle
  exact (h _ _ hlast).2 (h _ _ hfirst).1

/-! ### What comes first -/

theorem getFileDeps_putFirst (test : CString → Bool) (path : CString) : (engine.putFirst test).getFileDeps path =
    (engine.getFileDeps path).filter test ++ engine.getFileDeps path := by
  unfold getFileDeps putFirst
  rw [UnorderedMap.lookup_mapValues]
  cases engine.locations.lookup path <;> rfl

theorem sameUpToRepetition_putFirst (test : CString → Bool) : SameUpToRepetition engine (engine.putFirst test) where
  commitRule path := by
    unfold getCommitRule putFirst
    rw [UnorderedMap.lookup_mapValues]
    cases engine.locations.lookup path <;> rfl
  closeCount path := by
    unfold getCommitCloseCount putFirst
    rw [UnorderedMap.lookup_mapValues]
    cases engine.locations.lookup path <;> rfl
  fileCount path := by
    unfold getDirectoryFileCount putFirst
    rw [UnorderedMap.lookup_mapValues]
    cases engine.locations.lookup path <;> rfl
  fileDeps path dependency := by
    rw [getFileDeps_putFirst, List.mem_append, List.mem_filter]
    exact or_iff_right_of_imp And.left

theorem LeadsTo.congr (hsame : SameUpToRepetition engine engine') (h : LeadsTo engine fs target path) :
    LeadsTo engine' fs target path := by
  obtain ⟨t, ht, hreach⟩ := h
  exact ⟨t, ht, reaches_congr hsame hreach⟩

/-- In some order, what leads to a target comes first everywhere. -/
theorem exists_leadsFirst (engine : CapioCLEngine) (fs : FileSystem) (target : CString → Prop) :
    ∃ engine', SameUpToRepetition engine engine' ∧ LeadsFirst engine' fs target := by
  classical
  have hsame : SameUpToRepetition engine (engine.putFirst fun d => decide (LeadsTo engine fs target d)) :=
    sameUpToRepetition_putFirst _
  refine ⟨_, hsame, fun path hnot hleads => ?_⟩
  obtain ⟨t, ht, hreach⟩ := hleads.congr hsame.symm
  rw [getFileDeps_putFirst]
  cases hreach with
  | refl => exact absurd ht hnot
  | @dep _ file _ _ _ hmem hrest =>
    have hfile : file ∈ (engine.getFileDeps path).filter fun d => decide (LeadsTo engine fs target d) :=
      List.mem_filter.mpr ⟨hmem, decide_eq_true ⟨t, ht, hrest⟩⟩
    cases hfront : (engine.getFileDeps path).filter fun d => decide (LeadsTo engine fs target d) with
    | nil =>
      rw [hfront] at hfile
      cases hfile
    | cons first rest =>
      refine ⟨first, rest ++ engine.getFileDeps path, rfl, ?_⟩
      have hfirst : first ∈ (engine.getFileDeps path).filter fun d => decide (LeadsTo engine fs target d) := by
        rw [hfront]
        exact List.mem_cons_self
      exact (of_decide_eq_true (List.mem_filter.mp hfirst).2 : LeadsTo engine fs target first).congr hsame

/-- What leads on from a path to another one commits on files. -/
theorem LeadsTo.onFile (hnot : ¬ target path) (h : LeadsTo engine fs target path) :
    fs.isDirectory path = false ∧ engine.getCommitRule path = capioFileCommittedOnFile := by
  obtain ⟨t, ht, hreach⟩ := h
  cases hreach with
  | refl => exact absurd ht hnot
  | dep hdir hrule _ _ => exact ⟨hdir, hrule⟩

end Capio.Server
