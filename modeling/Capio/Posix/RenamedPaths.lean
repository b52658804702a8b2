import Capio.Common.PathNormalization
import Capio.Posix.CallVariants

/-! When the tables follow a file or directory to its new name. -/
namespace Capio.Posix
open Library DescriptorTables
open StdPath (fileNames)

def AtOrBelow (oldpath path : CString) : Prop :=
  StdPath.isAbsolute path = true ∧ fileNames oldpath <+: fileNames path

instance (oldpath path : CString) : Decidable (AtOrBelow oldpath path) := inferInstanceAs (Decidable (_ ∧ _))

/-- What the file of an open path is called after `oldpath` has become `newpath`. -/
def rebase (oldpath newpath path : CString) : CString :=
  if AtOrBelow oldpath path then
    match (fileNames path).drop (fileNames oldpath).length with
    | [] => newpath
    | rest => StdPath.append newpath (['/'].intercalate rest)
  else path

theorem rebase_self {oldpath : CString} (h : StdPath.isAbsolute oldpath = true) (newpath : CString) :
    rebase oldpath newpath oldpath = newpath := by
  rw [rebase, if_pos ⟨h, List.prefix_refl _⟩, List.drop_length]

/-- Every open path is called by its new name, and no descriptor is dropped or unlisted. -/
structure Rebased (t t' : DescriptorTables) (oldpath newpath : CString) : Prop where
  paths : ∀ fd, t'.capioFilesDescriptors.lookup fd = (t.capioFilesDescriptors.lookup fd).map (rebase oldpath newpath)
  files : ∀ fd, t'.files.lookup fd = t.files.lookup fd
  listed : ∀ fd path, t'.capioFilesDescriptors.lookup fd = some path →
    ∃ fds, t'.capioFilesPaths.lookup path = some fds ∧ fd ∈ fds

/-- The only open path that the rename changes is the old one, spelled as it is given, and
the new one is not a key if descriptors are open under the old one. -/
structure Rebases (capioDir : CString) (t : DescriptorTables) (oldpath newpath : CString) : Prop where
  unmoved : ∀ fd path, t.capioFilesDescriptors.lookup fd = some path →
    rebase oldpath newpath path = path ∨ path = oldpath ∧ isCapioPath capioDir oldpath = true
  kept : isCapioPath capioDir oldpath = true → ¬ t.LosesSet oldpath newpath

section
variable {t t' : DescriptorTables} {oldpath newpath capioDir : CString}

variable (oldpath newpath) in
/-- The tables of a handler that changes none. -/
theorem rebased_untouched_iff (hc : Consistent t) : Rebased t t oldpath newpath ↔
    ∀ fd path, t.capioFilesDescriptors.lookup fd = some path → rebase oldpath newpath path = path := by
  constructor
  · intro h fd path hpath
    have hrebased := h.paths fd
    rw [hpath, Option.map_some, Option.some.injEq] at hrebased
    exact hrebased.symm
  · intro h
    refine ⟨fun fd => ?_, fun _ => rfl, fun fd path hpath => hc.indexed.listed hpath⟩
    cases hpath : t.capioFilesDescriptors.lookup fd with
    | none => rfl
    | some path => rw [Option.map_some, h fd path hpath]

variable (newpath) in
theorem rebased_renamed_iff (hc : Consistent t) (habs : StdPath.isAbsolute oldpath = true) :
    (∃ t', t.renameCapioPath oldpath newpath = some t' ∧ Rebased t t' oldpath newpath) ↔
      (∀ fd path, t.capioFilesDescriptors.lookup fd = some path → rebase oldpath newpath path = path ∨ path = oldpath) ∧
      ¬ t.LosesSet oldpath newpath := by
  obtain ⟨t', hrename, hfiles, hconsistent, hmoved, hlost⟩ := renameCapioPath_spec hc oldpath newpath
  rw [hrename]
  simp only [Option.some.injEq, exists_eq_left']
  constructor
  · intro h
    have hkept : ¬ t.LosesSet oldpath newpath := by
      intro hloses
      obtain ⟨hgone, hsame⟩ := hlost hloses
      obtain ⟨_, _, fd, hfd⟩ := hloses
      obtain ⟨fds, hfds, _⟩ := h.listed fd oldpath ((hsame fd).trans hfd)
      exact hgone (AList.lookup_isSome.mp (by rw [hfds]; rfl))
    refine ⟨fun fd path hpath => ?_, hkept⟩
    have hrebased := h.paths fd
    rw [hpath, Option.map_some, hmoved hkept fd, hpath] at hrebased
    by_cases hold : path = oldpath
    · exact .inr hold
    · rw [if_neg (fun he => hold (Option.some.inj he)), Option.some.injEq] at hrebased
      exact .inl hrebased.symm
  · rintro ⟨hunmoved, hkept⟩
    refine ⟨fun fd => ?_, fun fd => by rw [hfiles], fun fd path hpath => ?_⟩
    · rw [hmoved hkept fd]
      cases hpath : t.capioFilesDescriptors.lookup fd with
      | none => simp
      | some path =>
        rw [Option.map_some]
        split_ifs with hold
        · rw [Option.some.inj hold, rebase_self habs]
        · rw [(hunmoved fd path hpath).resolve_right fun he => hold (congrArg some he)]
    · exact (hconsistent.mpr hkept).indexed.listed hpath

end

/-- A file open in a directory. -/
def openBelow : DescriptorTables := (initFilesystem.addCapioFd "/c/d/f".toList 3 0 false).getD initFilesystem

theorem openBelow_consistent : Consistent openBelow := by
  have hadd : initFilesystem.addCapioFd "/c/d/f".toList 3 0 false = some openBelow := rfl
  refine (addCapioFd_consistent_iff consistent_init hadd).mpr fun q hq => ?_
  cases hq

end Capio.Posix
