import Capio.Common.PathNormalization
import Capio.Posix.CallVariants

/-! Relative names after changes of the directory: the kernel's own, and the copy that the
client library resolves names of missing files from. -/
namespace Capio.Posix
open Library

/-- The tables are not touched, and neither is the directory in `env`. -/
def chdirHandler (env : ClientEnv) (view : KernelView) (tid : Int) (pathname : CString) :
    ClientEnv × List Request :=
  if isForbiddenPath pathname then (env, [])
  else
    let path := if StdPath.isAbsolute pathname then pathname else capioPosixRealpath env view pathname
    (env, [.consent tid path "chdir_handler".toList])

/-- The path that the kernel has for the file that a name leads to, where no name on the way is
a symbolic link. -/
def resolve (cwd pathname : CString) : CString :=
  StdPath.rooted
    (StdPath.walk (if StdPath.isAbsolute pathname then [] else StdPath.names cwd) (StdPath.names pathname))

/-- A `chdir` that succeeds. -/
structure ChdirCall where
  tid : Int
  view : KernelView
  pathname : CString

/-- A process as its library and as the kernel see it. -/
structure DirSession where
  env : ClientEnv
  cwd : CString

namespace DirSession

/-- `init_filesystem` takes the directory from `getcwd`. -/
def start (capioDir : CString) (startNames : List CString) : DirSession :=
  ⟨⟨capioDir, StdPath.rooted startNames⟩, StdPath.rooted startNames⟩

def chdir (s : DirSession) (c : ChdirCall) : DirSession :=
  ⟨(chdirHandler s.env c.view c.tid c.pathname).1, resolve s.cwd c.pathname⟩

def after (capioDir : CString) (startNames : List CString) (calls : List ChdirCall) : DirSession :=
  calls.foldl chdir (start capioDir startNames)

end DirSession

/-- A file that exists is found from the kernel's directory, and its real path ends in a name. A
missing one is looked for from where the process started. -/
def ResolvesRight (capioDir : CString) (startNames cwdNames : List CString) (r : CString) : Option CString → Prop
  | some _ => StdPath.endsInName r = true ∨ StdPath.walk cwdNames (StdPath.names r) = []
  | none =>
    startNames.take (startNames.length - (StdPath.route (StdPath.names r)).1) =
      cwdNames.take (cwdNames.length - (StdPath.route (StdPath.names r)).1) ∧
    isCapioPath capioDir (StdPath.lexicallyNormal (StdPath.append (StdPath.rooted cwdNames) r)) = true

theorem chdirHandler_env (env : ClientEnv) (view : KernelView) (tid : Int) (pathname : CString) :
    (chdirHandler env view tid pathname).1 = env := by
  unfold chdirHandler
  split_ifs <;> rfl

section
variable {startNames : List CString} {capioDir : CString}

variable (capioDir) in
/-- The directory of the library stays that of the start, whatever the kernel's is. -/
theorem after_spec (hstart : ∀ name ∈ startNames, StdPath.ValidName name) (calls : List ChdirCall) :
    (DirSession.after capioDir startNames calls).env = ⟨capioDir, StdPath.rooted startNames⟩ ∧
    ∃ cwdNames, (∀ name ∈ cwdNames, StdPath.ValidName name) ∧
      (DirSession.after capioDir startNames calls).cwd = StdPath.rooted cwdNames := by
  induction calls using List.reverseRecOn with
  | nil => exact ⟨rfl, startNames, hstart, rfl⟩
  | append_singleton calls c ih =>
    obtain ⟨henv, cwdNames, hvalid, hcwd⟩ := ih
    have hafter : DirSession.after capioDir startNames (calls ++ [c]) =
        (DirSession.after capioDir startNames calls).chdir c := by simp [DirSession.after]
    rw [hafter, DirSession.chdir]
    refine ⟨(chdirHandler_env _ _ _ _).trans henv, _, StdPath.walk_valid ?_ ?_, rfl⟩
    · split_ifs
      · exact nofun
      · rw [hcwd, StdPath.names_rooted hvalid]
        exact hvalid
    · exact fun part hpart => StdPath.slashFree_of_names hpart

theorem realpath_iff {cwdNames : List CString} (hstart : ∀ name ∈ startNames, StdPath.ValidName name)
    (hvalid : ∀ name ∈ cwdNames, StdPath.ValidName name) {view : KernelView} {r : CString}
    (hrel : StdPath.isAbsolute r = false)
    (hreal : ∀ path, view.realpath r = some path → path = resolve (StdPath.rooted cwdNames) r) :
    capioPosixRealpath ⟨capioDir, StdPath.rooted startNames⟩ view r =
        StdPath.lexicallyNormal (StdPath.append (StdPath.rooted cwdNames) r) ↔
      ResolvesRight capioDir startNames cwdNames r (view.realpath r) := by
  have hnormal := StdPath.lexicallyNormal_append (d := StdPath.rooted cwdNames) rfl hrel
  have hnormal' := StdPath.lexicallyNormal_append (d := StdPath.rooted startNames) rfl hrel
  rw [StdPath.fileNames_rooted hvalid] at hnormal
  rw [StdPath.fileNames_rooted hstart] at hnormal'
  have hfree : ∀ part ∈ StdPath.names r, '/' ∉ part := fun part hpart => StdPath.slashFree_of_names hpart
  cases hfound : view.realpath r with
  | some path =>
    have hpath := hreal path hfound
    rw [resolve, hrel, if_neg Bool.false_ne_true, StdPath.names_rooted hvalid] at hpath
    dsimp only [ResolvesRight]
    rw [capioPosixRealpath_found hfound, hpath, hnormal, StdPath.normalText_slash_iff]
    by_cases hroot : StdPath.walk cwdNames (StdPath.names r) = [] <;> simp [hroot]
  | none =>
    dsimp only [ResolvesRight]
    rw [capioPosixRealpath_missing hfound hrel, ← StdPath.walk_eq_iff]
    constructor
    · intro h
      split_ifs at h with hin
      · rw [← h]
        refine ⟨?_, hin⟩
        have hnames := congrArg StdPath.names h
        rwa [hnormal, hnormal', StdPath.names_normalText (StdPath.walk_valid hstart hfree),
          StdPath.names_normalText (StdPath.walk_valid hvalid hfree)] at hnames
      · rw [hnormal] at h
        cases h
    · rintro ⟨hwalk, hin⟩
      have hsame : StdPath.lexicallyNormal (StdPath.append (StdPath.rooted startNames) r) =
          StdPath.lexicallyNormal (StdPath.append (StdPath.rooted cwdNames) r) := by
        rw [hnormal, hnormal', hwalk]
      rw [hsame, if_pos hin]

end

/-- After any directory changes, a relative name resolves to the normal form of the kernel's
directory joined with it just when the file exists and the name ends properly, or the file is
missing and the name leads to the same place from where the process started. -/
theorem relative_names_follow_iff (capioDir : CString) (startNames : List CString)
    (hstart : ∀ name ∈ startNames, StdPath.ValidName name) (calls : List ChdirCall) (view : KernelView)
    (r : CString) (hrel : StdPath.isAbsolute r = false)
    (hreal : ∀ path, view.realpath r = some path →
      path = resolve (DirSession.after capioDir startNames calls).cwd r) :
    capioPosixRealpath (DirSession.after capioDir startNames calls).env view r =
        StdPath.lexicallyNormal (StdPath.append (DirSession.after capioDir startNames calls).cwd r) ↔
      ResolvesRight capioDir startNames (StdPath.names (DirSession.after capioDir startNames calls).cwd) r
        (view.realpath r) := by
  obtain ⟨henv, cwdNames, hvalid, hcwd⟩ := after_spec capioDir hstart calls
  rw [hcwd] at hreal ⊢
  rw [henv, StdPath.names_rooted hvalid]
  exact realpath_iff hstart hvalid hrel hreal

/-- A process changes from its CAPIO directory to one below it. -/
def enterBelow : List ChdirCall := [⟨7, emptyKernel, "d".toList⟩]

theorem relative_names_follow_iff_enterBelow :
    capioPosixRealpath (DirSession.after "/c".toList ["c".toList] enterBelow).env emptyKernel "../f".toList =
        StdPath.lexicallyNormal
          (StdPath.append (DirSession.after "/c".toList ["c".toList] enterBelow).cwd "../f".toList) ↔
      ResolvesRight "/c".toList ["c".toList]
        (StdPath.names (DirSession.after "/c".toList ["c".toList] enterBelow).cwd) "../f".toList none := by
  refine relative_names_follow_iff "/c".toList ["c".toList] ?_ enterBelow emptyKernel "../f".toList (by decide) ?_
  · intro name hname
    obtain rfl := List.mem_singleton.mp hname
    exact ⟨by decide, by decide, by decide, by decide⟩
  · intro path hpath
    cases hpath

/-- The name of a file to be created is taken from the directory that the process has left. -/
theorem new_file_misplaced :
    isCapioPath "/c".toList (StdPath.lexicallyNormal
      (StdPath.append (DirSession.after "/c".toList ["c".toList] enterBelow).cwd "f".toList)) = true ∧
    capioPosixRealpath (DirSession.after "/c".toList ["c".toList] enterBelow).env emptyKernel "f".toList ≠
      StdPath.lexicallyNormal
        (StdPath.append (DirSession.after "/c".toList ["c".toList] enterBelow).cwd "f".toList) := by
  decide

end Capio.Posix
