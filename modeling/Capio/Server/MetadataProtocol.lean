import Capio.Library.LockFile
import Capio.Library.Run
import Capio.Server.FileManager

/-! Servers that share the metadata directory. The file operations of
`increaseCloseCount` under its `DistributedSemaphore`, and the token creation of
`setCommitted`, are steps of their own in any order over all servers. The directories
above the tokens stand, and the names of tokens and locks are entered in none of them:
no directory with a file count is taken to lie in the metadata directory. -/
namespace Capio.Server
open Library

/-- Where a server stands in `increaseCloseCount`. -/
inductive Phase where
  | idle
  | spinning (path : CString)
  | locked (path : CString)
  | counted (path : CString) (closeCount : Int)
  | truncated (path : CString) (closeCount : Int)
  | written (path : CString)
  deriving DecidableEq

structure Metadata (ι : Type) where
  fs : FileSystem
  phase : ι → Phase

inductive MetadataAction (ι : Type) where
  | begin (i : ι) (path : CString)
  | lock (i : ι)
  | read (i : ι)
  | truncate (i : ι)
  | write (i : ι)
  | unlock (i : ι)
  | createToken (i : ι) (path : CString)

/-- The server that does a file operation. -/
def MetadataAction.server {ι : Type} : MetadataAction ι → ι
  | .begin i _ | .lock i | .read i | .truncate i | .write i | .unlock i | .createToken i _ => i

namespace Metadata
variable {ι : Type} (env : Env)

/-- The name that `DistributedSemaphore` locks for a path. -/
def lockName (path : CString) : CString := metadataToken env path ++ ".lock".toList

variable [DecidableEq ι]

def goto (s : Metadata ι) (i : ι) (phase : Phase) (fs : FileSystem) : Metadata ι :=
  ⟨fs, Function.update s.phase i phase⟩

theorem phase_goto (s : Metadata ι) (i j : ι) (phase : Phase) (fs : FileSystem) :
    (s.goto i phase fs).phase j = if j = i then phase else s.phase j :=
  Function.update_apply s.phase i phase j

def step (s : Metadata ι) : MetadataAction ι → Option (Metadata ι × Unit)
  | .begin i path =>
    match s.phase i with
    | .idle => some (s.goto i (.spinning path) s.fs, ())
    | _ => none
  | .lock i =>
    match s.phase i with
    | .spinning path =>
      -- `open` with `O_EXCL | O_CREAT` fails, and the server spins on, while the file is there
      if s.fs.fileExists (lockName env path) then none
      else some (s.goto i (.locked path) (s.fs.set (lockName env path) (some (.file []))), ())
    | _ => none
  | .read i =>
    match s.phase i with
    | .locked path =>
      some (s.goto i (.counted path (tokenCount s.fs (metadataToken env path))) s.fs, ())
    | _ => none
  | .truncate i =>
    match s.phase i with
    | .counted path closeCount =>
      let token := metadataToken env path
      if s.fs.isDirectory token then none
      else some (s.goto i (.truncated path closeCount) (s.fs.set token (some (.file []))), ())
    | _ => none
  | .write i =>
    match s.phase i with
    | .truncated path closeCount =>
      some (s.goto i (.written path) (s.fs.set (metadataToken env path)
        (some (.file (printCount (closeCount + 1))))), ())
    | _ => none
  | .unlock i =>
    match s.phase i with
    | .written path => some (s.goto i .idle (s.fs.set (lockName env path) none), ())
    | _ => none
  | .createToken i path =>
    match s.phase i with
    | .idle => some (s.goto i .idle (s.fs.createExclusive (metadataToken env path)), ())
    | _ => none

abbrev Event (ι : Type) := Library.Event (MetadataAction ι) Unit

abbrev Step : Metadata ι → Event ι → Metadata ι → Prop := StepOf (step env)

abbrev Trace (ι : Type) := List (Transition (Metadata ι) (Event ι))

def start (fs : FileSystem) : Metadata ι := ⟨fs, fun _ => .idle⟩

/-- Everything a step can do. -/
inductive Moves (s : Metadata ι) : MetadataAction ι → Metadata ι → Prop
  | begin {i : ι} {path : CString} : s.phase i = .idle →
      Moves s (.begin i path) (s.goto i (.spinning path) s.fs)
  | lock {i : ι} {path : CString} : s.phase i = .spinning path →
      s.fs.fileExists (lockName env path) = false →
      Moves s (.lock i) (s.goto i (.locked path) (s.fs.set (lockName env path) (some (.file []))))
  | read {i : ι} {path : CString} : s.phase i = .locked path →
      Moves s (.read i)
        (s.goto i (.counted path (tokenCount s.fs (metadataToken env path))) s.fs)
  | truncate {i : ι} {path : CString} {closeCount : Int} : s.phase i = .counted path closeCount →
      s.fs.isDirectory (metadataToken env path) = false →
      Moves s (.truncate i) (s.goto i (.truncated path closeCount)
        (s.fs.set (metadataToken env path) (some (.file []))))
  | write {i : ι} {path : CString} {closeCount : Int} : s.phase i = .truncated path closeCount →
      Moves s (.write i) (s.goto i (.written path) (s.fs.set (metadataToken env path)
        (some (.file (printCount (closeCount + 1))))))
  | unlock {i : ι} {path : CString} : s.phase i = .written path →
      Moves s (.unlock i) (s.goto i .idle (s.fs.set (lockName env path) none))
  | createToken {i : ι} {path : CString} : s.phase i = .idle →
      Moves s (.createToken i path)
        (s.goto i .idle (s.fs.createExclusive (metadataToken env path)))

variable {env} {s t : Metadata ι} {e : Event ι}

theorem moves_of_step (h : Step env s e t) : Moves env s e.action t := by
  obtain ⟨action, _⟩ := e
  cases action with
  | begin i path | createToken i path =>
    cases hp : s.phase i <;> simp only [StepOf, step, hp, reduceCtorEq] at h
    cases h
    constructor
    exact hp
  | read i | write i | unlock i =>
    cases hp : s.phase i <;> simp only [StepOf, step, hp, reduceCtorEq] at h
    cases h
    constructor
    exact hp
  | lock i =>
    cases hp : s.phase i <;> simp only [StepOf, step, hp, reduceCtorEq] at h
    split_ifs at h with hfree
    cases h
    exact .lock hp (Bool.eq_false_iff.mpr hfree)
  | truncate i =>
    cases hp : s.phase i <;> simp only [StepOf, step, hp, reduceCtorEq] at h
    split_ifs at h with hdir
    cases h
    exact .truncate hp (Bool.eq_false_iff.mpr hdir)

theorem step_of_moves {a : MetadataAction ι} (h : Moves env s a t) : Step env s ⟨a, ()⟩ t := by
  cases h with
  | begin hp => simp only [StepOf, step, hp]
  | lock hp hfree => simp only [StepOf, step, hp, hfree, Bool.false_eq_true, if_false]
  | read hp => simp only [StepOf, step, hp]
  | truncate hp hdir => simp only [StepOf, step, hp, hdir, Bool.false_eq_true, if_false]
  | write hp => simp only [StepOf, step, hp]
  | unlock hp => simp only [StepOf, step, hp]
  | createToken hp => simp only [StepOf, step, hp]

end Metadata
end Capio.Server
