import Capio.Server.CloseCount

/-! Whether a file that was committed stays committed while the servers go on
closing and committing files. The token is rewritten in place and read without
its lock, so the count is gone between the truncation and the write. -/
namespace Capio.Server.Metadata
open Library

/-- The files on whose own state the commit state of a path rests. -/
inductive Reaches (engine : CapioCLEngine) (fs : FileSystem) : CString → CString → Prop
  | refl (path : CString) : Reaches engine fs path path
  | dep {path file q : CString} : fs.isDirectory path = false →
      engine.getCommitRule path = capioFileCommittedOnFile → file ∈ engine.getFileDeps path →
      Reaches engine fs file q → Reaches engine fs path q

variable {ι : Type} {env : Env} {engine : CapioCLEngine} {s t : Metadata ι}

/-- Some server has truncated the token of a path and not written it yet. -/
def BeingRewritten (env : Env) (s : Metadata ι) (path : CString) : Prop :=
  ∃ i q n, s.phase i = .truncated q n ∧ token env q = token env path

/-- No token whose count the commit state rests on is being rewritten. -/
def CountsReadable (env : Env) (engine : CapioCLEngine) (s : Metadata ι) (path : CString) : Prop :=
  ∀ q, Reaches engine s.fs path q → s.fs.isDirectory q = false →
    engine.getCommitRule q = capioFileCommittedOnClose → 1 ≤ engine.getCommitCloseCount q →
    ¬ BeingRewritten env s q

/-- What the steps of the servers can only increase. -/
structure Advanced (env : Env) (s t : Metadata ι) : Prop where
  directories : ∀ path entries,
    s.fs.node path = some (.directory entries) ↔ t.fs.node path = some (.directory entries)
  tokens : ∀ path, s.fs.fileExists (token env path) = true → t.fs.fileExists (token env path) = true

theorem Advanced.isDirectory (h : Advanced env s t) (path : CString) :
    s.fs.isDirectory path = t.fs.isDirectory path := by
  unfold FileSystem.isDirectory
  cases hs : s.fs.node path with
  | none =>
    cases ht : t.fs.node path with
    | none => rfl
    | some n =>
      cases n with
      | file content => rfl
      | directory entries =>
        rw [(h.directories path entries).mpr ht] at hs
        cases hs
  | some n =>
    cases n with
    | directory entries => rw [(h.directories path entries).mp hs]
    | file content =>
      cases ht : t.fs.node path with
      | none => rfl
      | some n =>
        cases n with
        | file content => rfl
        | directory entries =>
          rw [(h.directories path entries).mpr ht] at hs
          cases hs

private theorem set_directories {fs : FileSystem} {path : CString} {n : Option Node}
    (hold : ∀ entries, fs.node path ≠ some (.directory entries))
    (hnew : ∀ entries, n ≠ some (.directory entries)) (q : CString) (entries : List CString) :
    fs.node q = some (.directory entries) ↔ (fs.set path n).node q = some (.directory entries) := by
  rw [FileSystem.set_node]
  split_ifs with hq
  · subst hq
    exact iff_of_false (hold entries) (hnew entries)
  · exact Iff.rfl

private theorem set_exists {fs : FileSystem} {path q : CString} {n : Node}
    (h : fs.fileExists q = true) : (fs.set path (some n)).fileExists q = true := by
  unfold FileSystem.fileExists at h ⊢
  rw [FileSystem.set_node]
  split_ifs
  · rfl
  · exact h

private theorem isFile_ne_directory {fs : FileSystem} {path : CString} (h : IsFile fs path)
    (entries : List CString) : fs.node path ≠ some (.directory entries) := by
  obtain ⟨content, hc⟩ := h
  rw [hc]
  simp

variable [DecidableEq ι] {e : Event ι}

theorem advanced_step (hi : Coherent env s) (h : Step env s e t) : Advanced env s t := by
  obtain ⟨action, sent⟩ := e
  have hm : Moves env s action t := moves_of_step h
  cases hm with
  | begin _ => exact ⟨fun _ _ => Iff.rfl, fun _ => id⟩
  | read _ => exact ⟨fun _ _ => Iff.rfl, fun _ => id⟩
  | lock _ hfree =>
    refine ⟨set_directories ?_ (by simp), fun _ => set_exists⟩
    intro entries hn
    rw [FileSystem.fileExists, hn] at hfree
    cases hfree
  | truncate _ hdir =>
    refine ⟨set_directories ?_ (by simp), fun _ => set_exists⟩
    intro entries hn
    rw [FileSystem.isDirectory, hn] at hdir
    cases hdir
  | @write i path n hp =>
    exact ⟨set_directories (isFile_ne_directory (hi.present i path n hp)) (by simp), fun _ => set_exists⟩
  | @unlock i path hp =>
    have hfile : IsFile s.fs (lockName env path) :=
      hi.exclusion.taken i (lockName env path) (by rw [holds, hp]; rfl)
    refine ⟨set_directories (isFile_ne_directory hfile) (by simp), ?_⟩
    intro q hq
    unfold FileSystem.fileExists at hq ⊢
    dsimp only [goto]
    rw [FileSystem.set_node, if_neg (token_ne_lockName env q path), hq]
  | @createToken i path hp =>
    refine ⟨?_, ?_⟩
    · intro q entries
      dsimp only [goto]
      rw [FileSystem.createExclusive_node]
      split_ifs with hq
      · subst hq
        cases hn : s.fs.node (metadataToken env path) <;> simp
      · exact Iff.rfl
    · intro q hq
      dsimp only [goto]
      rw [FileSystem.createExclusive_exists, hq, Bool.or_true]

theorem advanced_run {ts : Trace ι} (hi : Coherent env s) (h : Run (Step env) s ts t) :
    Advanced env s t := by
  induction h with
  | nil => exact ⟨fun _ _ => Iff.rfl, fun _ => id⟩
  | snoc hrun hstep ih =>
    have hlast := advanced_step (coherent_run hi hrun) hstep
    exact ⟨fun path entries => (ih.directories path entries).trans (hlast.directories path entries),
      fun path hp => hlast.tokens path (ih.tokens path hp)⟩

section Readable
omit [DecidableEq ι]
variable {path : CString}

private theorem countsReadable_directory (h : t.fs.isDirectory path = true) :
    CountsReadable env engine t path := by
  intro q hq hfile
  cases hq with
  | refl => rw [h] at hfile; cases hfile
  | dep hpath => rw [h] at hpath; cases hpath

private theorem countsReadable_onFile (h : t.fs.isDirectory path = false)
    (hr : engine.getCommitRule path = capioFileCommittedOnFile) :
    CountsReadable env engine t path ↔ ∀ file ∈ engine.getFileDeps path, CountsReadable env engine t file := by
  constructor
  · intro hread file hfile q hq
    exact hread q (.dep h hr hfile hq)
  · intro hread q hq hdir hclose
    cases hq with
    | refl => exact absurd (hr.symm.trans hclose) (by decide)
    | dep _ _ hfile hrest => exact hread _ hfile q hrest hdir hclose

/-- Only `on_file` looks at other files. -/
private theorem reaches_self (hr : engine.getCommitRule path ≠ capioFileCommittedOnFile) {q : CString}
    (h : Reaches engine t.fs path q) : q = path := by
  cases h with
  | refl => rfl
  | dep _ hf => exact absurd hf hr

private theorem countsReadable_onClose (h : t.fs.isDirectory path = false)
    (hr : engine.getCommitRule path = capioFileCommittedOnClose) :
    CountsReadable env engine t path ↔ (1 ≤ engine.getCommitCloseCount path → ¬ BeingRewritten env t path) := by
  constructor
  · intro hread hpos
    exact hread path (.refl path) h hr hpos
  · intro hread q hq _ _ hpos
    obtain rfl := reaches_self (by rw [hr]; decide) hq
    exact hread hpos

private theorem countsReadable_other (hf : engine.getCommitRule path ≠ capioFileCommittedOnFile)
    (hc : engine.getCommitRule path ≠ capioFileCommittedOnClose) : CountsReadable env engine t path := by
  intro q hq _ hclose
  obtain rfl := reaches_self hf hq
  exact absurd hclose hc

end Readable

/-- No token holds a negative number: the servers count from 0 upwards. -/
def NonNegative (env : Env) (fs : FileSystem) : Prop := ∀ path, 0 ≤ tokenCount fs (token env path)

section Later
variable {ts us : Trace ι} {fs : FileSystem}

/-- The count at any point is at least what an earlier reader saw. -/
private theorem count_grows (hn : NonNegative env fs) (hs : Run (Step env) (start fs) ts s)
    (ht : Run (Step env) s us t) (path : CString) :
    ∃ n, Counts env t (token env path) n ∧ 0 ≤ n ∧ tokenCount s.fs (token env path) ≤ n := by
  have hi := coherent_run (coherent_start env fs) hs
  have hzero : Counts env (start fs : Metadata ι) (token env path) (tokenCount fs (token env path)) :=
    .inr ⟨fun _ _ _ hp => (nomatch hp), rfl⟩
  have hcs := counts_run (coherent_start env fs) hs hzero
  have hct := counts_run hi ht hcs
  have hstart := hn path
  refine ⟨_, hct, by omega, ?_⟩
  rcases hcs with ⟨i, q, hp, htk⟩ | ⟨_, hcount⟩
  · have hempty := hi.emptied i q _ hp
    rw [htk] at hempty
    omega
  · rw [hcount]
    omega

omit [DecidableEq ι] in
private theorem tokenCount_of_counts (hi : Coherent env t) {path : CString} {n : Int}
    (h : Counts env t (token env path) n) :
    BeingRewritten env t path ∧ tokenCount t.fs (token env path) = 0 ∨
      ¬ BeingRewritten env t path ∧ tokenCount t.fs (token env path) = n := by
  rcases h with ⟨i, q, hp, htk⟩ | ⟨hnone, hcount⟩
  · exact .inl ⟨⟨i, q, n, hp, htk⟩, by rw [← htk, hi.emptied i q n hp]⟩
  · exact .inr ⟨fun ⟨i, q, m, hp, htk⟩ => hnone i q m hp htk, hcount⟩

/-- A file committed by its close count is so later while its token can be read. -/
private theorem committed_onClose_later (hn : NonNegative env fs) (hs : Run (Step env) (start fs) ts s)
    (ht : Run (Step env) s us t) {path : CString} {depth : Nat} (hfile : s.fs.isDirectory path = false)
    (hr : engine.getCommitRule path = capioFileCommittedOnClose)
    (hc : isCommittedWithin env engine s.fs (depth + 1) path = some true) :
    isCommittedWithin env engine t.fs (depth + 1) path = some true ↔
      (1 ≤ engine.getCommitCloseCount path → ¬ BeingRewritten env t path) := by
  have hi := coherent_run (coherent_start env fs) hs
  have hadv := advanced_run hi ht
  obtain ⟨n, hcounts, hpos, hle⟩ := count_grows hn hs ht path
  obtain ⟨htoken, hcount⟩ := (committedWithin_onClose hfile hr).mp hc
  rw [← token] at hcount
  rw [committedWithin_onClose (hadv.isDirectory path ▸ hfile) hr, ← token,
    and_iff_right (hadv.tokens path htoken)]
  rcases tokenCount_of_counts (coherent_run hi ht) hcounts with ⟨hrewritten, hzero⟩ | ⟨hquiet, hsame⟩
  · rw [hzero]
    constructor
    · intro hle hpos
      omega
    · intro hquiet
      by_contra hlt
      exact hquiet (by omega) hrewritten
  · rw [hsame]
    refine iff_of_true ?_ (fun _ => hquiet)
    omega

/-- The commit state seen at any point is seen at a later one just when the counts
it rests on can be read there. -/
private theorem committedWithin_later (hn : NonNegative env fs) (hs : Run (Step env) (start fs) ts s)
    (ht : Run (Step env) s us t) (depth : Nat) (path : CString)
    (hc : isCommittedWithin env engine s.fs depth path = some true) :
    isCommittedWithin env engine t.fs depth path = some true ↔ CountsReadable env engine t path := by
  have hadv := advanced_run (coherent_run (coherent_start env fs) hs) ht
  induction depth generalizing path with
  | zero => cases hc
  | succ depth ih =>
    cases hdir : s.fs.isDirectory path with
    | true =>
      obtain ⟨entries, hnode⟩ := FileSystem.isDirectory_iff.mp hdir
      rw [isCommittedWithin_directory hnode] at hc
      rw [isCommittedWithin_directory ((hadv.directories path entries).mp hnode), hc]
      exact iff_of_true rfl (countsReadable_directory (hadv.isDirectory path ▸ hdir))
    | false =>
      have hfile : t.fs.isDirectory path = false := hadv.isDirectory path ▸ hdir
      by_cases hf : engine.getCommitRule path = capioFileCommittedOnFile
      · rw [isCommittedWithin_onFile hdir hf, foldlM_committed] at hc
        rw [isCommittedWithin_onFile hfile hf, foldlM_committed, countsReadable_onFile hfile hf]
        exact forall₂_congr (fun file hmem => ih file (hc file hmem))
      · by_cases hr : engine.getCommitRule path = capioFileCommittedOnClose
        · rw [countsReadable_onClose hfile hr]
          exact committed_onClose_later hn hs ht hdir hr hc
        · rw [isCommittedWithin_other hdir hf hr, Option.some.injEq] at hc
          rw [isCommittedWithin_other hfile hf hr, Option.some.injEq]
          exact iff_of_true (hadv.tokens path hc) (countsReadable_other hf hr)

/-- A committed file is committed at a later point of the run exactly when nobody is
rewriting a token that its commit state rests on there. The lock files come and go in the metadata
directory alone, where no directory with a file count is taken to lie. -/
theorem commit_permanent_iff {path : CString} (hn : NonNegative env fs)
    (hs : Run (Step env) (start fs) ts s) (ht : Run (Step env) s us t)
    (hc : isCommitted env engine s.fs path = some true) :
    isCommitted env engine t.fs path = some true ↔ CountsReadable env engine t path :=
  committedWithin_later hn hs ht _ path hc

end Later

/-- A workflow with one file, committed when it has been closed once. -/
def closedOnce : CapioCLEngine :=
  ⟨(∅ : UnorderedMap CString Location).insert "/c/f".toList
    { producers := ["w".toList], consumers := [], commitRule := capioFileCommittedOnClose,
      fireRule := capioFileModeUpdate, permanent := false, exclude := false, isFile := true,
      commitOnCloseNumber := 1, directoryFileCount := -1, fileDependencies := [] }⟩

def onlyFile : FileSystem := ⟨fun path => if path = "/c/f".toList then some (.file []) else none⟩

private theorem onlyFile_nonNegative (env : Env) : NonNegative env onlyFile := by
  intro path
  unfold tokenCount onlyFile
  dsimp only
  split_ifs
  · exact le_refl 0
  · exact le_refl 0

/-- One server closes the file; then another has truncated the token again. -/
private theorem closedTwice : ∃ (ts us : Trace Bool) (s t : Metadata Bool),
    Run (Step ⟨"/c".toList, none⟩) (start onlyFile) ts s ∧ Run (Step ⟨"/c".toList, none⟩) s us t ∧
      isCommitted ⟨"/c".toList, none⟩ closedOnce s.fs "/c/f".toList = some true ∧
      isCommitted ⟨"/c".toList, none⟩ closedOnce t.fs "/c/f".toList = some false := by
  let env : Env := ⟨"/c".toList, none⟩
  let path := "/c/f".toList
  obtain ⟨ts, s, hs, _, hp⟩ := execute_any (step env) (start onlyFile)
    [.begin false path, .lock false, .read false, .truncate false, .write false, .unlock false]
    (fun _ s => decide (isCommitted env closedOnce s.fs path = some true) &&
      (execute (step env) s [.begin true path, .lock true, .read true, .truncate true]).any
        (fun r => decide (isCommitted env closedOnce r.2.fs path = some false))) (by decide)
  rw [Bool.and_eq_true, decide_eq_true_eq, Option.any_eq_true] at hp
  obtain ⟨hc, ⟨us, t⟩, ht, hd⟩ := hp
  exact ⟨ts, us, s, t, hs, (execute_run ht).1, hc, of_decide_eq_true hd⟩

theorem commit_permanent_iff_closedTwice : ∃ (ts us : Trace Bool) (s t : Metadata Bool),
    Run (Step ⟨"/c".toList, none⟩) (start onlyFile) ts s ∧ Run (Step ⟨"/c".toList, none⟩) s us t ∧
      ¬ CountsReadable ⟨"/c".toList, none⟩ closedOnce t "/c/f".toList := by
  obtain ⟨ts, us, s, t, hs, ht, hc, hd⟩ := closedTwice
  refine ⟨ts, us, s, t, hs, ht, ?_⟩
  rw [← commit_permanent_iff (onlyFile_nonNegative _) hs ht hc, hd]
  simp

/-- The second closer takes back what was committed. -/
theorem commit_withdrawn : ¬ ∀ (ts us : Trace Bool) (s t : Metadata Bool),
    Run (Step ⟨"/c".toList, none⟩) (start onlyFile) ts s → Run (Step ⟨"/c".toList, none⟩) s us t →
      isCommitted ⟨"/c".toList, none⟩ closedOnce s.fs "/c/f".toList = some true →
      isCommitted ⟨"/c".toList, none⟩ closedOnce t.fs "/c/f".toList = some true := by
  intro hall
  obtain ⟨ts, us, s, t, hs, ht, hc, hd⟩ := closedTwice
  rw [hall ts us s t hs ht hc] at hd
  cases hd

end Capio.Server.Metadata
