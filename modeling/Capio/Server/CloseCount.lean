import Capio.Server.Handlers
import Capio.Server.MetadataProtocol

/-! The close count of a token over all servers: mutual exclusion of the lock file,
and the count that a server reads, truncates and writes back under it. -/
namespace Capio.Server.Metadata
open Library

def token (env : Env) (path : CString) : CString := metadataToken env path

private theorem append_ends (p q : CString) : ∃ front, StdPath.append p q = front ++ q := by
  unfold StdPath.append
  split_ifs
  · exact ⟨[], rfl⟩
  · exact ⟨p ++ ['/'], by rw [List.append_assoc, List.singleton_append]⟩
  · exact ⟨p, rfl⟩

private theorem token_ends (env : Env) (path : CString) :
    ∃ front, token env path = front ++ ".capio".toList := by
  obtain ⟨front, hf⟩ : ∃ front, token env path = front ++ (path.drop _ ++ ".capio".toList) :=
    append_ends _ _
  exact ⟨_, hf.trans (List.append_assoc _ _ _).symm⟩

/-- Tokens end in `.capio` and lock files in `.lock`. -/
theorem token_ne_lockName (env : Env) (path q : CString) : token env path ≠ lockName env q := by
  obtain ⟨front, hf⟩ := token_ends env path
  intro h
  have htoken : (token env path).getLast? = some 'o' := by
    rw [hf, List.getLast?_append]
    rfl
  have hlock : (lockName env q).getLast? = some 'k' := by
    unfold lockName
    rw [List.getLast?_append]
    rfl
  rw [h, hlock] at htoken
  exact absurd htoken (by decide)

theorem lockName_eq_iff (env : Env) (path q : CString) :
    lockName env path = lockName env q ↔ token env path = token env q :=
  List.append_left_inj _

/-- The path whose lock file a server holds. -/
def Phase.critical : Phase → Option CString
  | .locked path | .counted path _ | .truncated path _ | .written path => some path
  | _ => none

variable {ι : Type} {env : Env} {s t : Metadata ι} {e : Event ι}

def holds (env : Env) (s : Metadata ι) (i : ι) : Option CString :=
  (Phase.critical (s.phase i)).map (lockName env)

def IsFile (fs : FileSystem) (path : CString) : Prop := ∃ content, fs.node path = some (.file content)

/-- One server at a time holds a lock file, and between reading and writing it
knows the count of the token. -/
structure Coherent (env : Env) (s : Metadata ι) : Prop where
  exclusion : Excludes (holds env s) (IsFile s.fs)
  counted : ∀ i path n, s.phase i = .counted path n → tokenCount s.fs (token env path) = n
  emptied : ∀ i path n, s.phase i = .truncated path n → tokenCount s.fs (token env path) = 0
  present : ∀ i path n, s.phase i = .truncated path n → IsFile s.fs (token env path)

/-- Two servers between lock and unlock of one token are one. -/
theorem Coherent.same (hi : Coherent env s) {i j : ι} {path q : CString}
    (hp : Phase.critical (s.phase i) = some path) (hq : Phase.critical (s.phase j) = some q)
    (h : token env path = token env q) : i = j := by
  refine hi.exclusion.unique i j (lockName env path) ?_ ?_
  · rw [holds, hp]
    rfl
  · rw [holds, hq, (lockName_eq_iff env path q).mpr h]
    rfl

variable [DecidableEq ι]

private theorem holds_goto (i : ι) (phase : Phase) (fs : FileSystem) :
    holds env (s.goto i phase fs) =
      Function.update (holds env s) i ((Phase.critical phase).map (lockName env)) := by
  funext j
  unfold holds
  dsimp only [goto]
  rw [Function.update_apply, Function.update_apply]
  split_ifs <;> rfl

private theorem holds_goto_same {i : ι} {phase : Phase} (fs : FileSystem)
    (h : Phase.critical phase = Phase.critical (s.phase i)) : holds env (s.goto i phase fs) = holds env s := by
  rw [holds_goto, h]
  exact Function.update_eq_self i (holds env s)

private theorem isFile_set (fs : FileSystem) (path content k : CString) (h : IsFile fs k) :
    IsFile (fs.set path (some (.file content))) k := by
  unfold IsFile
  rw [FileSystem.set_node]
  split_ifs
  · exact ⟨content, rfl⟩
  · exact h

private theorem isFile_createExclusive (fs : FileSystem) (path k : CString) (h : IsFile fs k) :
    IsFile (fs.createExclusive path) k := by
  unfold IsFile
  rw [FileSystem.createExclusive_node]
  obtain ⟨content, hc⟩ := h
  split_ifs with hk
  · exact ⟨content, by rw [← hk, hc, Option.getD_some]⟩
  · exact ⟨content, hc⟩

/-- A step of one server that leaves the counts of the tokens locked by others. -/
private theorem coherent_goto (hi : Coherent env s) {i : ι} {phase : Phase} {fs : FileSystem}
    (hex : Excludes (holds env (s.goto i phase fs)) (IsFile fs))
    (hcounted : ∀ path n, phase = .counted path n → tokenCount fs (token env path) = n)
    (hemptied : ∀ path n, phase = .truncated path n → tokenCount fs (token env path) = 0)
    (hothers : ∀ j path, j ≠ i → Phase.critical (s.phase j) = some path →
      tokenCount fs (token env path) = tokenCount s.fs (token env path))
    (hpresent : ∀ path n, phase = .truncated path n → IsFile fs (token env path))
    (hfiles : ∀ path, IsFile s.fs (token env path) → IsFile fs (token env path)) :
    Coherent env (s.goto i phase fs) := by
  refine ⟨hex, ?_, ?_, ?_⟩
  · intro j path n hj
    rw [phase_goto] at hj
    dsimp only [goto]
    split_ifs at hj with hji
    · exact hcounted path n hj
    · rw [hothers j path hji (by rw [hj]; rfl)]
      exact hi.counted j path n hj
  · intro j path n hj
    rw [phase_goto] at hj
    dsimp only [goto]
    split_ifs at hj with hji
    · exact hemptied path n hj
    · rw [hothers j path hji (by rw [hj]; rfl)]
      exact hi.emptied j path n hj
  · intro j path n hj
    rw [phase_goto] at hj
    dsimp only [goto]
    split_ifs at hj with hji
    · exact hpresent path n hj
    · exact hfiles path (hi.present j path n hj)

omit [DecidableEq ι] in
/-- Writing the token of a path leaves those that other servers have locked. -/
private theorem others_kept (hi : Coherent env s) {i : ι} {path : CString}
    (hp : Phase.critical (s.phase i) = some path) (content : CString) (j : ι) (q : CString) (hj : j ≠ i)
    (hq : Phase.critical (s.phase j) = some q) :
    tokenCount (s.fs.set (token env path) (some (.file content))) (token env q) =
      tokenCount s.fs (token env q) :=
  tokenCount_set_ne s.fs _ (fun he => hj (hi.same hq hp he))

theorem coherent_step (hi : Coherent env s) (h : Step env s e t) : Coherent env t := by
  obtain ⟨action, sent⟩ := e
  have hm : Moves env s action t := moves_of_step h
  cases hm with
  | begin hp =>
    refine coherent_goto hi ?_ (by simp) (by simp) (fun _ _ _ _ => rfl) (by simp) (fun _ => id)
    rw [holds_goto_same _ (by rw [hp]; rfl)]
    exact hi.exclusion
  | lock hp hfree =>
    refine coherent_goto hi ?_ (by simp) (by simp) ?_ (by simp) (fun _ => isFile_set _ _ _ _)
    · rw [holds_goto]
      refine hi.exclusion.acquire ?_ ⟨[], by simp⟩ (fun l => isFile_set _ _ _ l)
      rintro ⟨content, hc⟩
      rw [FileSystem.fileExists, hc] at hfree
      cases hfree
    · exact fun j q _ _ => tokenCount_set_ne s.fs _ (token_ne_lockName env q _)
  | @read i path hp =>
    refine coherent_goto hi ?_ ?_ (by simp) (fun _ _ _ _ => rfl) (by simp) (fun _ => id)
    · rw [holds_goto_same _ (by rw [hp]; rfl)]
      exact hi.exclusion
    · rintro q n he
      cases he
      rfl
  | truncate hp _ =>
    refine coherent_goto hi ?_ (by simp) ?_ (others_kept hi (by rw [hp]; rfl) []) ?_
      (fun _ => isFile_set _ _ _ _)
    · rw [holds_goto_same _ (by rw [hp]; rfl)]
      exact hi.exclusion.mono (fun l => isFile_set _ _ _ l)
    · rintro q n he
      cases he
      rw [token, tokenCount_set, if_pos rfl]
      rfl
    · rintro q n he
      cases he
      exact ⟨[], by rw [FileSystem.set_node, token, if_pos rfl]⟩
  | write hp =>
    refine coherent_goto hi ?_ (by simp) (by simp) (others_kept hi (by rw [hp]; rfl) _) (by simp)
      (fun _ => isFile_set _ _ _ _)
    rw [holds_goto_same _ (by rw [hp]; rfl)]
    exact hi.exclusion.mono (fun l => isFile_set _ _ _ l)
  | unlock hp =>
    refine coherent_goto hi ?_ (by simp) (by simp)
      (fun j q _ _ => tokenCount_set_ne s.fs _ (token_ne_lockName env q _)) (by simp) ?_
    · rw [holds_goto]
      apply hi.exclusion.release (by rw [holds, hp]; rfl)
      rintro l hl ⟨content, hc⟩
      exact ⟨content, by rw [FileSystem.set_node, if_neg hl, hc]⟩
    · rintro q ⟨content, hc⟩
      exact ⟨content, by rw [FileSystem.set_node, if_neg (token_ne_lockName env q _), hc]⟩
  | createToken hp =>
    refine coherent_goto hi ?_ (by simp) (by simp)
      (fun j q _ _ => tokenCount_createExclusive s.fs _ _) (by simp) (fun _ => isFile_createExclusive _ _ _)
    rw [holds_goto_same _ (by rw [hp])]
    exact hi.exclusion.mono (fun l => isFile_createExclusive _ _ l)

omit [DecidableEq ι] in
theorem coherent_start (env : Env) (fs : FileSystem) : Coherent env (start fs : Metadata ι) :=
  ⟨.none _, fun _ _ _ h => (nomatch h), fun _ _ _ h => (nomatch h), fun _ _ _ h => (nomatch h)⟩

/-- The count of a token, also while a server has truncated the file. -/
def Counts (env : Env) (s : Metadata ι) (tk : CString) (n : Int) : Prop :=
  (∃ i path, s.phase i = .truncated path n ∧ token env path = tk) ∨
  (∀ i path m, s.phase i = .truncated path m → token env path ≠ tk) ∧ tokenCount s.fs tk = n

/-- A step that writes the count of a token, and one that ends a run of
`increaseCloseCount` on it. -/
def writes (env : Env) (tk : CString) (x : Transition (Metadata ι) (Event ι)) : Bool :=
  match x.label.action with
  | .write i =>
    match x.source.phase i with
    | .truncated path _ => token env path = tk
    | _ => false
  | _ => false

def completes (env : Env) (tk : CString) (x : Transition (Metadata ι) (Event ι)) : Bool :=
  match x.label.action with
  | .unlock i =>
    match x.source.phase i with
    | .written path => token env path = tk
    | _ => false
  | _ => false

/-- A step of a server that neither has truncated the token nor does so now, and
leaves what can be read of it. -/
private theorem counts_goto {tk : CString} {n : Int} (hn : Counts env s tk n) {i : ι} {phase : Phase}
    {fs : FileSystem} (hs : ∀ path m, s.phase i = .truncated path m → token env path ≠ tk)
    (ht : ∀ path m, phase = .truncated path m → token env path ≠ tk)
    (hfs : tokenCount fs tk = tokenCount s.fs tk) : Counts env (s.goto i phase fs) tk n := by
  rcases hn with ⟨j, path, hp, htk⟩ | ⟨hnone, hcount⟩
  · refine .inl ⟨j, path, ?_, htk⟩
    rw [phase_goto, if_neg (by rintro rfl; exact hs path n hp htk), hp]
  · refine .inr ⟨?_, hfs.trans hcount⟩
    intro j path m hp
    rw [phase_goto] at hp
    split_ifs at hp
    · exact ht path m hp
    · exact hnone j path m hp

private theorem counts_truncate (hi : Coherent env s) {tk : CString} {n : Int} (hn : Counts env s tk n)
    {i : ι} {path : CString} {m : Int} (hp : s.phase i = .counted path m) :
    Counts env (s.goto i (.truncated path m) (s.fs.set (token env path) (some (.file [])))) tk n := by
  by_cases htk : token env path = tk
  · rcases hn with ⟨j, q, hq, hqtk⟩ | ⟨_, hcount⟩
    · have hij : i = j := hi.same (by rw [hp]; rfl) (by rw [hq]; rfl) (htk.trans hqtk.symm)
      rw [← hij, hp] at hq
      cases hq
    · have hm := hi.counted i path m hp
      rw [htk, hcount] at hm
      exact .inl ⟨i, path, by rw [phase_goto, if_pos rfl, hm], htk⟩
  · refine counts_goto hn (by simp [hp]) ?_ (tokenCount_set_ne s.fs _ (Ne.symm htk))
    rintro q k he
    cases he
    exact htk

private theorem counts_write (hi : Coherent env s) {tk : CString} {n : Int} (hn : Counts env s tk n)
    {i : ι} {path : CString} {m : Int} (hp : s.phase i = .truncated path m) :
    Counts env (s.goto i (.written path) (s.fs.set (token env path) (some (.file (printCount (m + 1))))))
      tk (if token env path = tk then n + 1 else n) := by
  have hsame {j : ι} {q : CString} {k : Int} (hq : s.phase j = .truncated q k)
      (he : token env q = token env path) : j = i :=
    hi.same (by rw [hq]; rfl) (by rw [hp]; rfl) he
  split_ifs with htk
  · have hm : m = n := by
      rcases hn with ⟨j, q, hq, hqtk⟩ | ⟨hnone, _⟩
      · rw [hsame hq (hqtk.trans htk.symm), hp] at hq
        cases hq
        rfl
      · exact absurd htk (hnone i path m hp)
    refine .inr ⟨?_, ?_⟩
    · intro j q k hq hqtk
      rw [phase_goto] at hq
      split_ifs at hq with hj
      exact hj (hsame hq (hqtk.trans htk.symm))
    · dsimp only [goto]
      rw [tokenCount_set, if_pos htk.symm, readCount_printCount, hm]
  · refine counts_goto hn ?_ (by simp) (tokenCount_set_ne s.fs _ (Ne.symm htk))
    rintro q k he
    rw [hp] at he
    cases he
    exact htk

/-- The count of a token rises by one with each write and never otherwise. -/
theorem counts_step (hi : Coherent env s) (h : Step env s e t) {q : CString} {n : Int}
    (hn : Counts env s (token env q) n) : Counts env t (token env q)
      (if writes env (token env q) ⟨s, e, t⟩ = true then n + 1 else n) := by
  obtain ⟨action, sent⟩ := e
  have hm : Moves env s action t := moves_of_step h
  cases hm with
  | begin hp => exact counts_goto hn (by simp [hp]) (by simp) rfl
  | lock hp _ =>
    exact counts_goto hn (by simp [hp]) (by simp) (tokenCount_set_ne s.fs _ (token_ne_lockName env q _))
  | read hp => exact counts_goto hn (by simp [hp]) (by simp) rfl
  | truncate hp _ => exact counts_truncate hi hn hp
  | write hp =>
    simp only [writes, hp, decide_eq_true_eq]
    exact counts_write hi hn hp
  | unlock hp =>
    exact counts_goto hn (by simp [hp]) (by simp) (tokenCount_set_ne s.fs _ (token_ne_lockName env q _))
  | createToken hp =>
    exact counts_goto hn (by simp [hp]) (by simp) (tokenCount_createExclusive s.fs _ _)

/-- The writes of a token and the completed runs, while a server that has written
still holds the lock. -/
def Pending (env : Env) (s : Metadata ι) (tk : CString) : Prop :=
  ∃ i path, s.phase i = .written path ∧ token env path = tk

/-- A step of a server that neither has written the token nor does so now. -/
private theorem pending_goto {tk : CString} {i : ι} {phase : Phase} {fs : FileSystem}
    (hs : ∀ path, s.phase i = .written path → token env path ≠ tk)
    (ht : ∀ path, phase = .written path → token env path ≠ tk) :
    Pending env (s.goto i phase fs) tk ↔ Pending env s tk := by
  constructor
  · rintro ⟨j, path, hp, htk⟩
    rw [phase_goto] at hp
    split_ifs at hp
    · exact absurd htk (ht path hp)
    · exact ⟨j, path, hp, htk⟩
  · rintro ⟨j, path, hp, htk⟩
    refine ⟨j, path, ?_, htk⟩
    rw [phase_goto, if_neg (by rintro rfl; exact hs path hp htk), hp]

omit [DecidableEq ι] in
private theorem not_pending_of_truncated (hi : Coherent env s) {i : ι} {path : CString} {m : Int}
    (hp : s.phase i = .truncated path m) : ¬ Pending env s (token env path) := by
  rintro ⟨j, q, hq, hqtk⟩
  have hij : i = j := hi.same (by rw [hp]; rfl) (by rw [hq]; rfl) hqtk.symm
  rw [← hij, hp] at hq
  cases hq

private theorem not_pending_unlocked (hi : Coherent env s) {i : ι} {path : CString} (fs : FileSystem)
    (hp : s.phase i = .written path) : ¬ Pending env (s.goto i .idle fs) (token env path) := by
  rintro ⟨j, q, hq, hqtk⟩
  rw [phase_goto] at hq
  split_ifs at hq with hj
  exact hj (hi.same (by rw [hq]; rfl) (by rw [hp]; rfl) hqtk)

/-- Writes run ahead of completed runs by the one that still holds the lock. -/
def Ahead (env : Env) (s : Metadata ι) (tk : CString) (written completed : Nat) : Prop :=
  (Pending env s tk ∧ written = completed + 1) ∨ (¬ Pending env s tk ∧ written = completed)

theorem ahead_step (hi : Coherent env s) (h : Step env s e t) {tk : CString} {written completed : Nat}
    (ha : Ahead env s tk written completed) : Ahead env t tk
      (written + if writes env tk ⟨s, e, t⟩ = true then 1 else 0)
      (completed + if completes env tk ⟨s, e, t⟩ = true then 1 else 0) := by
  obtain ⟨action, sent⟩ := e
  have hm : Moves env s action t := moves_of_step h
  have hkeep {phase : Phase} {i : ι} {fs : FileSystem}
      (hs : ∀ path, s.phase i = .written path → token env path ≠ tk)
      (hp : ∀ path, phase = .written path → token env path ≠ tk) :
      Ahead env (s.goto i phase fs) tk written completed := by
    unfold Ahead
    rw [pending_goto hs hp]
    exact ha
  cases hm with
  | @write i path m hp =>
    simp only [writes, completes, hp, decide_eq_true_eq, Bool.false_eq_true, if_false, Nat.add_zero]
    split_ifs with htk
    · rcases ha with ⟨hpending, _⟩ | ⟨_, heq⟩
      · exact absurd (htk ▸ hpending) (not_pending_of_truncated hi hp)
      · exact .inl ⟨⟨i, path, by rw [phase_goto, if_pos rfl], htk⟩, by omega⟩
    · apply hkeep (by simp [hp])
      rintro q he
      cases he
      exact htk
  | @unlock i path hp =>
    simp only [writes, completes, hp, decide_eq_true_eq, Bool.false_eq_true, if_false, Nat.add_zero]
    split_ifs with htk
    · rcases ha with ⟨_, heq⟩ | ⟨hpending, _⟩
      · exact .inr ⟨htk ▸ not_pending_unlocked hi _ hp, heq⟩
      · exact absurd ⟨i, path, hp, htk⟩ hpending
    · refine hkeep ?_ (by simp)
      rintro q he
      rw [hp] at he
      cases he
      exact htk
  | begin hp => exact hkeep (by simp [hp]) (by simp)
  | lock hp _ => exact hkeep (by simp [hp]) (by simp)
  | read hp => exact hkeep (by simp [hp]) (by simp)
  | truncate hp _ => exact hkeep (by simp [hp]) (by simp)
  | createToken hp => exact hkeep (by simp [hp]) (by simp)

/-- The writes of a token in a run, and the completed runs of `increaseCloseCount`
on its path. -/
def writtenIn (env : Env) (tk : CString) (ts : Trace ι) : Nat := ts.countP (writes env tk)

def completedIn (env : Env) (tk : CString) (ts : Trace ι) : Nat := ts.countP (completes env tk)

variable {fs : FileSystem} {ts : Trace ι}

theorem coherent_run (hi : Coherent env s) (h : Run (Step env) s ts t) : Coherent env t :=
  h.invariant (Coherent env) hi (fun _ _ _ => coherent_step)

/-- A run adds its writes to the count. -/
theorem counts_run (hi : Coherent env s) (h : Run (Step env) s ts t) {q : CString} {n : Int}
    (hn : Counts env s (token env q) n) :
    Counts env t (token env q) (n + writtenIn env (token env q) ts) := by
  induction h with
  | nil => simpa [writtenIn] using hn
  | @snoc ts t e u hrun hstep ih =>
    have hcount := counts_step (coherent_run hi hrun) hstep ih
    unfold writtenIn at hcount ⊢
    rw [List.countP_append, List.countP_singleton]
    split_ifs at hcount ⊢
    · rw [Nat.cast_add, ← Int.add_assoc]
      exact hcount
    · exact hcount

theorem ahead_run (h : Run (Step env) (start fs) ts t) (tk : CString) :
    Ahead env t tk (writtenIn env tk ts) (completedIn env tk ts) := by
  induction h with
  | nil => exact .inr ⟨fun ⟨_, _, hp, _⟩ => (nomatch hp), rfl⟩
  | @snoc ts t e u hrun hstep ih =>
    unfold writtenIn completedIn at ih ⊢
    rw [List.countP_append, List.countP_singleton, List.countP_append, List.countP_singleton]
    exact ahead_step (coherent_run (coherent_start env fs) hrun) hstep ih

/-- No server is between locking and unlocking the token. -/
def Unlocked (env : Env) (s : Metadata ι) (tk : CString) : Prop :=
  ∀ i path, Phase.critical (s.phase i) = some path → token env path ≠ tk

omit [DecidableEq ι] in
theorem committed_onClose {engine : CapioCLEngine} {path : CString}
    (hfile : s.fs.isDirectory path = false)
    (hrule : engine.getCommitRule path = capioFileCommittedOnClose)
    (hpos : 1 ≤ engine.getCommitCloseCount path) :
    isCommitted env engine s.fs path = some true ↔
      engine.getCommitCloseCount path ≤ tokenCount s.fs (token env path) := by
  rw [isCommitted, committedWithin_onClose hfile hrule, ← token]
  constructor
  · rintro ⟨_, hone | hle⟩
    · omega
    · exact hle
  · intro hle
    refine ⟨?_, .inr hle⟩
    by_contra htoken
    have hzero := tokenCount_missing (Bool.eq_false_iff.mpr htoken)
    omega

/-- In every state in which nobody holds the lock, the token counts the completed
runs of `increaseCloseCount`, and `on_close` with a count waits for just as many. -/
theorem close_count_exact {path : CString} (h : Run (Step env) (start fs) ts s)
    (hfresh : tokenCount fs (token env path) = 0) (hquiet : Unlocked env s (token env path)) :
    tokenCount s.fs (token env path) = completedIn env (token env path) ts ∧
      ∀ engine : CapioCLEngine, s.fs.isDirectory path = false →
        engine.getCommitRule path = capioFileCommittedOnClose → 1 ≤ engine.getCommitCloseCount path →
        (isCommitted env engine s.fs path = some true ↔
          engine.getCommitCloseCount path ≤ completedIn env (token env path) ts) := by
  have hcount : tokenCount s.fs (token env path) = completedIn env (token env path) ts := by
    have hzero : Counts env (start fs : Metadata ι) (token env path) 0 :=
      .inr ⟨fun _ _ _ hp => (nomatch hp), hfresh⟩
    have hahead : writtenIn env (token env path) ts = completedIn env (token env path) ts := by
      rcases ahead_run h (token env path) with ⟨⟨i, q, hp, htk⟩, _⟩ | ⟨_, heq⟩
      · exact absurd htk (hquiet i q (by rw [hp]; rfl))
      · exact heq
    rcases counts_run (coherent_start env fs) h hzero with ⟨i, q, hp, htk⟩ | ⟨_, hc⟩
    · exact absurd htk (hquiet i q (by rw [hp]; rfl))
    · rw [hc, hahead, Int.zero_add]
  refine ⟨hcount, ?_⟩
  intro engine hfile hrule hpos
  rw [committed_onClose hfile hrule hpos, hcount]

/-- Two servers close a file at the same time. -/
def twoClosers : List (MetadataAction Bool) :=
  [.createToken false "/c/f".toList, .begin false "/c/f".toList, .createToken true "/c/f".toList,
    .begin true "/c/f".toList, .lock true, .read true, .truncate true, .write true, .unlock true,
    .lock false, .read false, .truncate false, .write false, .unlock false]

theorem close_count_exact_twoClosers : ∃ (ts : Trace Bool) (s : Metadata Bool),
    Run (Step ⟨"/c".toList, none⟩) (start ⟨fun _ => none⟩) ts s ∧
      completedIn ⟨"/c".toList, none⟩ (token ⟨"/c".toList, none⟩ "/c/f".toList) ts = 2 ∧
      tokenCount s.fs (token ⟨"/c".toList, none⟩ "/c/f".toList) =
        completedIn ⟨"/c".toList, none⟩ (token ⟨"/c".toList, none⟩ "/c/f".toList) ts := by
  obtain ⟨ts, s, hrun, _, hp⟩ := execute_any (step ⟨"/c".toList, none⟩) (start ⟨fun _ => none⟩) twoClosers
    (fun ts s => decide (s.phase false = .idle) && decide (s.phase true = .idle) && decide (completedIn
      ⟨"/c".toList, none⟩ (token ⟨"/c".toList, none⟩ "/c/f".toList) ts = 2)) (by decide)
  simp only [Bool.and_eq_true, decide_eq_true_eq] at hp
  refine ⟨ts, s, hrun, hp.2, (close_count_exact hrun rfl ?_).1⟩
  intro i path hc
  cases i with
  | false => rw [hp.1.1] at hc; cases hc
  | true => rw [hp.1.2] at hc; cases hc

private theorem goto_phase (s : Metadata ι) (i : ι) (phase : Phase) (fs : FileSystem) :
    (s.goto i phase fs).phase i = phase := by
  unfold goto
  exact Function.update_self i phase s.phase

private theorem goto_goto (s : Metadata ι) (i : ι) (phase phase' : Phase) (fs fs' : FileSystem) :
    (s.goto i phase fs).goto i phase' fs' = s.goto i phase' fs' := by
  unfold goto
  rw [Function.update_idem]

/-- Run by itself, the protocol does what `increaseCloseCount` does in one step. -/
theorem increaseCloseCount_alone {server : CapioServer} {i : ι} {path : CString} {fs' : FileSystem}
    (hi : s.phase i = .idle) (hfree : s.fs.fileExists (lockName server.env path) = false)
    (h : server.increaseCloseCount s.fs path = some fs') :
    ∃ ts, Run (Step server.env) s ts (s.goto i .idle fs') := by
  unfold CapioServer.increaseCloseCount at h
  dsimp only at h
  split_ifs at h with hdir
  cases h
  have hlock := token_ne_lockName server.env path path
  let lock := lockName server.env path
  let tk := token server.env path
  let locked := s.fs.set lock (some (.file []))
  let n := tokenCount locked tk
  let full := (locked.set tk (some (.file []))).set tk (some (.file (printCount (n + 1))))
  have hfile : locked.isDirectory tk = false := by
    rw [FileSystem.isDirectory, FileSystem.set_node, if_neg hlock]
    exact Bool.eq_false_iff.mpr hdir
  have hend : full.set lock none =
      s.fs.set tk (some (.file (printCount (tokenCount s.fs tk + 1)))) := by
    have hcount : n = tokenCount s.fs tk := tokenCount_set_ne s.fs _ hlock
    have hnone : s.fs.node lock = none := Option.isSome_eq_false_iff.mp hfree |> Option.isNone_iff_eq_none.mp
    unfold FileSystem.set
    congr 1
    funext q
    simp only [full, locked, FileSystem.set, Function.update_apply, hcount]
    split_ifs with h1 h2
    · exact absurd (h2.symm.trans h1) hlock
    · rw [h1, hnone]
    · rfl
    · rfl
  let s₁ := s.goto i (.spinning path) s.fs
  let s₂ := s₁.goto i (.locked path) locked
  let s₃ := s₂.goto i (.counted path n) locked
  let s₄ := s₃.goto i (.truncated path n) (locked.set tk (some (.file [])))
  let s₅ := s₄.goto i (.written path) full
  have h₁ : Step server.env s ⟨.begin i path, ()⟩ s₁ := step_of_moves (.begin hi)
  have h₂ : Step server.env s₁ ⟨.lock i, ()⟩ s₂ := step_of_moves (.lock (goto_phase ..) hfree)
  have h₃ : Step server.env s₂ ⟨.read i, ()⟩ s₃ := step_of_moves (.read (goto_phase ..))
  have h₄ : Step server.env s₃ ⟨.truncate i, ()⟩ s₄ := step_of_moves (.truncate (goto_phase ..) hfile)
  have h₅ : Step server.env s₄ ⟨.write i, ()⟩ s₅ := step_of_moves (.write (goto_phase ..))
  have h₆ : Step server.env s₅ ⟨.unlock i, ()⟩ (s₅.goto i .idle (full.set lock none)) :=
    step_of_moves (.unlock (goto_phase ..))
  have hrun := (((((Run.single h₁).snoc h₂).snoc h₃).snoc h₄).snoc h₅).snoc h₆
  have hstate : s₅.goto i .idle (full.set lock none) = s.goto i .idle (full.set lock none) := by
    simp only [s₁, s₂, s₃, s₄, s₅, goto_goto]
  rw [hstate, hend] at hrun
  exact ⟨_, hrun⟩

end Capio.Server.Metadata
