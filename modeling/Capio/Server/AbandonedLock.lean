import Capio.Library.Stopping
import Capio.Server.CommitPermanence

/-! Servers that are killed. Nothing but the destructor of `DistributedSemaphore` takes
a lock file away, so the one that a dead server held is there for good. -/
namespace Capio.Server

namespace Metadata
open Library

variable {ι : Type} {env : Env} {s t : Metadata ι} {i : ι} {path : CString}

/-- What a token says while a server is between locking and unlocking it, after so
many completed runs of `increaseCloseCount`. -/
def leaves (completed : Int) : Phase → Int
  | .truncated _ _ => 0
  | .written _ => completed + 1
  | _ => completed

variable [DecidableEq ι] {e : Event ι} {fs : FileSystem}

/-- With nobody else between locking and unlocking the token, a server there says how far
the count is. -/
theorem count_left {ts : Trace ι} (h : Run (Step env) (start fs) ts s)
    (hfresh : tokenCount fs (token env path) = 0) (hp : Phase.critical (s.phase i) = some path) :
    tokenCount s.fs (token env path) = leaves (completedIn env (token env path) ts) (s.phase i) := by
  have hi : Coherent env s := coherent_run (coherent_start env fs) h
  have hzero : Counts env (start fs : Metadata ι) (token env path) 0 :=
    .inr ⟨fun _ _ _ hj => (nomatch hj), hfresh⟩
  have hcounts := counts_run (coherent_start env fs) h hzero
  have hahead := ahead_run h (token env path)
  have hsame {j : ι} {q : CString} (hq : Phase.critical (s.phase j) = some q)
      (he : token env q = token env path) : j = i := hi.same hq hp he
  have hread (hno : ∀ q n, s.phase i ≠ .truncated q n) :
      tokenCount s.fs (token env path) = writtenIn env (token env path) ts := by
    rcases hcounts with ⟨j, q, hq, he⟩ | ⟨_, hc⟩
    · have hj : j = i := hsame (by rw [hq]; rfl) he
      exact absurd (hj ▸ hq) (hno q _)
    · rw [hc, Int.zero_add]
  have hdone (hno : ∀ q, s.phase i ≠ .written q) :
      writtenIn env (token env path) ts = completedIn env (token env path) ts := by
    rcases hahead with ⟨⟨j, q, hq, he⟩, _⟩ | ⟨_, heq⟩
    · have hj : j = i := hsame (by rw [hq]; rfl) he
      exact absurd (hj ▸ hq) (hno q)
    · exact heq
  cases hphase : s.phase i with
  | idle | spinning q =>
    rw [hphase] at hp
    cases hp
  | locked q | counted q n =>
    rw [hread (by simp [hphase]), hdone (by simp [hphase])]
    rfl
  | truncated q n =>
    rw [hphase] at hp
    cases hp
    exact hi.emptied i path n hphase
  | written q =>
    rw [hphase] at hp
    cases hp
    rcases hahead with ⟨_, heq⟩ | ⟨hnone, _⟩
    · rw [hread (by simp [hphase]), heq]
      exact Nat.cast_succ _
    · exact absurd ⟨i, path, hphase, rfl⟩ hnone

/-- What the other servers leave alone while one is between locking and unlocking a token. -/
structure Held (env : Env) (i : ι) (path : CString) (s t : Metadata ι) : Prop where
  phase : t.phase i = s.phase i
  count : tokenCount t.fs (token env path) = tokenCount s.fs (token env path)
  spinning : ∀ j q, token env q = token env path → s.phase j = .spinning q → t.phase j = .spinning q

omit [DecidableEq ι] in
theorem Held.refl (env : Env) (i : ι) (path : CString) (s : Metadata ι) : Held env i path s s :=
  ⟨rfl, rfl, fun _ _ _ => id⟩

omit [DecidableEq ι] in
theorem Held.trans {u : Metadata ι} (h : Held env i path s t) (h' : Held env i path t u) : Held env i path s u :=
  ⟨h'.phase.trans h.phase, h'.count.trans h.count, fun j q hq hj => h'.spinning j q hq (h.spinning j q hq hj)⟩

/-- A step of a server that does not spin on the token. -/
private theorem held_goto {j : ι} {phase : Phase} {fs : FileSystem} (hij : i ≠ j)
    (hs : ∀ q, s.phase j = .spinning q → token env q ≠ token env path)
    (hfs : tokenCount fs (token env path) = tokenCount s.fs (token env path)) :
    Held env i path s (s.goto j phase fs) := by
  refine ⟨by rw [phase_goto, if_neg hij], hfs, fun k q hq hk => ?_⟩
  rw [phase_goto, if_neg (by rintro rfl; exact hs q hk hq), hk]

theorem held_step (hi : Coherent env s) (h : Step env s e t) (hother : e.action.server ≠ i)
    (hp : Phase.critical (s.phase i) = some path) : Held env i path s t := by
  obtain ⟨action, sent⟩ := e
  have hm : Moves env s action t := moves_of_step h
  have hlocked {j : ι} {q : CString} (hj : j ≠ i) (hq : Phase.critical (s.phase j) = some q) :
      token env path ≠ token env q := fun he => hj (hi.same hq hp he.symm)
  cases hm with
  | begin hj => exact held_goto (Ne.symm hother) (by simp [hj]) rfl
  | @lock j q hj hfree =>
    refine held_goto (Ne.symm hother) ?_ (tokenCount_set_ne s.fs _ (token_ne_lockName env path q))
    intro q' hq' he
    rw [hj] at hq'
    cases hq'
    have htaken : IsFile s.fs (lockName env path) := hi.exclusion.taken i _ (by rw [holds, hp]; rfl)
    obtain ⟨content, hc⟩ := htaken
    rw [(lockName_eq_iff env q path).mpr he, FileSystem.fileExists, hc] at hfree
    cases hfree
  | read hj => exact held_goto (Ne.symm hother) (by simp [hj]) rfl
  | @truncate j q _ hj _ | @write j q _ hj =>
    have hne : token env path ≠ token env q := hlocked hother (by dsimp only [MetadataAction.server]; rw [hj]; rfl)
    exact held_goto (Ne.symm hother) (by simp [hj]) (tokenCount_set_ne s.fs _ hne)
  | unlock hj =>
    exact held_goto (Ne.symm hother) (by simp [hj]) (tokenCount_set_ne s.fs _ (token_ne_lockName env path _))
  | createToken hj => exact held_goto (Ne.symm hother) (by simp [hj]) (tokenCount_createExclusive s.fs _ _)

omit [DecidableEq ι] in
/-- No other server ends a run of `increaseCloseCount` on the token. -/
theorem not_completes (hi : Coherent env s) (hother : e.action.server ≠ i)
    (hp : Phase.critical (s.phase i) = some path) : completes env (token env path) ⟨s, e, t⟩ = false := by
  obtain ⟨action, sent⟩ := e
  cases action with
  | unlock j =>
    cases hj : s.phase j with
    | written q =>
      simp only [completes, hj, decide_eq_false_iff_not]
      intro he
      have hq : Phase.critical (s.phase j) = some q := by rw [hj]; rfl
      exact hother (hi.same hq hp he)
    | _ => simp only [completes, hj]
  | _ => rfl

abbrev KillStep (env : Env) := Stopping.Step (step (ι := ι) env) MetadataAction.server

abbrev KillTrace (ι : Type) := Stopping.Trace (Metadata ι) (MetadataAction ι) Unit ι

/-- The completed runs of `increaseCloseCount` on a path, among servers that can be killed. -/
def closesIn (env : Env) (path : CString) (ts : KillTrace ι) : Nat :=
  completedIn env (token env path) (ts.filterMap Stopping.inner)

def alive (fs : FileSystem) : Stopping (Metadata ι) ι := ⟨start fs, fun _ => false⟩

/-- A server killed between locking and unlocking a token has closed its file for good:
whoever else closes it waits without an end, and the count stays what it left. -/
theorem abandoned_lock {us ts : KillTrace ι} {s t : Stopping (Metadata ι) ι} (h : Run (KillStep env) (alive fs) us s)
    (hfresh : tokenCount fs (token env path) = 0) (hkilled : s.stopped i = true)
    (hp : Phase.critical (s.state.phase i) = some path) (k : Run (KillStep env) s ts t) :
    closesIn env path ts = 0 ∧
    tokenCount t.state.fs (token env path) = leaves (closesIn env path us) (s.state.phase i) ∧
    (∀ j q, token env q = token env path → s.state.phase j = .spinning q → t.state.phase j = .spinning q) ∧
    (∀ j q, token env q = token env path → Phase.critical (t.state.phase j) = some q → j = i) ∧
    ∀ engine : CapioCLEngine, t.state.fs.isDirectory path = false →
      engine.getCommitRule path = capioFileCommittedOnClose → 1 ≤ engine.getCommitCloseCount path →
      (isCommitted env engine t.state.fs path = some true ↔
        engine.getCommitCloseCount path ≤ leaves (closesIn env path us) (s.state.phase i)) := by
  have hrun : Run (Step env) (start fs) (us.filterMap Stopping.inner) s.state := Stopping.run_inner h
  have hi : Coherent env s.state := coherent_run (coherent_start env fs) hrun
  have hbeside {u v : Metadata ι} {e : Event ι} (hu : Coherent env u) (hheld : Held env i path s.state u)
      (hstep : Step env u e v) (hother : e.action.server ≠ i) :
      Held env i path s.state v ∧ completes env (token env path) ⟨u, e, v⟩ = false := by
    have hpu : Phase.critical (u.phase i) = some path := by rw [hheld.phase, hp]
    exact ⟨hheld.trans (held_step hu hstep hother hpu), not_completes hu hother hpu⟩
  obtain ⟨⟨hit, hheld⟩, hnone⟩ : (Coherent env t.state ∧ Held env i path s.state t.state) ∧
      ∀ x ∈ ts.filterMap Stopping.inner, completes env (token env path) x = false :=
    Stopping.left_run k hkilled (fun _ _ _ => coherent_step) (fun _ _ _ => hbeside) hi (Held.refl env i path _)
  have hcount : tokenCount t.state.fs (token env path) = leaves (closesIn env path us) (s.state.phase i) :=
    hheld.count.trans (count_left hrun hfresh hp)
  refine ⟨List.countP_eq_zero.mpr fun x hx => ?_, hcount, hheld.spinning, ?_, ?_⟩
  · rw [hnone x hx]
    exact Bool.false_ne_true
  · exact fun j q he hq => hit.same hq (by rw [hheld.phase, hp]) he
  · intro engine hfile hrule hpos
    rw [committed_onClose hfile hrule hpos, hcount]

/-- One server is killed after it has truncated the token, then another closes the file. -/
def killedWriter : List (StoppingAction (MetadataAction Bool) Bool) :=
  [.act (.begin true "/c/f".toList), .act (.lock true), .act (.read true), .act (.truncate true), .stop true,
    .act (.begin false "/c/f".toList)]

theorem abandoned_lock_killedWriter : ∃ (us : KillTrace Bool) (s : Stopping (Metadata Bool) Bool),
    Run (KillStep ⟨"/c".toList, none⟩) (alive ⟨fun _ => none⟩) us s ∧
      ∀ (ts : KillTrace Bool) (t : Stopping (Metadata Bool) Bool), Run (KillStep ⟨"/c".toList, none⟩) s ts t →
        t.state.phase false = .spinning "/c/f".toList ∧
          tokenCount t.state.fs (token ⟨"/c".toList, none⟩ "/c/f".toList) = 0 := by
  obtain ⟨us, s, hrun, _, hs⟩ := execute_any (Stopping.step (step ⟨"/c".toList, none⟩) MetadataAction.server)
    (alive ⟨fun _ => none⟩) killedWriter (fun _ s => s.stopped true &&
      decide (s.state.phase true = .truncated "/c/f".toList 0) &&
      decide (s.state.phase false = .spinning "/c/f".toList)) (by decide)
  simp only [Bool.and_eq_true, decide_eq_true_eq] at hs
  obtain ⟨⟨hkilled, hleft⟩, hwaits⟩ := hs
  refine ⟨us, s, hrun, fun ts t k => ?_⟩
  have habandoned := abandoned_lock hrun rfl hkilled (by rw [hleft]; rfl) k
  refine ⟨habandoned.2.2.1 false _ rfl hwaits, ?_⟩
  rw [habandoned.2.1, hleft]
  rfl

end Metadata
end Capio.Server
