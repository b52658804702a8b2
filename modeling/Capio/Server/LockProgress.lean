import Capio.Library.Fairness
import Capio.Server.CommitPermanence
import Mathlib.Algebra.BigOperators.Group.Finset.Basic
import Mathlib.Algebra.Order.BigOperators.Group.Finset

/-! The closes of a file that finitely many servers begin. The lock is no queue, and yet each of
the closes completes when no server stops and no more of them come. -/
namespace Capio.Server

/-- The path whose close a server is in. -/
def Phase.closes : Phase → Option CString
  | .idle => none
  | .spinning path | .locked path | .counted path _ | .truncated path _ | .written path => some path

/-- The file operations that a server has ahead of it. -/
def Phase.ahead : Phase → Nat
  | .idle => 0
  | .spinning _ => 5
  | .locked _ => 4
  | .counted _ _ => 3
  | .truncated _ _ => 2
  | .written _ => 1

namespace Metadata
open Library

/-- The server is in a close of the token's path. -/
def Closing (env : Env) (tk : CString) (phase : Phase) : Prop := phase.closes.map (token env) = some tk

instance (env : Env) (tk : CString) (phase : Phase) : Decidable (Closing env tk phase) :=
  inferInstanceAs (Decidable (_ = _))

def aheadOn (env : Env) (tk : CString) (phase : Phase) : Nat := if Closing env tk phase then phase.ahead else 0

section
variable {ι : Type} {env : Env} {s t : Metadata ι} {tk path : CString} {i : ι} {phase : Phase}

/-- A step that begins a close of the token's path. -/
def begins (env : Env) (tk : CString) (x : Transition (Metadata ι) (Event ι)) : Bool :=
  match x.label.action with
  | .begin _ path => token env path = tk
  | _ => false

theorem ahead_pos (h : Closing env tk phase) : 0 < aheadOn env tk phase := by
  unfold aheadOn
  rw [if_pos h]
  cases phase with
  | idle => cases h
  | _ => exact Nat.succ_pos _

theorem closing_of_critical (hp : Phase.critical phase = some path) : phase.closes = some path := by
  cases phase <;> cases hp <;> rfl

variable [DecidableEq ι] {e : Event ι}

/-- A step of a server that is in a close of the token goes on with it, and no other step but the first
one puts a server into a close. -/
theorem closing_step (tk : CString) (h : Step env s e t) :
    (Closing env tk (s.phase e.action.server) ∧
      aheadOn env tk (t.phase e.action.server) < aheadOn env tk (s.phase e.action.server)) ∨
    (¬ Closing env tk (s.phase e.action.server) ∧
      (Closing env tk (t.phase e.action.server) → begins env tk ⟨s, e, t⟩ = true)) := by
  obtain ⟨action, sent⟩ := e
  have hm : Moves env s action t := moves_of_step h
  -- a close that goes on is one of the same path
  have hgoes {i : ι} {path : CString} {phase : Phase} {fs : FileSystem} (hs : (s.phase i).closes = some path)
      (hc : phase.closes = some path ∨ phase = .idle) (hlt : phase.ahead < (s.phase i).ahead) :
      (Closing env tk (s.phase i) ∧ aheadOn env tk ((s.goto i phase fs).phase i) < aheadOn env tk (s.phase i)) ∨
      (¬ Closing env tk (s.phase i) ∧ (Closing env tk ((s.goto i phase fs).phase i) → False)) := by
    rw [phase_goto, if_pos rfl]
    unfold aheadOn
    by_cases hclosing : Closing env tk (s.phase i)
    · refine .inl ⟨hclosing, ?_⟩
      rw [if_pos hclosing]
      split_ifs
      · exact hlt
      · exact Nat.zero_lt_of_lt hlt
    · refine .inr ⟨hclosing, fun hafter => hclosing ?_⟩
      rcases hc with hc | rfl
      · unfold Closing at hafter ⊢
        rwa [hs, ← hc]
      · cases hafter
  have hfresh {i : ι} {phase : Phase} {fs : FileSystem} (hs : s.phase i = .idle)
      (hp : Closing env tk phase → begins env tk ⟨s, ⟨action, sent⟩, t⟩ = true) :
      ¬ Closing env tk (s.phase i) ∧
        (Closing env tk ((s.goto i phase fs).phase i) → begins env tk ⟨s, ⟨action, sent⟩, t⟩ = true) := by
    rw [phase_goto, if_pos rfl, hs]
    exact ⟨nofun, hp⟩
  cases hm with
  | begin hp => exact .inr (hfresh hp fun hc => decide_eq_true (Option.some.inj hc))
  | createToken hp => exact .inr (hfresh hp fun hc => by cases hc)
  | lock hp _ | read hp | truncate hp _ | write hp =>
    dsimp only [MetadataAction.server]
    exact (hgoes (by rw [hp]; rfl) (.inl rfl) (by rw [hp]; exact Nat.lt_succ_self _)).imp_right
      fun ⟨hs, ht⟩ => ⟨hs, fun hc => (ht hc).elim⟩
  | unlock hp =>
    dsimp only [MetadataAction.server]
    exact (hgoes (by rw [hp]; rfl) (.inr rfl) (by rw [hp]; exact Nat.lt_succ_self _)).imp_right
      fun ⟨hs, ht⟩ => ⟨hs, fun hc => (ht hc).elim⟩

/-- A step is one of one server. -/
theorem others_step (h : Step env s e t) {j : ι} (hj : j ≠ e.action.server) : t.phase j = s.phase j := by
  obtain ⟨action, sent⟩ := e
  have hm : Moves env s action t := moves_of_step h
  cases hm <;> exact (phase_goto ..).trans (if_neg hj)

/-- The lock file of a token is there only while a server is between locking and unlocking it. -/
def Guarded (env : Env) (path : CString) (s : Metadata ι) : Prop :=
  s.fs.fileExists (lockName env path) = true →
    ∃ i q, Phase.critical (s.phase i) = some q ∧ token env q = token env path

private theorem guarded_goto (hi : Guarded env path s) {fs : FileSystem}
    (hp : Phase.critical phase = Phase.critical (s.phase i))
    (hfs : fs.fileExists (lockName env path) = true → s.fs.fileExists (lockName env path) = true) :
    Guarded env path (s.goto i phase fs) := by
  intro hexists
  obtain ⟨j, q, hq, htk⟩ := hi (hfs hexists)
  refine ⟨j, q, ?_, htk⟩
  rw [phase_goto]
  split_ifs with hj
  · rw [hp, ← hj, hq]
  · exact hq

private theorem exists_set_ne {fs : FileSystem} {q : CString} {n : Option Node} (hne : path ≠ q)
    (h : (fs.set q n).fileExists path = true) : fs.fileExists path = true := by
  unfold FileSystem.fileExists at h ⊢
  rwa [FileSystem.set_node, if_neg hne] at h

theorem guarded_step (hi : Guarded env path s) (h : Step env s e t) : Guarded env path t := by
  obtain ⟨action, sent⟩ := e
  have hm : Moves env s action t := moves_of_step h
  have hne (q : CString) : lockName env path ≠ metadataToken env q := (token_ne_lockName env q path).symm
  cases hm with
  | begin hp => exact guarded_goto hi (by rw [hp]; rfl) id
  | read hp => exact guarded_goto hi (by rw [hp]; rfl) id
  | truncate hp _ | write hp => exact guarded_goto hi (by rw [hp]; rfl) (exists_set_ne (hne _))
  | createToken hp =>
    refine guarded_goto hi (by rw [hp]) fun hexists => ?_
    unfold FileSystem.fileExists at hexists ⊢
    rwa [FileSystem.createExclusive_node, if_neg (hne _)] at hexists
  | @lock i q hp hfree =>
    by_cases hq : token env q = token env path
    · exact fun _ => ⟨i, q, by rw [phase_goto, if_pos rfl]; rfl, hq⟩
    · intro hexists
      obtain ⟨j, p, hj, htk⟩ := hi (exists_set_ne (fun he => hq ((lockName_eq_iff env path q).mp he).symm) hexists)
      refine ⟨j, p, ?_, htk⟩
      rw [phase_goto, if_neg (by rintro rfl; rw [hp] at hj; cases hj), hj]
  | @unlock i q hp =>
    intro hexists
    have hq : lockName env path ≠ lockName env q := by
      intro he
      dsimp only [goto] at hexists
      rw [FileSystem.fileExists, FileSystem.set_node, if_pos he] at hexists
      cases hexists
    obtain ⟨j, p, hj, htk⟩ := hi (exists_set_ne hq hexists)
    refine ⟨j, p, ?_, htk⟩
    rw [phase_goto, if_neg, hj]
    rintro rfl
    rw [hp] at hj
    cases hj
    exact hq ((lockName_eq_iff env path q).mpr htk.symm)

/-- The server is in a close, and its next file operation succeeds. -/
def Able (env : Env) (s : Metadata ι) (i : ι) : Prop :=
  s.phase i ≠ .idle ∧ ∃ e t, MetadataAction.server e.action = i ∧ Step env s e t

theorem able_of_critical (hp : Phase.critical (s.phase i) = some path)
    (htoken : s.fs.isDirectory (token env path) = false) : Able env s i := by
  cases hphase : s.phase i with
  | idle | spinning q =>
    rw [hphase] at hp
    cases hp
  | locked q => exact ⟨by simp [hphase], _, _, rfl, step_of_moves (.read hphase)⟩
  | counted q n =>
    rw [hphase] at hp
    cases hp
    exact ⟨by simp [hphase], _, _, rfl, step_of_moves (.truncate hphase htoken)⟩
  | truncated q n => exact ⟨by simp [hphase], _, _, rfl, step_of_moves (.write hphase)⟩
  | written q => exact ⟨by simp [hphase], _, _, rfl, step_of_moves (.unlock hphase)⟩

theorem able_of_free (hp : s.phase i = .spinning path) (hfree : s.fs.fileExists (lockName env path) = false) :
    Able env s i :=
  ⟨by simp [hp], _, _, rfl, step_of_moves (.lock hp hfree)⟩

section
variable [Fintype ι]

/-- The file operations that all the servers have ahead of them in closes of the token's path. -/
def workOn (env : Env) (tk : CString) (s : Metadata ι) : Nat := ∑ i, aheadOn env tk (s.phase i)

omit [DecidableEq ι] in
theorem workOn_pos (h : Closing env tk (s.phase i)) : 0 < workOn env tk s :=
  Finset.sum_pos' (fun _ _ => Nat.zero_le _) ⟨i, Finset.mem_univ i, ahead_pos h⟩

omit [DecidableEq ι] in
theorem exists_closing (h : 0 < workOn env tk s) : ∃ i, Closing env tk (s.phase i) := by
  by_contra hnone
  have hzero : workOn env tk s = 0 :=
    Finset.sum_eq_zero fun i _ => if_neg fun hc => hnone ⟨i, hc⟩
  omega

/-- Work on a token gets less with each step of a server in a close, and more only where a close begins. -/
theorem workOn_step (h : Step env s e t) (hb : begins env tk ⟨s, e, t⟩ = false) :
    workOn env tk t ≤ workOn env tk s ∧
      (Closing env tk (s.phase e.action.server) → workOn env tk t < workOn env tk s) := by
  have hothers (j : ι) (hj : j ≠ e.action.server) : aheadOn env tk (t.phase j) = aheadOn env tk (s.phase j) := by
    rw [others_step h hj]
  rcases closing_step tk h with ⟨hclosing, hlt⟩ | ⟨hnot, hbegins⟩
  · have hle (j : ι) : aheadOn env tk (t.phase j) ≤ aheadOn env tk (s.phase j) := by
      by_cases hj : j = e.action.server
      · rw [hj]
        exact hlt.le
      · exact (hothers j hj).le
    have hless : workOn env tk t < workOn env tk s :=
      Finset.sum_lt_sum (fun j _ => hle j) ⟨_, Finset.mem_univ _, hlt⟩
    exact ⟨hless.le, fun _ => hless⟩
  · have hafter : ¬ Closing env tk (t.phase e.action.server) := fun hc => by simp [hbegins hc] at hb
    have hsame : workOn env tk t = workOn env tk s := by
      apply Finset.sum_congr rfl
      intro j _
      by_cases hj : j = e.action.server
      · rw [hj, aheadOn, aheadOn, if_neg hafter, if_neg hnot]
      · exact hothers j hj
    exact ⟨hsame.le, fun hc => absurd hc hnot⟩

end

/-- No server stops in the middle of a close whose next operation succeeds again and again. -/
def Goes (q : Unending (Step env) s) : Prop :=
  ∀ i n, ∃ m, n ≤ m ∧ ((q.label m).action.server = i ∨ ¬ Able env (q.state m) i)

section
variable {fs : FileSystem} (q : Unending (Step env) (start fs : Metadata ι))

theorem guarded_upTo (hlock : fs.fileExists (lockName env path) = false) (n : Nat) : Guarded env path (q.state n) := by
  refine (q.run_upTo n).invariant (Guarded env path) (fun hexists => ?_) fun _ _ _ => guarded_step
  have hexists : fs.fileExists (lockName env path) = true := hexists
  rw [hlock] at hexists
  cases hexists

theorem token_upTo (htoken : fs.isDirectory path = false) (n : Nat) : (q.state n).fs.isDirectory path = false := by
  have hadvanced := advanced_run (coherent_start env fs) (q.run_upTo n)
  rw [← hadvanced.isDirectory path]
  exact htoken

/-- While nothing is done for a token, somebody who is in a close of its path could do something. -/
theorem somebody_able (hlock : fs.fileExists (lockName env path) = false)
    (htoken : fs.isDirectory (token env path) = false) {n : Nat} {i : ι}
    (hi : Closing env (token env path) ((q.state n).phase i)) : ∃ j, Closing env (token env path) ((q.state n).phase j) ∧
      ∀ m, n ≤ m → (∀ k, Closing env (token env path) ((q.state m).phase k) →
          (q.state m).phase k = (q.state n).phase k) →
        (q.state m).phase j = (q.state n).phase j → Able env (q.state m) j := by
  by_cases hheld : ∃ j p, Phase.critical ((q.state n).phase j) = some p ∧ token env p = token env path
  · obtain ⟨j, p, hp, htk⟩ := hheld
    refine ⟨j, ?_, fun m _ _ hsame => ?_⟩
    · rw [Closing, closing_of_critical hp]
      exact congrArg some htk
    · have hcritical : Phase.critical ((q.state m).phase j) = some p := by rw [hsame, hp]
      refine able_of_critical hcritical ?_
      rw [htk]
      exact token_upTo q htoken m
  · refine ⟨i, hi, fun m _ hothers hsame => ?_⟩
    obtain ⟨p, hp, htk⟩ := Option.map_eq_some_iff.mp hi
    have hspins : (q.state n).phase i = .spinning p := by
      cases hphase : (q.state n).phase i with
      | spinning p' =>
        rw [hphase] at hp
        rw [Option.some.inj hp]
      | idle =>
        rw [hphase] at hp
        cases hp
      | _ =>
        rw [hphase] at hp
        exact absurd ⟨i, p, by rw [hphase]; exact hp, htk⟩ hheld
    have hstill : (q.state m).phase i = .spinning p := hsame.trans hspins
    apply able_of_free hstill
    rw [(lockName_eq_iff env p path).mpr htk]
    by_contra hexists
    obtain ⟨k, p', hk, htk'⟩ := guarded_upTo q hlock m (Bool.not_eq_false _ ▸ hexists)
    have hclosing : Closing env (token env path) ((q.state m).phase k) := by
      rw [Closing, closing_of_critical hk]
      exact congrArg some htk'
    exact hheld ⟨k, p', by rw [← hothers k hclosing, hk], htk'⟩

variable [Fintype ι]

theorem workOn_falls (hlock : fs.fileExists (lockName env path) = false)
    (htoken : fs.isDirectory (token env path) = false) (hgoes : Goes q) {n : Nat}
    (hends : ∀ m, n ≤ m → begins env (token env path) (q.transition m) = false)
    (hpos : 0 < workOn env (token env path) (q.state n)) :
    ∃ m, n ≤ m ∧ workOn env (token env path) (q.state (m + 1)) < workOn env (token env path) (q.state m) := by
  by_contra hstuck
  have hquiet (m : Nat) (hm : n ≤ m) : ¬ Closing env (token env path) ((q.state m).phase (q.label m).action.server) :=
    fun hc => hstuck ⟨m, hm, (workOn_step (q.steps m) (hends m hm)).2 hc⟩
  have hkept (m : Nat) (hm : n ≤ m) :
      (∀ j, Closing env (token env path) ((q.state m).phase j) → (q.state m).phase j = (q.state n).phase j) ∧
      ∀ j, Closing env (token env path) ((q.state n).phase j) → (q.state m).phase j = (q.state n).phase j := by
    induction m, hm using Nat.le_induction with
    | base => exact ⟨fun _ _ => rfl, fun _ _ => rfl⟩
    | succ m hm ih =>
      constructor
      · intro j hj
        by_cases hserver : j = (q.label m).action.server
        · subst hserver
          rcases closing_step (token env path) (q.steps m) with ⟨hc, _⟩ | ⟨_, hbegins⟩
          · exact absurd hc (hquiet m hm)
          · have hnone := hends m hm
            rw [show begins env (token env path) (q.transition m) = true from hbegins hj] at hnone
            cases hnone
        · rw [others_step (q.steps m) hserver] at hj ⊢
          exact ih.1 j hj
      · intro j hj
        have hsame := ih.2 j hj
        rw [others_step (q.steps m), hsame]
        rintro rfl
        exact hquiet m hm (hsame ▸ hj)
  obtain ⟨i, hi⟩ := exists_closing hpos
  obtain ⟨j, hj, hable⟩ := somebody_able q hlock htoken hi
  obtain ⟨m, hm, hserver | hnot⟩ := hgoes j n
  · apply hquiet m hm
    rw [hserver, (hkept m hm).2 j hj]
    exact hj
  · exact hnot (hable m hm (hkept m hm).1 ((hkept m hm).2 j hj))

/-- The servers that are in a close of the token's path. -/
def closers (env : Env) (tk : CString) (s : Metadata ι) : Nat := ∑ i, if Closing env tk (s.phase i) then 1 else 0

/-- The closes of the token's path that a run begins. -/
def begunIn (env : Env) (tk : CString) (ts : Trace ι) : Nat := ts.countP (begins env tk)

omit [Fintype ι] in
private theorem closer_step (tk : CString) (h : Step env s e t) :
    (if Closing env tk (t.phase e.action.server) then 1 else 0) + (if completes env tk ⟨s, e, t⟩ = true then 1 else 0) =
      (if Closing env tk (s.phase e.action.server) then 1 else 0) + if begins env tk ⟨s, e, t⟩ = true then 1 else 0 := by
  obtain ⟨action, sent⟩ := e
  have hm : Moves env s action t := moves_of_step h
  cases hm with
  | begin hp | createToken hp | lock hp _ | read hp | truncate hp _ | write hp | unlock hp =>
    simp [MetadataAction.server, phase_goto, hp, completes, begins, Closing, Phase.closes]

theorem closers_step (tk : CString) (h : Step env s e t) :
    closers env tk t + (if completes env tk ⟨s, e, t⟩ = true then 1 else 0) =
      closers env tk s + if begins env tk ⟨s, e, t⟩ = true then 1 else 0 := by
  have hothers : ∑ i ∈ Finset.univ.erase e.action.server, (if Closing env tk (t.phase i) then 1 else 0) =
      ∑ i ∈ Finset.univ.erase e.action.server, if Closing env tk (s.phase i) then 1 else 0 := by
    apply Finset.sum_congr rfl
    intro i hi
    rw [others_step h (Finset.ne_of_mem_erase hi)]
  have hserver := closer_step tk h
  unfold closers
  rw [← Finset.add_sum_erase _ _ (Finset.mem_univ e.action.server),
    ← Finset.add_sum_erase _ (fun i => if Closing env tk (s.phase i) then 1 else 0) (Finset.mem_univ e.action.server), hothers]
  omega

/-- Every close that has begun has completed, or a server is in it. -/
theorem begun_run {ts : Trace ι} (h : Run (Step env) (start fs) ts s) :
    begunIn env tk ts = completedIn env tk ts + closers env tk s := by
  induction h with
  | nil =>
    have hnobody : closers env tk (start fs : Metadata ι) = 0 := Finset.sum_eq_zero fun i _ => rfl
    rw [hnobody]
    rfl
  | @snoc ts s e t _ hstep ih =>
    have hone := closers_step tk hstep
    unfold begunIn completedIn at ih ⊢
    rw [List.countP_append, List.countP_singleton, List.countP_append, List.countP_singleton]
    omega

omit [Fintype ι] in
/-- With nobody in a close of the path, the token counts the completed ones. -/
theorem count_of_nobody {ts : Trace ι} (h : Run (Step env) (start fs) ts s) (hfresh : tokenCount fs (token env path) = 0)
    (hnobody : ∀ i, ¬ Closing env (token env path) (s.phase i)) :
    tokenCount s.fs (token env path) = completedIn env (token env path) ts := by
  have hnone {i : ι} {p : CString} (hp : Phase.critical (s.phase i) = some p) : token env p ≠ token env path := by
    intro htk
    apply hnobody i
    rw [Closing, closing_of_critical hp]
    exact congrArg some htk
  have hzero : Counts env (start fs : Metadata ι) (token env path) 0 :=
    .inr ⟨fun _ _ _ hp => (nomatch hp), hfresh⟩
  rcases counts_run (coherent_start env fs) h hzero with ⟨i, p, hp, htk⟩ | ⟨_, hcount⟩
  · exact absurd htk (hnone (by rw [hp]; rfl))
  · rcases ahead_run h (token env path) with ⟨⟨i, p, hp, htk⟩, _⟩ | ⟨_, heq⟩
    · exact absurd htk (hnone (by rw [hp]; rfl))
    · rw [hcount, heq, Int.zero_add]

theorem nobody_closing (hlock : fs.fileExists (lockName env path) = false)
    (htoken : fs.isDirectory (token env path) = false) (hgoes : Goes q) {n : Nat}
    (hends : ∀ m, n ≤ m → begins env (token env path) (q.transition m) = false) :
    ∃ m, n ≤ m ∧ ∀ k, m ≤ k → ∀ i, ¬ Closing env (token env path) ((q.state k).phase i) := by
  obtain ⟨m, hm, hzero⟩ := q.settles (workOn env (token env path)) (fun k hk => (workOn_step (q.steps k) (hends k hk)).1)
    fun k hk hpos => workOn_falls q hlock htoken hgoes (fun l hl => hends l (hk.trans hl)) hpos
  refine ⟨m, hm, fun k hk i hc => ?_⟩
  have hpos := workOn_pos hc
  rw [hzero k hk] at hpos
  exact Nat.lt_irrefl 0 hpos

theorem counted_of_nobody (hfresh : tokenCount fs (token env path) = 0) {n : Nat}
    (hnobody : ∀ i, ¬ Closing env (token env path) ((q.state n).phase i)) :
    completedIn env (token env path) (q.upTo n) = begunIn env (token env path) (q.upTo n) ∧
      tokenCount (q.state n).fs (token env path) = begunIn env (token env path) (q.upTo n) := by
  have hnone : closers env (token env path) (q.state n) = 0 := Finset.sum_eq_zero fun i _ => if_neg (hnobody i)
  have hbegun : begunIn env (token env path) (q.upTo n) = completedIn env (token env path) (q.upTo n) := by
    rw [begun_run (q.run_upTo n), hnone, Nat.add_zero]
  refine ⟨hbegun.symm, ?_⟩
  rw [hbegun]
  exact count_of_nobody (q.run_upTo n) hfresh hnobody

end
end

/-- One of two servers closes a file. -/
def oneClose : List (MetadataAction Bool) :=
  [.begin true "/c/f".toList, .lock true, .read true, .truncate true, .write true, .unlock true]

/-- A run that goes on for ever with a token that is there already. -/
theorem oneClose_goes_on : ∃ q : Unending (Step ⟨"/c".toList, none⟩) (start ⟨fun _ => none⟩ : Metadata Bool),
    ∀ n, (∀ i, (q.state (n + 6)).phase i = .idle) ∧
      tokenCount (q.state (n + 6)).fs (token ⟨"/c".toList, none⟩ "/c/f".toList) = 1 ∧
      begins ⟨"/c".toList, none⟩ (token ⟨"/c".toList, none⟩ "/c/f".toList) (q.transition (n + 6)) = false := by
  obtain ⟨ts, s, hrun, hactions, hclosed⟩ := execute_any (step ⟨"/c".toList, none⟩) (start ⟨fun _ => none⟩) oneClose
    (fun _ s => decide (s.phase true = .idle) && decide (s.phase false = .idle) &&
      decide (tokenCount s.fs (token ⟨"/c".toList, none⟩ "/c/f".toList) = 1)) (by decide)
  simp only [Bool.and_eq_true, decide_eq_true_eq] at hclosed
  obtain ⟨⟨htrue, hfalse⟩, hcount⟩ := hclosed
  have hgoes (s : Metadata Bool) (hs : (∀ i, s.phase i = .idle) ∧
      tokenCount s.fs (token ⟨"/c".toList, none⟩ "/c/f".toList) = 1) : ∃ e t, e.action = .createToken true "/c/f".toList ∧
      Step ⟨"/c".toList, none⟩ s e t ∧ (∀ i, t.phase i = .idle) ∧
      tokenCount t.fs (token ⟨"/c".toList, none⟩ "/c/f".toList) = 1 := by
    refine ⟨⟨.createToken true "/c/f".toList, ()⟩, _, rfl, step_of_moves (.createToken (hs.1 true)), fun i => ?_,
      (tokenCount_createExclusive ..).trans hs.2⟩
    rw [phase_goto]
    split_ifs
    · rfl
    · exact hs.1 i
  obtain ⟨r, hr⟩ := Unending.exists_of _ _ hgoes ⟨fun i => by cases i; exacts [hfalse, htrue], hcount⟩
  have hlength : ts.length = 6 := by
    have hmap := congrArg List.length hactions
    rwa [List.length_map] at hmap
  obtain ⟨q, hq, _⟩ := r.exists_after hrun
  refine ⟨q, fun n => ?_⟩
  have hsame := hq n
  rw [hlength] at hsame
  have hstate : q.state (n + 6) = r.state n := congrArg Transition.source hsame
  rw [hsame, hstate]
  refine ⟨(hr n).1.1, (hr n).1.2, ?_⟩
  unfold begins Unending.transition
  rw [(hr n).2]

theorem goes_of_idle {ι : Type} [DecidableEq ι] {env : Env} {s : Metadata ι} (q : Unending (Step env) s) (k : Nat)
    (h : ∀ n i, (q.state (n + k)).phase i = .idle) : Goes q :=
  fun i n => ⟨n + k, Nat.le_add_right n k, .inr fun hable => hable.1 (h n i)⟩

end Metadata
end Capio.Server
