import Capio.Server.Decisions
import Capio.Server.WaitingTables

/-! Threads waiting for the creation of a file, over every interleaving of the
request thread with the monitor. The monitor unlocks a path and then deletes it,
in two critical sections, and deletes whoever registered between them. -/
namespace Capio.Server.System
open Library

/-- Registrations of a thread leave the creation table with one reply each. -/
def AnsweredOnce (x : Transition System Event) : Prop :=
  ∀ path tid,
    (x.target.server.waitingCreation path).count tid < (x.source.server.waitingCreation path).count tid →
    (replied x.label).count tid =
      (x.source.server.waitingCreation path).count tid - (x.target.server.waitingCreation path).count tid

/-- Nobody is registered for a path when it is deleted. -/
def DeletesNobody (x : Transition System Event) : Prop :=
  ∀ path, x.source.callOf x.label.action = some (.deleteFileAwaitingCreation path) →
    x.source.server.waitingCreation path = []

/-- Nobody registers for a path between the monitor's unlocking and deleting it. -/
def Undisturbed (x : Transition System Event) : Prop :=
  ∀ path tid, x.source.callOf x.label.action = some (.addThreadAwaitingCreation path tid) →
    ∀ files, x.source.monitor ≠ .creationDelete path files

variable {s t : System} {e : Event}

private theorem answered_of_kept
    (h : ∀ q tid, (s.server.waitingCreation q).count tid ≤ (t.server.waitingCreation q).count tid) :
    AnsweredOnce ⟨s, e, t⟩ := by
  intro q tid hlt
  have hle := h q tid
  dsimp only at hlt
  omega

private theorem answered_of_unlock {path : CString}
    (hr : e.replies = (s.server.waitingCreation path).map (fun tid => ⟨tid, 1⟩))
    (ht : t.server = s.server.deleteFileAwaitingCreation path) : AnsweredOnce ⟨s, e, t⟩ := by
  intro q tid hlt
  have hreplied : replied e = s.server.waitingCreation path := by
    simp [replied, hr, Function.comp_def]
  dsimp only at hlt ⊢
  rw [ht, CapioServer.waitingCreation_delete] at hlt ⊢
  split_ifs at hlt ⊢ with hq
  · subst hq
    rw [hreplied, List.count_nil, Nat.sub_zero]
  · omega

private theorem answered_of_delete {path : CString} (hr : e.replies = [])
    (ht : t.server = s.server.deleteFileAwaitingCreation path) :
    AnsweredOnce ⟨s, e, t⟩ ↔ s.server.waitingCreation path = [] := by
  have hafter (q : CString) : t.server.waitingCreation q =
      if q = path then [] else s.server.waitingCreation q := by
    rw [ht, CapioServer.waitingCreation_delete]
  constructor
  · intro ha
    rw [List.eq_nil_iff_forall_not_mem]
    intro tid hm
    have hpos : 0 < (s.server.waitingCreation path).count tid := List.count_pos_iff.mpr hm
    have hone := ha path tid (by simpa [hafter] using hpos)
    simp only [hafter, if_pos, replied, hr, List.map_nil, List.count_nil, Nat.sub_zero] at hone
    omega
  · intro hnil
    apply answered_of_kept
    intro q tid
    rw [hafter]
    split_ifs with hq
    · rw [hq, hnil]
    · exact Nat.le_refl _

/-- A step answers what leaves, except where it deletes a registered thread. -/
theorem answered_step (h : Step s e t) : AnsweredOnce ⟨s, e, t⟩ ↔ DeletesNobody ⟨s, e, t⟩ := by
  rcases step_cases h with ⟨c, hc, hrun⟩ | ⟨hc, ht, _⟩
  · unfold DeletesNobody
    dsimp only
    rw [hc]
    rcases Call.run_creation hrun with ⟨path, tid, rfl, ht⟩ | ⟨path, rfl, hr, ht⟩ | ⟨path, rfl, ht⟩ |
        ⟨hkeep, ht⟩
    · refine iff_of_true (answered_of_kept ?_) (by simp)
      intro q u
      rw [ht, CapioServer.waitingCreation_add]
      split_ifs with hq
      · rw [hq, List.count_append]
        omega
      · exact Nat.le_refl _
    · exact iff_of_true (answered_of_unlock hr ht) (by simp)
    · rw [answered_of_delete ((Call.run_frame hrun).silent rfl) ht]
      simp
    · refine iff_of_true (answered_of_kept ?_) ?_
      · intro q u
        rw [ht]
      · rintro path he
        cases he
        cases hkeep
  · refine iff_of_true (answered_of_kept ?_) ?_
    · intro q u
      rw [ht]
    · intro path hd
      rw [hc] at hd
      cases hd

/-- The registrations for the path that the monitor has unlocked and is about to
delete are gone, and only the monitor deletes. -/
structure Cleared (s : System) : Prop where
  unlocked : ∀ file files, s.monitor = .creationDelete file files → s.server.waitingCreation file = []
  deleteFree : ∀ path, Call.deleteFileAwaitingCreation path ∉ s.pending

private theorem mayCall_ne_delete {r : Request} {c : Call} (h : mayCall r c) (path : CString) :
    c ≠ .deleteFileAwaitingCreation path := by
  rintro rfl
  cases r <;> simp [mayCall, setCommitted] at h

private theorem cleared_deletesNobody (hi : Cleared s) : DeletesNobody ⟨s, e, t⟩ := by
  intro path hd
  dsimp only at hd ⊢
  cases ha : e.action with
  | call =>
    rw [ha] at hd
    exact absurd (List.mem_of_head? hd) (hi.deleteFree path)
  | monitor =>
    rw [ha] at hd
    obtain ⟨m, hm⟩ := callOf_monitor hd
    rcases monitorCall_cases hm with ⟨_, _, _, he, _⟩ | ⟨file, files, hs, he, _⟩ | ⟨_, _, _, he, _⟩
    · cases he
    · cases he
      exact hi.unlocked path files hs
    · cases he
  | _ =>
    rw [ha] at hd
    cases hd

private theorem waiting_nil_run {server server' : CapioServer} {fs fs' : FileSystem} {c : Call}
    {out : List Reply} (h : c.run server fs = some (server', fs', out)) {file : CString}
    (hnil : server.waitingCreation file = []) (hadd : ∀ tid, c ≠ .addThreadAwaitingCreation file tid) :
    server'.waitingCreation file = [] := by
  rcases Call.run_creation h with ⟨path, tid, rfl, ht⟩ | ⟨path, _, _, ht⟩ | ⟨path, _, ht⟩ | ⟨_, ht⟩
  · rw [ht, CapioServer.waitingCreation_add, if_neg (fun hf => hadd tid (by rw [hf])), hnil]
  · rw [ht, CapioServer.waitingCreation_delete, hnil, ite_self]
  · rw [ht, CapioServer.waitingCreation_delete, hnil, ite_self]
  · rw [ht, hnil]

theorem cleared_step (hi : Cleared s) (h : Step s e t) (hu : Undisturbed ⟨s, e, t⟩) : Cleared t := by
  obtain ⟨action, replies⟩ := e
  cases action with
  | request r =>
    obtain ⟨_, calls, hd, rfl⟩ := step_request h
    exact ⟨hi.unlocked, fun path hp => mayCall_ne_delete (handle_mayCall hd _ hp) path rfl⟩
  | call =>
    obtain ⟨c, calls, server, fs, hp, hrun, rfl⟩ := step_call h
    constructor
    case deleteFree => exact fun path hm => hi.deleteFree path (hp ▸ List.mem_cons_of_mem c hm)
    case unlocked =>
      intro file files hm
      apply waiting_nil_run hrun (hi.unlocked file files hm)
      rintro tid rfl
      exact hu file tid (by simp [callOf, hp]) files hm
  | monitor =>
    rcases step_monitor h with ⟨m, _, _, rfl, hne⟩ | ⟨c, m, server, fs, hc, hrun, rfl⟩
    · exact ⟨fun file files hm => absurd hm (hne file files), hi.deleteFree⟩
    · refine ⟨?_, hi.deleteFree⟩
      rintro file files rfl
      -- the monitor stands before a deletion only right after unlocking the same path
      rcases monitorCall_cases hc with ⟨f, fs, _, rfl, hm⟩ | ⟨_, _, _, _, hm⟩ | ⟨_, _, _, _, hm⟩
      · cases hm
        rcases Call.run_creation hrun with ⟨_, _, he, _⟩ | ⟨path, he, _, ht⟩ | ⟨_, he, _⟩ | ⟨he, _⟩
        · cases he
        · cases he
          rw [ht, CapioServer.waitingCreation_delete, if_pos rfl]
        · cases he
        · cases he
      · cases hm
      · cases hm
  | environment fs =>
    cases h
    exact ⟨hi.unlocked, hi.deleteFree⟩

variable {env : Env} {engine : CapioCLEngine} {fs : FileSystem} {ts : Trace}

theorem cleared_boot : Cleared (boot env engine fs) :=
  ⟨by simp [boot], by simp [boot]⟩

/-- Openers are lost in a run exactly by deletions of registered threads, and in
particular not when no registration falls between an unlock and its deletion. -/
theorem creation_waiters_answered (h : Run Step (boot env engine fs) ts s) :
    ((∀ x ∈ ts, AnsweredOnce x) ↔ ∀ x ∈ ts, DeletesNobody x) ∧
      ((∀ x ∈ ts, Undisturbed x) → ∀ x ∈ ts, AnsweredOnce x) := by
  constructor
  · refine forall₂_congr ?_
    intro x hx
    obtain ⟨_, _, _, _, hstep, _⟩ := h.source_reached hx
    exact answered_step hstep
  · refine h.forall_of Undisturbed Cleared AnsweredOnce cleared_boot ?_ ?_
    · exact fun _ _ _ => cleared_step
    · intro s e t hi hstep _
      exact (answered_step hstep).mpr (cleared_deletesNobody hi)

/-- Two threads open a missing file that is then created. The second registers
only after the monitor has unlocked the path for the first. -/
def twoOpeners : List Action :=
  let path := "/c/f".toList
  [.request (.handshakeAnonymous 1 1), .call, .request (.handshakeAnonymous 2 2), .call,
    .request (.openFile 1 3 path), .call, .request (.openFile 2 3 path),
    .environment ⟨fun p => if p = path then some (.file []) else none⟩, .monitor, .monitor, .monitor,
    .call, .monitor]

theorem creation_waiters_answered_twoOpeners : ∃ ts s, Run Step emptyWorkflow ts s ∧ ts.length = 13 ∧
    ((∀ x ∈ ts, AnsweredOnce x) ↔ ∀ x ∈ ts, DeletesNobody x) := by
  obtain ⟨ts, s, hrun, _, hlen⟩ := execute_any step emptyWorkflow twoOpeners
    (fun ts _ => decide (ts.length = 13)) (by decide)
  exact ⟨ts, s, hrun, of_decide_eq_true hlen, (creation_waiters_answered hrun).1⟩

/-- The second thread is never answered. -/
theorem opener_deleted_unanswered :
    ¬ ∀ ts s, Run Step emptyWorkflow ts s → ∀ x ∈ ts, AnsweredOnce x := by
  intro hall
  obtain ⟨ts, s, hrun, _, hlost⟩ := execute_any step emptyWorkflow twoOpeners
    (fun ts _ => ts.any (fun x => (x.source.server.waitingCreation "/c/f".toList).count 2 == 1 &&
      (x.target.server.waitingCreation "/c/f".toList).count 2 == 0 && replied x.label == [])) (by decide)
  obtain ⟨x, hx, hx'⟩ := List.any_eq_true.mp hlost
  simp only [Bool.and_eq_true, beq_iff_eq] at hx'
  have hone := hall ts s hrun x hx "/c/f".toList 2 (by omega)
  rw [hx'.2, hx'.1.1, hx'.1.2] at hone
  cases hone

end Capio.Server.System
