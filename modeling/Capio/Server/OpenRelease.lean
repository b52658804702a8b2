import Capio.Server.Network
import Capio.Server.WaitingTables

/-! Onto what a waiting `OPEN` is released. The handlers of `CREATE` and `RENAME`
unlock a path on the announcement of a kernel call that may not have happened. -/
namespace Capio.Server.Net
open Library

/-- Replies to the openers of a path that do not produce it find the file. -/
structure OpensExisting (x : Transition Net Event) : Prop where
  handler : ∀ path tid fd, x.source.served x.label.action = some (.request (.openFile tid fd path)) →
    x.source.sys.server.isProducer path tid ≠ some true → x.label.replies ≠ [] →
    x.source.sys.fs.fileExists path = true
  unlocked : ∀ path tid, x.source.callOf x.label.action = some (.unlockThreadAwaitingCreation path) →
    x.source.sys.server.isProducer path tid ≠ some true → (∃ reply ∈ x.label.replies, reply.tid = tid) →
    x.source.sys.fs.fileExists path = true

/-- A step that makes a path: the kernel call of a client, which can bring it with a directory
that it lies in, another process, or the server when the path is one of its tokens. -/
def Makes (x : Transition Net Event) (path : CString) : Prop :=
  (∃ tid, x.label.action = .kernelCreate tid path) ∨
  (∃ tid oldPath newPath, x.label.action = .kernelRename tid oldPath newPath ∧
    FileSystem.Under newPath path ∧ x.source.sys.fs.fileExists (FileSystem.source oldPath newPath path) = true) ∨
  (∃ n, x.label.action = .others path n) ∨
  ∃ q, x.source.sys.server.token q = path ∧ (x.source.callOf x.label.action = some (.createToken q) ∨
    x.source.callOf x.label.action = some (.increaseCloseCount q))

/-- The kernel gives a path, or a directory that it lies in, another name, or puts something else
in the place. -/
def MovesAway (x : Transition Net Event) (path : CString) : Prop :=
  ∃ tid oldPath newPath, x.label.action = .kernelRename tid oldPath newPath ∧ oldPath ≠ newPath ∧
    (FileSystem.Under oldPath path ∨ FileSystem.Under newPath path)

/-- By the order of the steps so far, a path was there at first or has been made,
and was not moved away since. -/
def Arrived (fs : FileSystem) (path : CString) : Trace → Prop :=
  Run.Since (fs.fileExists path = true) (Makes · path) (MovesAway · path)

variable {s t : Net} {e : Event} {fs : FileSystem} {ts : Trace}

private theorem run_exists {server server' : CapioServer} {fs fs' : FileSystem} {c : Call}
    {out : List Reply} (h : c.run server fs = some (server', fs', out)) (path : CString) :
    fs'.fileExists path = true ↔ fs.fileExists path = true ∨
      ∃ q, server.token q = path ∧ (c = .createToken q ∨ c = .increaseCloseCount q) := by
  cases c with
  | createToken q =>
    cases h
    simp only [CapioServer.createToken, FileSystem.createExclusive_exists, Bool.or_eq_true,
      decide_eq_true_eq]
    constructor
    · rintro (rfl | hp)
      · exact .inr ⟨q, rfl, .inl rfl⟩
      · exact .inl hp
    · rintro (hp | ⟨r, rfl, hr | hr⟩)
      · exact .inr hp
      · cases hr; exact .inl rfl
      · cases hr
  | increaseCloseCount q =>
    obtain ⟨fs'', hi, he⟩ := Option.bind_eq_some_iff.mp h
    cases he
    unfold CapioServer.increaseCloseCount at hi
    dsimp only at hi
    split_ifs at hi
    cases hi
    unfold FileSystem.fileExists
    rw [FileSystem.set_node]
    split_ifs with hq
    · refine iff_of_true rfl (.inr ⟨q, hq.symm, .inr rfl⟩)
    · constructor
      · exact .inl
      · rintro (hp | ⟨r, rfl, hr | hr⟩)
        · exact hp
        · cases hr
        · cases hr; exact absurd rfl hq
  | _ =>
    rw [(Call.run_frame h).files rfl]
    simp

private theorem kernel_step (h : Step s e t) (hs : s.served e.action = none) (path : CString) :
    t.sys.fs.fileExists path = true ↔ ((∃ tid, e.action = .kernelCreate tid path) ∨
      (∃ tid oldPath newPath, e.action = .kernelRename tid oldPath newPath ∧ FileSystem.Under newPath path ∧
        s.sys.fs.fileExists (FileSystem.source oldPath newPath path) = true) ∨ ∃ n, e.action = .others path n) ∨
      s.sys.fs.fileExists path = true ∧ ¬ MovesAway ⟨s, e, t⟩ path := by
  obtain ⟨action, replies⟩ := e
  have hstay (hn : ∀ tid oldPath newPath, action ≠ .kernelRename tid oldPath newPath) :
      ¬ MovesAway ⟨s, ⟨action, replies⟩, t⟩ path := by
    rintro ⟨tid, oldPath, newPath, ha, _⟩
    exact hn tid oldPath newPath ha
  cases action with
  | kernelRename tid oldPath newPath =>
    simp only [StepOf, step] at h
    split_ifs at h with he
    cases h
    simp only [finish, FileSystem.rename_exists, MovesAway, NetAction.kernelRename.injEq, reduceCtorEq,
      exists_false, false_or, or_false]
    refine or_congr ?_ (and_congr_right fun _ => ?_)
    · constructor
      · exact fun hp => ⟨tid, oldPath, newPath, ⟨rfl, rfl, rfl⟩, hp⟩
      · rintro ⟨_, _, _, ⟨rfl, rfl, rfl⟩, hp⟩
        exact hp
    · rw [← not_or]
      constructor
      · rintro hstays ⟨_, _, _, ⟨rfl, rfl, rfl⟩, hne, hp⟩
        exact hstays hne hp
      · exact fun hstays hne hp => hstays ⟨tid, oldPath, newPath, ⟨rfl, rfl, rfl⟩, hne, hp⟩
  | kernelCreate tid p =>
    have hm := hstay (by simp)
    simp only [StepOf, step] at h
    split_ifs at h
    cases h
    rw [and_iff_left hm]
    simp only [finish, FileSystem.createExclusive_exists, NetAction.kernelCreate.injEq, reduceCtorEq, false_and,
      exists_false, or_false, Bool.or_eq_true, decide_eq_true_eq]
    refine or_congr ?_ Iff.rfl
    constructor
    · intro hp
      exact ⟨tid, rfl, hp.symm⟩
    · rintro ⟨_, _, hp⟩
      exact hp.symm
  | others p n =>
    have hm := hstay (by simp)
    cases h
    rw [and_iff_left hm]
    simp only [FileSystem.fileExists, FileSystem.set_node, NetAction.others.injEq, reduceCtorEq, false_and,
      exists_false, false_or]
    split_ifs with hp
    · exact iff_of_true rfl (.inl ⟨n, hp.symm, rfl⟩)
    · refine ⟨.inr, ?_⟩
      rintro (⟨_, hp', _⟩ | he)
      · exact absurd hp'.symm hp
      · exact he
  | receive =>
    cases hq : s.queue with
    | nil => simp [StepOf, step, hq] at h
    | cons r queue => simp [served, hq] at hs
  | call => cases hs
  | monitor => cases hs
  | _ =>
    have hm := hstay (by simp)
    simp only [StepOf, step] at h
    split_ifs at h
    cases h
    rw [and_iff_left hm]
    simp only [reduceCtorEq, false_and, exists_false, or_false, false_or]
    rfl

private theorem served_kinds {a : NetAction} {b : Action} (h : s.served a = some b) :
    a = .receive ∧ (∃ r, b = .request r) ∨ a = .call ∧ b = .call ∨ a = .monitor ∧ b = .monitor := by
  cases a with
  | receive =>
    obtain ⟨r, _, rfl⟩ := Option.map_eq_some_iff.mp h
    exact .inl ⟨rfl, r, rfl⟩
  | call =>
    cases h
    exact .inr (.inl ⟨rfl, rfl⟩)
  | monitor =>
    cases h
    exact .inr (.inr ⟨rfl, rfl⟩)
  | _ => cases h

private theorem server_step {b : Action} (hb : s.served e.action = some b)
    (h : s.sys.step b = some (t.sys, e.replies)) (path : CString) : t.sys.fs.fileExists path = true ↔
      s.sys.fs.fileExists path = true ∨ ∃ q, s.sys.server.token q = path ∧
        (s.callOf e.action = some (.createToken q) ∨ s.callOf e.action = some (.increaseCloseCount q)) := by
  have hcall : s.callOf e.action = s.sys.callOf b := by
    unfold callOf
    rw [hb, Option.bind_some]
  rw [hcall]
  rcases System.step_cases h with ⟨c, hc, hrun⟩ | ⟨hc, _, ⟨_, ⟨_, hfs⟩ | henv⟩ | ⟨_, _, hfs, _⟩⟩
  · rw [run_exists hrun path, hc]
    simp only [Option.some.injEq]
  · rw [hfs, hc]
    simp
  · rcases served_kinds hb with ⟨_, r, rfl⟩ | ⟨_, rfl⟩ | ⟨_, rfl⟩ <;> cases henv
  · rw [hfs, hc]
    simp

/-- A path is there after a step if the step made it, or it was there and the
step did not move it away. -/
theorem exists_step (h : Step s e t) (path : CString) : t.sys.fs.fileExists path = true ↔
    Makes ⟨s, e, t⟩ path ∨ s.sys.fs.fileExists path = true ∧ ¬ MovesAway ⟨s, e, t⟩ path := by
  unfold Makes
  dsimp only
  rcases step_cases h with ⟨b, hb, hs⟩ | ⟨hb, _, _⟩
  · have hm : ¬ MovesAway ⟨s, e, t⟩ path := by
      rintro ⟨tid, oldPath, newPath, ha, _⟩
      dsimp only at ha
      rw [ha] at hb
      cases hb
    rw [server_step hb hs path, and_iff_left hm]
    rcases served_kinds hb with ⟨ha, _⟩ | ⟨ha, _⟩ | ⟨ha, _⟩ <;>
      simp only [ha, reduceCtorEq, false_and, exists_false, false_or] <;> exact or_comm
  · have hcall : s.callOf e.action = none := by
      unfold callOf
      rw [hb, Option.bind_none]
    rw [kernel_step h hb path, hcall]
    simp only [reduceCtorEq, or_false, and_false, exists_false]

variable {env : Env} {engine : CapioCLEngine}

theorem exists_iff_arrived (h : Run Step (start env engine fs) ts s) (path : CString) :
    s.sys.fs.fileExists path = true ↔ Arrived fs path ts :=
  h.since_iff (fun s => s.sys.fs.fileExists path = true) _ _ (fun _ _ _ hstep => exists_step hstep path)

private theorem opens_step (h : Step s e t) : OpensExisting ⟨s, e, t⟩ ↔
    ∀ path tid, s.callOf e.action = some (.unlockThreadAwaitingCreation path) →
      tid ∈ s.sys.server.waitingCreation path → s.sys.server.isProducer path tid ≠ some true →
      s.sys.fs.fileExists path = true := by
  have hreplies {path : CString} (hc : s.callOf e.action = some (.unlockThreadAwaitingCreation path))
      (tid : Tid) : (∃ reply ∈ e.replies, reply.tid = tid) ↔ tid ∈ s.sys.server.waitingCreation path := by
    rcases step_cases h with ⟨b, hb, hs⟩ | ⟨hb, _⟩
    · rw [callOf, hb, Option.bind_some] at hc
      rcases System.step_cases hs with ⟨c, hc', hrun⟩ | ⟨hc', _⟩
      · rw [hc] at hc'
        cases hc'
        rcases Call.run_creation hrun with ⟨_, _, hn, _⟩ | ⟨p, hn, hr, _⟩ | ⟨_, hn, _⟩ | ⟨hn, _⟩
        · cases hn
        · cases hn
          rw [hr]
          simp
        · cases hn
        · cases hn
      · rw [hc] at hc'
        cases hc'
    · rw [callOf, hb] at hc
      cases hc
  constructor
  · intro ho path tid hc hw hp
    exact ho.unlocked path tid hc hp ((hreplies hc tid).mpr hw)
  · intro hcond
    constructor
    · intro path tid fd hb hp hne
      rcases step_cases h with ⟨b, hb', hs⟩ | ⟨hb', _⟩
      · rw [hb] at hb'
        cases hb'
        obtain ⟨_, calls, hd, _⟩ := System.step_request hs
        rcases openHandler_spec tid fd path hd with ⟨_, _, he | hprod⟩ | ⟨_, hnil, _⟩
        · exact he
        · exact absurd hprod hp
        · exact absurd hnil hne
      · rw [hb] at hb'
        cases hb'
    · intro path tid hc hp hr
      exact hcond path tid hc ((hreplies hc tid).mp hr) hp

/-- A path is unlocked for an opener that does not produce it only after a step
has brought the path. `earlier` are the steps before. -/
def UnlocksArrived (fs : FileSystem) (earlier : Trace) (x : Transition Net Event) : Prop :=
  ∀ path tid, x.source.callOf x.label.action = some (.unlockThreadAwaitingCreation path) →
    tid ∈ x.source.sys.server.waitingCreation path → x.source.sys.server.isProducer path tid ≠ some true →
    Arrived fs path earlier

/-- One client waits for a file that the other announces and has not made yet. -/
def announcedCreate : List NetAction :=
  let path := "/c/f".toList
  [.send 1 (.handshakeAnonymous 1 1), .send 2 (.handshakeAnonymous 2 2), .receive, .call, .receive, .call,
    .send 2 (.openFile 2 (-1) path), .receive, .call, .sendCreate 1 (-1) path, .receive, .call,
    .kernelCreate 1 path]

def quietStart : Net := start ⟨"/c".toList, none⟩ ⟨∅⟩ ⟨fun _ => none⟩

end Capio.Server.Net
