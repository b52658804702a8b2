import Capio.Server.WaitingTables

/-! When consumers may go on with a file that is still being produced: the reply
to a `READ` or `CONSENT`, sent by its handler or by a later scan of the path. -/
namespace Capio.Server.System
open Library CapioServer

/-- A handled path and a thread that does not produce it. -/
def Consumer (s : System) (path : CString) (tid : Tid) : Prop :=
  s.server.fileToBeHandled path = true ∧ s.server.isProducer path tid ≠ some true

/-- A scan takes the size of a directory to be the largest one. -/
def ReadReleasable (s : System) (path : CString) (endOfRead : Nat) : Prop :=
  s.server.isCommitted s.fs path = some true ∨
    s.server.clEngine.getFireRule path = capioFileModeNoUpdate ∧
      ∃ size, awaitedSize s.fs path = some size ∧ endOfRead ≤ size

def ConsentReleasable (s : System) (path : CString) : Prop :=
  s.server.isCommitted s.fs path = some true ∨
    s.server.clEngine.getFireRule path = capioFileModeNoUpdate ∧ s.fs.fileExists path = true

/-- Whether a registered thread may be released. `CONSENT` registers with size 0
and `READ` never does. -/
def Releasable (s : System) (path : CString) (expectedSize : Nat) : Prop :=
  if expectedSize = 0 then ConsentReleasable s path else ReadReleasable s path expectedSize

/-- The replies of one step to consumers are sound. -/
structure ReleaseSound (x : Transition System Event) : Prop where
  read : ∀ path tid fd endOfRead, x.label.action = .request (.read path tid fd endOfRead) →
    Consumer x.source path tid → x.label.replies ≠ [] → ReadReleasable x.source path endOfRead
  consent : ∀ path tid sourceFunc, x.label.action = .request (.consent tid path sourceFunc) →
    Consumer x.source path tid → x.label.replies ≠ [] → ConsentReleasable x.source path
  deferred : ∀ path tid expectedSize,
    x.source.callOf x.label.action = some (.checkAndUnlockThreadAwaitingData path) →
    Consumer x.source path tid → x.source.server.waitingData path tid = some expectedSize →
    (∃ reply ∈ x.label.replies, reply.tid = tid) → Releasable x.source path expectedSize

/-- A consumer's `READ` of an uncommitted path finds its bytes only under the fire
rule `no_update`, and a scan of such a path meets a consumer whose thread id is at
least the size only when what it waits for is there. -/
structure WaitsAsAsked (x : Transition System Event) : Prop where
  read : ∀ path tid fd endOfRead size, x.label.action = .request (.read path tid fd endOfRead) →
    Consumer x.source path tid → x.source.server.isCommitted x.source.fs path = some false →
    getFileSizeIfExists x.source.fs path = some size → endOfRead ≤ size →
    x.source.server.clEngine.getFireRule path = capioFileModeNoUpdate
  deferred : ∀ path tid expectedSize size,
    x.source.callOf x.label.action = some (.checkAndUnlockThreadAwaitingData path) →
    Consumer x.source path tid → x.source.server.waitingData path tid = some expectedSize →
    x.source.server.isCommitted x.source.fs path = some false →
    x.source.server.clEngine.getFireRule path = capioFileModeNoUpdate →
    awaitedSize x.source.fs path = some size → size ≤ unsignedTid tid →
    if expectedSize = 0 then x.source.fs.fileExists path = true else expectedSize ≤ size

variable {s t : System} {e : Event}

private theorem awaitedSize_of_file {fs : FileSystem} {path : CString} {size : Nat}
    (h : getFileSizeIfExists fs path = some size) : awaitedSize fs path = some size := by
  unfold awaitedSize
  split_ifs with hd
  · exfalso
    unfold getFileSizeIfExists FileSystem.fileExists FileSystem.fileSize at h
    unfold FileSystem.isDirectory at hd
    cases hn : fs.node path with
    | none => simp [hn] at hd
    | some n => cases n <;> simp [hn] at hd h
  · exact h

private theorem releasable_of_firable {path : CString} {expectedSize size : Nat}
    (hr : s.server.clEngine.getFireRule path = capioFileModeNoUpdate)
    (hs : awaitedSize s.fs path = some size)
    (h : if expectedSize = 0 then s.fs.fileExists path = true else expectedSize ≤ size) :
    Releasable s path expectedSize := by
  unfold Releasable
  split_ifs at h ⊢
  · exact .inr ⟨hr, h⟩
  · exact .inr ⟨hr, size, hs, h⟩

private theorem enough_of_releasable {path : CString} {expectedSize size : Nat}
    (hc : s.server.isCommitted s.fs path = some false) (hs : awaitedSize s.fs path = some size)
    (h : Releasable s path expectedSize) :
    if expectedSize = 0 then s.fs.fileExists path = true else expectedSize ≤ size := by
  unfold Releasable at h
  split_ifs at h ⊢
  · rcases h with hcom | ⟨_, he⟩
    · rw [hc] at hcom; cases hcom
    · exact he
  · rcases h with hcom | ⟨_, size', hs', hle⟩
    · rw [hc] at hcom; cases hcom
    · rw [hs] at hs'; cases hs'; exact hle

private theorem read_sound (h : Step s e t) {path : CString} {tid fd : Tid} {endOfRead : Nat}
    (ha : e.action = .request (.read path tid fd endOfRead)) (hc : Consumer s path tid) :
    (e.replies ≠ [] → ReadReleasable s path endOfRead) ↔
      ∀ size, s.server.isCommitted s.fs path = some false → getFileSizeIfExists s.fs path = some size →
        endOfRead ≤ size → s.server.clEngine.getFireRule path = capioFileModeNoUpdate := by
  obtain ⟨action, replies⟩ := e
  subst ha
  obtain ⟨_, calls, hd, _⟩ := step_request h
  obtain ⟨_, _, hp⟩ | ⟨_, committed, size, hcom, hsize, hans⟩ := readHandler_spec tid fd path endOfRead hd
  · rw [hc.1] at hp
    cases hp
  constructor
  · intro hrel size' hfalse hsize' hle
    rw [hsize] at hsize'
    cases hsize'
    rcases hans with ⟨_, rfl, _⟩ | ⟨_, _, _, hlt, _⟩
    · rcases hrel (by simp) with hyes | ⟨hfire, _⟩
      · rw [hfalse] at hyes
        cases hyes
      · exact hfire
    · omega
  · intro hcond hne
    cases committed with
    | true => exact .inl hcom
    | false =>
      rcases hans with ⟨_, _, hle | hb | hprod⟩ | ⟨_, rfl, _⟩
      · exact .inr ⟨hcond size hcom hsize hle, size, awaitedSize_of_file hsize, hle⟩
      · cases hb
      · exact absurd hprod hc.2
      · exact absurd rfl hne

private theorem consent_sound (h : Step s e t) {path sourceFunc : CString} {tid : Tid}
    (ha : e.action = .request (.consent tid path sourceFunc)) (hc : Consumer s path tid)
    (hne : e.replies ≠ []) : ConsentReleasable s path := by
  obtain ⟨action, replies⟩ := e
  subst ha
  obtain ⟨_, calls, hd, _⟩ := step_request h
  rcases consentToProceedHandler_spec tid path sourceFunc hd with ⟨_, _, hp | hprod | ⟨he, hcom | hfire⟩⟩ |
      ⟨_, rfl, _⟩
  · rw [hc.1] at hp
    cases hp
  · exact absurd hprod hc.2
  · exact .inl hcom
  · exact .inr ⟨hfire, he⟩
  · exact absurd rfl hne

/-- The scan of a path, for one thread registered there. -/
private theorem deferred_sound {fs : FileSystem} {path : CString} {tid : Tid} {expectedSize : Nat}
    (hrun : (Call.checkAndUnlockThreadAwaitingData path).run s.server s.fs = some (t.server, fs, e.replies))
    (hc : Consumer s path tid) (hw : s.server.waitingData path tid = some expectedSize) :
    ((∃ reply ∈ e.replies, reply.tid = tid) → Releasable s path expectedSize) ↔
      ∀ size, s.server.isCommitted s.fs path = some false →
        s.server.clEngine.getFireRule path = capioFileModeNoUpdate → awaitedSize s.fs path = some size →
        size ≤ unsignedTid tid →
        if expectedSize = 0 then s.fs.fileExists path = true else expectedSize ≤ size := by
  obtain ⟨⟨server, replies⟩, hu, he⟩ := Option.bind_eq_some_iff.mp hrun
  cases he
  have hscan := checkAndUnlock_spec hu
  obtain ⟨verdict, hbody⟩ := Option.isSome_iff_exists.mp (hscan.decided tid expectedSize hw)
  obtain ⟨filesize, committed, producer, hsize, hcom, hprod, hdec⟩ := unlockBody_spec hbody
  constructor
  · intro hrel size hfalse hfire hsize' hle
    rw [hsize] at hsize'
    cases hsize'
    rcases hdec with ⟨rfl, _⟩ | ⟨_, _, _, hnot⟩
    · have hin : (⟨tid, filesize⟩ : Reply) ∈ e.replies :=
        (hscan.released _).mpr ⟨tid, expectedSize, hw, hbody⟩
      exact enough_of_releasable hfalse hsize (hrel ⟨_, hin, rfl⟩)
    · exact absurd ⟨hle, hfire⟩ hnot
  · rintro hcond ⟨reply, hin, rfl⟩
    obtain ⟨u, size', hw', hbody'⟩ := (hscan.released reply).mp hin
    obtain ⟨_, _, _, _, _, _, ⟨hv, _⟩ | ⟨hv, _⟩⟩ := unlockBody_spec hbody'
    case inr => cases hv
    cases hv
    rw [hw] at hw'
    cases hw'
    rw [hbody] at hbody'
    cases hbody'
    rcases hdec with ⟨_, rfl | rfl | ⟨hle, hfire⟩⟩ | ⟨hv, _⟩
    · unfold Releasable
      split_ifs
      · exact .inl hcom
      · exact .inl hcom
    · exact absurd hprod hc.2
    · cases committed with
      | true =>
        unfold Releasable
        split_ifs
        · exact .inl hcom
        · exact .inl hcom
      | false => exact releasable_of_firable hfire hsize (hcond filesize hcom hfire hsize hle)
    · cases hv

theorem release_step (h : Step s e t) : ReleaseSound ⟨s, e, t⟩ ↔ WaitsAsAsked ⟨s, e, t⟩ := by
  have hscan {path : CString} (hc : s.callOf e.action = some (.checkAndUnlockThreadAwaitingData path)) :
      (Call.checkAndUnlockThreadAwaitingData path).run s.server s.fs = some (t.server, t.fs, e.replies) := by
    rcases step_cases h with ⟨c, hc', hrun⟩ | ⟨hc', _⟩
    · rw [hc] at hc'; cases hc'; exact hrun
    · rw [hc] at hc'; cases hc'
  constructor
  · intro hs
    constructor
    · intro path tid fd endOfRead size ha hc
      exact (read_sound h ha hc).mp (hs.read path tid fd endOfRead ha hc) size
    · intro path tid expectedSize size ha hc hw
      exact (deferred_sound (hscan ha) hc hw).mp (hs.deferred path tid expectedSize ha hc hw) size
  · intro hw
    constructor
    · intro path tid fd endOfRead ha hc
      exact (read_sound h ha hc).mpr (fun size => hw.read path tid fd endOfRead size ha hc)
    · intro path tid sourceFunc ha hc
      exact consent_sound h ha hc
    · intro path tid expectedSize ha hc hwait
      exact (deferred_sound (hscan ha) hc hwait).mpr
        (fun size => hw.deferred path tid expectedSize size ha hc hwait)

variable {env : Env} {engine : CapioCLEngine} {fs : FileSystem} {ts : Trace}

/-- A `CONSENT` of the run when the size is 0, otherwise a `READ` up to the size. -/
def AskedFor (ts : Trace) (path : CString) (tid : Tid) (expectedSize : Nat) : Prop :=
  ∃ x ∈ ts, if expectedSize = 0 then ∃ sourceFunc, x.label.action = .request (.consent tid path sourceFunc)
    else ∃ fd, x.label.action = .request (.read path tid fd expectedSize)

/-- The registrations made and about to be made come from requests of the run. -/
structure AllAskedFor (ts : Trace) (s : System) : Prop where
  waiting : ∀ path tid size, s.server.waitingData path tid = some size → AskedFor ts path tid size
  pending : ∀ path tid size, Call.addThreadAwaitingData path tid size ∈ s.pending → AskedFor ts path tid size

private theorem asked_of_mayCall {r : Request} {path : CString} {tid : Tid} {size : Nat}
    (h : mayCall r (.addThreadAwaitingData path tid size)) :
    if size = 0 then ∃ sourceFunc, r = .consent tid path sourceFunc else ∃ fd, r = .read path tid fd size := by
  cases r with
  | consent u q sourceFunc =>
    cases h
    exact ⟨sourceFunc, rfl⟩
  | read q u fd endOfRead =>
    obtain ⟨he, hpos⟩ := h
    cases he
    rw [if_neg (by omega)]
    exact ⟨fd, rfl⟩
  | _ => simp [mayCall, setCommitted] at h

/-- Whoever waits for data has asked for it, a `CONSENT` with size 0 and a `READ`
with the end of what it reads. -/
theorem waiting_asked (h : Run Step (boot env engine fs) ts s) : AllAskedFor ts s := by
  induction h with
  | nil => exact ⟨by simp [boot, waitingData], by simp [boot]⟩
  | @snoc ts s e t _ hstep ih =>
    have hmore {path : CString} {tid : Tid} {size : Nat} (h : AskedFor ts path tid size) :
        AskedFor (ts ++ [⟨s, e, t⟩]) path tid size := by
      obtain ⟨x, hx, ha⟩ := h
      exact ⟨x, List.mem_append_left _ hx, ha⟩
    obtain ⟨action, replies⟩ := e
    cases action with
    | request r =>
      obtain ⟨_, calls, hd, rfl⟩ := step_request hstep
      refine ⟨fun path tid size hw => hmore (ih.waiting path tid size hw), ?_⟩
      intro path tid size hp
      have hr := asked_of_mayCall (handle_mayCall hd _ hp)
      refine ⟨_, List.mem_append_right _ (List.mem_singleton.mpr rfl), ?_⟩
      split_ifs at hr ⊢
      · obtain ⟨sourceFunc, rfl⟩ := hr; exact ⟨sourceFunc, rfl⟩
      · obtain ⟨fd, rfl⟩ := hr; exact ⟨fd, rfl⟩
    | call =>
      obtain ⟨c, calls, server, fs, hp, hrun, rfl⟩ := step_call hstep
      constructor
      · intro path tid size hw
        rcases Call.run_waitingData hrun hw with hold | rfl
        · exact hmore (ih.waiting path tid size hold)
        · exact hmore (ih.pending path tid size (by simp [hp]))
      · exact fun path tid size hm => hmore (ih.pending path tid size (hp ▸ List.mem_cons_of_mem c hm))
    | monitor =>
      rcases step_monitor hstep with ⟨m, _, _, rfl, _⟩ | ⟨c, m, server, fs, hc, hrun, rfl⟩
      · exact ⟨fun path tid size hw => hmore (ih.waiting path tid size hw),
          fun path tid size hp => hmore (ih.pending path tid size hp)⟩
      · refine ⟨?_, fun path tid size hp => hmore (ih.pending path tid size hp)⟩
        intro path tid size hw
        rcases Call.run_waitingData hrun hw with hold | rfl
        · exact hmore (ih.waiting path tid size hold)
        · exact absurd rfl (monitorCall_ne_addThreadAwaitingData hc path tid size)
    | environment fs =>
      cases hstep
      exact ⟨fun path tid size hw => hmore (ih.waiting path tid size hw),
        fun path tid size hp => hmore (ih.pending path tid size hp)⟩

/-- A thread reads from a file that somebody else is writing. -/
def earlyReader : List Action :=
  [.request (.handshakeAnonymous 1 1), .call,
    .environment ⟨fun p => if p = "/c/f".toList then some (.file "data".toList) else none⟩,
    .request (.read "/c/f".toList 1 3 2)]

end Capio.Server.System
