import Capio.Server.WaitingTables

/-! Threads waiting for data, over every interleaving of requests with scans. A
client sends no blocking request while one of its own is unanswered. -/
namespace Capio.Server.System
open Library CapioServer

/-- The client a request keeps waiting for the reply. -/
def blocks : Request → Option Tid
  | .consent tid _ _ | .openFile tid _ _ | .read _ tid _ _ => some tid
  | _ => none

/-- A thread that waits for nothing. -/
def Free (server : CapioServer) (tid : Tid) : Prop :=
  ∀ path, server.waitingData path tid = none ∧ tid ∉ server.waitingCreation path

/-- A blocking request comes from a client that waits for nothing. -/
def OneOutstanding (x : Transition System Event) : Prop :=
  ∀ r tid, x.label.action = .request r → blocks r = some tid → Free x.source.server tid

/-- What one step does to the threads waiting for data. -/
structure AnsweredByScan (x : Transition System Event) : Prop where
  recorded : ∀ path tid size,
    x.source.callOf x.label.action = some (.addThreadAwaitingData path tid size) →
    x.target.server.waitingData path tid = some size
  fresh : ∀ path tid size, x.target.server.waitingData path tid = some size →
    x.source.server.waitingData path tid = some size ∨
      x.source.callOf x.label.action = some (.addThreadAwaitingData path tid size)
  stays : ∀ path tid size, x.source.server.waitingData path tid = some size →
    (x.target.server.waitingData path tid = some size ∧ (replied x.label).count tid = 0) ∨
    (x.source.callOf x.label.action = some (.checkAndUnlockThreadAwaitingData path) ∧
      x.target.server.waitingData path tid = none ∧ (replied x.label).count tid = 1)
  scanned : ∀ path, x.source.callOf x.label.action = some (.checkAndUnlockThreadAwaitingData path) →
    (∀ tid ∈ replied x.label, (x.source.server.waitingData path tid).isSome) ∧
    ∀ q, q ≠ path → x.target.server.fileManager.threadAwaitingData.lookup q =
      x.source.server.fileManager.threadAwaitingData.lookup q
  keys : ∀ path, path ∈ x.target.server.fileManager.threadAwaitingData ↔
    ∃ tid size, x.target.server.waitingData path tid = some size

/-- A call that registers a thread. -/
def registers : Call → Option Tid
  | .addThreadAwaitingData _ tid _ | .addThreadAwaitingCreation _ tid => some tid
  | _ => none

/-- No thread is registered twice, and one about to be registered waits for nothing. -/
structure WaitsOnce (s : System) : Prop where
  once : ∀ tid p q, (s.server.waitingData p tid).isSome → (s.server.waitingData q tid).isSome → p = q
  apart : ∀ tid p q, (s.server.waitingData p tid).isSome → tid ∉ s.server.waitingCreation q
  pending : ∀ c tid, c ∈ s.pending → registers c = some tid → s.pending = [c] ∧ Free s.server tid
  keys : s.server.DataKeysNonempty

variable {s t : System} {e : Event} {server : CapioServer} {fs : FileSystem} {calls : List Call}
  {out : List Reply}

theorem handle_registers {r : Request} (h : handle server fs r = some (calls, out)) {c : Call}
    {tid : Tid} (hc : c ∈ calls) (hr : registers c = some tid) : calls = [c] ∧ blocks r = some tid := by
  cases r with
  | consent u path sourceFunc =>
    rcases consentToProceedHandler_spec u path sourceFunc h with ⟨rfl, _⟩ | ⟨rfl, _⟩
    · cases hc
    · obtain rfl := List.mem_singleton.mp hc
      exact ⟨rfl, hr⟩
  | openFile u fd path =>
    rcases openHandler_spec u fd path h with ⟨rfl, _⟩ | ⟨rfl, _⟩
    · cases hc
    · obtain rfl := List.mem_singleton.mp hc
      exact ⟨rfl, hr⟩
  | read path u fd endOfRead =>
    rcases readHandler_spec u fd path endOfRead h with ⟨rfl, _⟩ | ⟨_, _, _, _, _, ⟨rfl, _⟩ | ⟨rfl, _⟩⟩
    · cases hc
    · cases hc
    · obtain rfl := List.mem_singleton.mp hc
      exact ⟨rfl, hr⟩
  | _ =>
    exfalso
    have hm := handle_mayCall h c hc
    cases c <;> simp [registers] at hr <;> simp [mayCall, setCommitted] at hm

/-- A handler replies at most to the client it keeps waiting, and then leaves no call. -/
theorem handle_replies {r : Request} (h : handle server fs r = some (calls, out)) {reply : Reply}
    (hm : reply ∈ out) : blocks r = some reply.tid ∧ calls = [] := by
  cases r with
  | consent u path sourceFunc =>
    rcases consentToProceedHandler_spec u path sourceFunc h with ⟨rfl, rfl, _⟩ | ⟨_, rfl, _⟩
    · rw [List.mem_singleton.mp hm]; exact ⟨rfl, rfl⟩
    · cases hm
  | openFile u fd path =>
    rcases openHandler_spec u fd path h with ⟨rfl, rfl, _⟩ | ⟨_, rfl, _⟩
    · rw [List.mem_singleton.mp hm]; exact ⟨rfl, rfl⟩
    · cases hm
  | read path u fd endOfRead =>
    rcases readHandler_spec u fd path endOfRead h with ⟨rfl, rfl, _⟩ | ⟨_, _, _, _, _, ⟨rfl, rfl, _⟩ | ⟨_, rfl, _⟩⟩
    · rw [List.mem_singleton.mp hm]; exact ⟨rfl, rfl⟩
    · rw [List.mem_singleton.mp hm]; exact ⟨rfl, rfl⟩
    · cases hm
  | close u path =>
    obtain ⟨rfl, _⟩ := closeHandler_spec u path h
    cases hm
  | exitGroup u =>
    obtain ⟨_, _, rfl, _⟩ := exitHandler_spec u h
    cases hm
  | write u fd path count =>
    obtain ⟨rfl, _⟩ := writeHandler_spec u fd path count h
    cases hm
  | _ =>
    cases h
    cases hm

theorem monitorCall_registers {c : Call} {m : Monitor} (h : s.monitorCall = some (c, m)) :
    registers c = none := by
  apply monitorCall_kind (registers · = none) h
  · exact fun _ => rfl
  · exact fun _ => rfl
  · exact fun _ => rfl

/-- Registrations are made by the request thread. -/
theorem callOf_registers {a : Action} {c : Call} {tid : Tid} (hc : s.callOf a = some c)
    (hr : registers c = some tid) : c ∈ s.pending := by
  cases a with
  | call => exact List.mem_of_head? hc
  | monitor =>
    obtain ⟨m, hm⟩ := callOf_monitor hc
    rw [monitorCall_registers hm] at hr
    cases hr
  | _ => cases hc

/-- A call whose registration, if it makes one, is of a free thread. -/
private theorem waitsOnce_run {c : Call} {server' : CapioServer} {fs' : FileSystem} {pending : List Call}
    {m : Monitor} (hi : WaitsOnce s) (hrun : c.run s.server s.fs = some (server', fs', out))
    (hfree : ∀ tid, registers c = some tid → Free s.server tid)
    (hpending : ∀ d tid, d ∈ pending → registers d = some tid →
      d ∈ s.pending ∧ pending = [d] ∧ registers c = none) :
    WaitsOnce ⟨server', fs', pending, m⟩ := by
  have hdata {p : CString} {tid : Tid} (h : (server'.waitingData p tid).isSome) :
      (s.server.waitingData p tid).isSome ∨ ∃ size, c = .addThreadAwaitingData p tid size := by
    obtain ⟨size, hw⟩ := Option.isSome_iff_exists.mp h
    rcases Call.run_waitingData hrun hw with hold | hnew
    · exact .inl (by rw [hold]; rfl)
    · exact .inr ⟨size, hnew⟩
  constructor
  case once =>
    intro tid p q hp hq
    rcases hdata hp with hp | ⟨n, rfl⟩ <;> rcases hdata hq with hq | ⟨m, hm⟩
    · exact hi.once tid p q hp hq
    · subst hm
      rw [(hfree tid rfl p).1] at hp
      cases hp
    · rw [(hfree tid rfl q).1] at hq
      cases hq
    · cases hm
      rfl
  case apart =>
    intro tid p q hp hq
    rcases hdata hp with hp | ⟨n, rfl⟩ <;> rcases Call.run_waitingCreation hrun hq with hq | hm
    · exact hi.apart tid p q hp hq
    · subst hm
      rw [(hfree tid rfl p).1] at hp
      cases hp
    · exact (hfree tid rfl q).2 hq
    · cases hm
  case pending =>
    intro d tid hd hr
    obtain ⟨hmem, hone, hnone⟩ := hpending d tid hd hr
    refine ⟨hone, ?_⟩
    have hf := (hi.pending d tid hmem hr).2
    intro path
    constructor
    · by_contra hw
      rcases hdata (Option.isSome_iff_ne_none.mpr hw) with hold | ⟨n, rfl⟩
      · rw [(hf path).1] at hold
        cases hold
      · cases hnone
    · intro hw
      rcases Call.run_waitingCreation hrun hw with hold | rfl
      · exact (hf path).2 hold
      · cases hnone
  case keys =>
    rcases Call.run_data hrun with ⟨p, u, n, _, rfl⟩ | ⟨p, _, hscan⟩ | ⟨_, hsame⟩
    · exact dataKeys_add hi.keys p u n
    · exact dataKeys_scan hi.keys hscan
    · intro path threads hl
      exact hi.keys path threads (hsame ▸ hl)

theorem waitsOnce_step (hi : WaitsOnce s) (h : Step s e t) (ho : OneOutstanding ⟨s, e, t⟩) :
    WaitsOnce t := by
  obtain ⟨action, replies⟩ := e
  cases action with
  | request r =>
    obtain ⟨_, calls, hd, rfl⟩ := step_request h
    refine ⟨hi.once, hi.apart, ?_, hi.keys⟩
    intro c tid hc hr
    obtain ⟨hone, hb⟩ := handle_registers hd hc hr
    exact ⟨hone, ho r tid rfl hb⟩
  | call =>
    obtain ⟨c, calls, server, fs, hp, hrun, rfl⟩ := step_call h
    refine waitsOnce_run hi hrun ?_ ?_
    · exact fun tid hr => (hi.pending c tid (by simp [hp]) hr).2
    · intro d tid hd hr
      -- a pending registration stands alone, so `d` cannot come after `c`
      have halone := (hi.pending d tid (hp ▸ List.mem_cons_of_mem c hd) hr).1
      rw [hp] at halone
      obtain ⟨_, rfl⟩ := List.cons.inj halone
      cases hd
  | monitor =>
    rcases step_monitor h with ⟨m, _, _, rfl, _⟩ | ⟨c, m, server, fs, hc, hrun, rfl⟩
    · exact ⟨hi.once, hi.apart, hi.pending, hi.keys⟩
    · have hnone := monitorCall_registers hc
      refine waitsOnce_run hi hrun ?_ ?_
      · intro tid hr
        rw [hnone] at hr
        cases hr
      · exact fun d tid hd hr => ⟨hd, (hi.pending d tid hd hr).1, hnone⟩
  | environment fs =>
    cases h
    exact ⟨hi.once, hi.apart, hi.pending, hi.keys⟩

private theorem count_replied_zero {tid : Tid} (h : ∀ reply ∈ e.replies, reply.tid ≠ tid) :
    (replied e).count tid = 0 := by
  rw [List.count_eq_zero]
  intro hm
  obtain ⟨reply, hr, ht⟩ := List.mem_map.mp hm
  exact h reply hr ht

/-- A registration under the scan of a path. -/
private theorem stays_scan (hi : WaitsOnce s) {path p : CString} {tid : Tid} {size : Nat}
    (hscan : s.server.checkAndUnlockThreadAwaitingData s.fs p = some (t.server, e.replies))
    (hw : s.server.waitingData path tid = some size) :
    (t.server.waitingData path tid = some size ∧ (replied e).count tid = 0) ∨
      p = path ∧ t.server.waitingData path tid = none ∧ (replied e).count tid = 1 := by
  have hs := checkAndUnlock_spec hscan
  have hsource {reply : Reply} (hr : reply ∈ e.replies) :
      ∃ n, s.server.waitingData p reply.tid = some n ∧
        s.server.unlockBody s.fs p reply.tid n = some (some reply) := by
    obtain ⟨u, n, hu, hb⟩ := (hs.released reply).mp hr
    obtain ⟨_, _, _, _, _, _, ⟨hv, _⟩ | ⟨hv, _⟩⟩ := unlockBody_spec hb
    · cases hv
      exact ⟨n, hu, hb⟩
    · cases hv
  by_cases hp : p = path
  · subst hp
    obtain ⟨verdict, hb⟩ := Option.isSome_iff_exists.mp (hs.decided tid size hw)
    cases verdict with
    | none =>
      refine .inl ⟨(hs.kept tid size).mpr ⟨hw, hb⟩, count_replied_zero ?_⟩
      rintro reply hr rfl
      obtain ⟨n, hn, hb'⟩ := hsource hr
      rw [hw] at hn
      cases hn
      rw [hb] at hb'
      cases hb'
    | some reply =>
      refine .inr ⟨rfl, ?_, ?_⟩
      · rw [Option.eq_none_iff_forall_ne_some]
        intro n hn
        have hkept := (hs.kept tid n).mp hn
        rw [hw] at hkept
        obtain ⟨hsize, hnone⟩ := hkept
        cases hsize
        rw [hb] at hnone
        cases hnone
      · have htid : reply.tid = tid := by
          obtain ⟨_, _, _, _, _, _, ⟨hv, _⟩ | ⟨hv, _⟩⟩ := unlockBody_spec hb <;> cases hv
          rfl
        have hm : tid ∈ replied e :=
          List.mem_map.mpr ⟨reply, (hs.released reply).mpr ⟨tid, size, hw, hb⟩, htid⟩
        have hpos : 0 < (replied e).count tid := List.count_pos_iff.mpr hm
        have hone := hs.once tid
        unfold replied at hpos ⊢
        omega
  · refine .inl ⟨?_, count_replied_zero ?_⟩
    · unfold waitingData at hw ⊢
      rw [hs.others path (Ne.symm hp), hw]
    · rintro reply hr rfl
      obtain ⟨n, hn, _⟩ := hsource hr
      exact hp (hi.once reply.tid p path (by rw [hn]; rfl) (by rw [hw]; rfl))

/-- A registration under any other call. -/
private theorem stays_call (hi : WaitsOnce s) {c : Call} {fs' : FileSystem} {path : CString} {tid : Tid}
    {size : Nat} (hrun : c.run s.server s.fs = some (t.server, fs', e.replies))
    (hfree : ∀ u, registers c = some u → Free s.server u)
    (hne : ∀ p, c ≠ .checkAndUnlockThreadAwaitingData p) (hw : s.server.waitingData path tid = some size) :
    t.server.waitingData path tid = some size ∧ (replied e).count tid = 0 := by
  constructor
  · rcases Call.run_data hrun with ⟨p, u, n, rfl, ht⟩ | ⟨p, rfl, _⟩ | ⟨_, hsame⟩
    · rw [ht, waitingData_add, if_neg, hw]
      rintro ⟨rfl, rfl⟩
      rw [(hfree tid rfl path).1] at hw
      cases hw
    · exact absurd rfl (hne p)
    · unfold waitingData at hw ⊢
      rw [hsame, hw]
  · apply count_replied_zero
    rintro reply hr rfl
    cases hb : c.replies with
    | false =>
      rw [(Call.run_frame hrun).silent hb] at hr
      cases hr
    | true =>
      rcases Call.run_creation hrun with ⟨_, _, rfl, _⟩ | ⟨p, rfl, hout, _⟩ | ⟨_, rfl, _⟩ | ⟨hq, _⟩
      · cases hb
      · rw [hout] at hr
        obtain ⟨u, hu, rfl⟩ := List.mem_map.mp hr
        exact hi.apart u path p (by rw [hw]; rfl) hu
      · cases hb
      · cases c <;> cases hb
        · cases hq
        · exact hne _ rfl

private theorem stays_step (hi : WaitsOnce s) (h : Step s e t) (ho : OneOutstanding ⟨s, e, t⟩)
    {path : CString} {tid : Tid} {size : Nat} (hw : s.server.waitingData path tid = some size) :
    (t.server.waitingData path tid = some size ∧ (replied e).count tid = 0) ∨
      (s.callOf e.action = some (.checkAndUnlockThreadAwaitingData path) ∧
        t.server.waitingData path tid = none ∧ (replied e).count tid = 1) := by
  rcases step_cases h with ⟨c, hc, hrun⟩ | ⟨_, ht, ⟨hnil, _⟩ | ⟨r, ha, _, hd⟩⟩
  · rcases Call.run_data hrun with ⟨p, u, n, rfl, _⟩ | ⟨p, rfl, hscan⟩ | ⟨hdata, _⟩
    · refine .inl (stays_call hi hrun ?_ (by simp) hw)
      intro v hv
      exact (hi.pending _ v (callOf_registers hc hv) hv).2
    · rcases stays_scan hi hscan hw with hstay | ⟨rfl, hgone⟩
      · exact .inl hstay
      · exact .inr ⟨hc, hgone⟩
    · refine .inl (stays_call hi hrun ?_ ?_ hw)
      · intro v hv
        exact (hi.pending _ v (callOf_registers hc hv) hv).2
      · rintro p rfl
        cases hdata
  · refine .inl ⟨ht ▸ hw, count_replied_zero ?_⟩
    rw [hnil]
    exact fun _ hr => absurd hr List.not_mem_nil
  · refine .inl ⟨ht ▸ hw, count_replied_zero ?_⟩
    rintro reply hr rfl
    have hfree := ho r reply.tid ha (handle_replies hd hr).1
    rw [(hfree path).1] at hw
    cases hw

theorem answeredByScan_step (hi : WaitsOnce s) (h : Step s e t) (ho : OneOutstanding ⟨s, e, t⟩) :
    AnsweredByScan ⟨s, e, t⟩ where
  stays := fun path tid size hw => stays_step hi h ho hw
  recorded := by
    intro path tid size ha
    rcases step_cases h with ⟨c, hc, hrun⟩ | ⟨hc, _⟩
    · rw [ha] at hc
      cases hc
      have ht : t.server = s.server.addThreadAwaitingData path tid size :=
        (congrArg Prod.fst (Option.some.inj hrun)).symm
      have hfree := (hi.pending _ tid (callOf_registers ha rfl) rfl).2 path
      dsimp only
      rw [ht, waitingData_add, if_pos ⟨rfl, rfl⟩, hfree.1, Option.getD_none]
    · rw [ha] at hc
      cases hc
  fresh := by
    intro path tid size hw
    rcases step_cases h with ⟨c, hc, hrun⟩ | ⟨_, ht, _⟩
    · rcases Call.run_waitingData hrun hw with hold | rfl
      · exact .inl hold
      · exact .inr hc
    · exact .inl (ht ▸ hw)
  scanned := by
    intro path ha
    rcases step_cases h with ⟨c, hc, hrun⟩ | ⟨hc, _⟩
    · rw [ha] at hc
      cases hc
      rcases Call.run_data hrun with ⟨_, _, _, he, _⟩ | ⟨p, he, hscan⟩ | ⟨hn, _⟩
      · cases he
      · cases he
        have hs := checkAndUnlock_spec hscan
        refine ⟨?_, hs.others⟩
        intro tid hm
        obtain ⟨reply, hr, rfl⟩ := List.mem_map.mp hm
        obtain ⟨u, n, hu, hb⟩ := (hs.released reply).mp hr
        obtain ⟨_, _, _, _, _, _, ⟨hv, _⟩ | ⟨hv, _⟩⟩ := unlockBody_spec hb
        · cases hv
          rw [hu]
          rfl
        · cases hv
      · cases hn
    · rw [ha] at hc
      cases hc
  keys := fun path => dataKeys_iff (waitsOnce_step hi h ho).keys path

variable {env : Env} {engine : CapioCLEngine} {ts : Trace}

theorem waitsOnce_boot : WaitsOnce (boot env engine fs) where
  once := by simp [boot, waitingData]
  apart := by simp [boot, waitingData]
  pending := by simp [boot]
  keys := by simp [boot, DataKeysNonempty]

/-- Along every run whose clients have one blocking request outstanding, a thread
waiting for data stays until the scan of its path sends it one reply. -/
theorem data_waiters_answered_once (h : Run Step (boot env engine fs) ts s)
    (ho : ∀ x ∈ ts, OneOutstanding x) : ∀ x ∈ ts, AnsweredByScan x :=
  h.forall_of OneOutstanding WaitsOnce AnsweredByScan waitsOnce_boot (fun _ _ _ => waitsOnce_step)
    (fun _ _ _ => answeredByScan_step) ho

/-- A thread reads from a missing file, which then appears with its token. -/
def lateWriter : List Action :=
  [.request (.handshakeAnonymous 1 1), .call, .request (.read "/c/f".toList 1 3 100), .call,
    .environment ⟨fun p => if p = "/c/f".toList ∨ p = "/c/.capio_metadata/c/f.capio".toList
      then some (.file []) else none⟩, .monitor, .monitor, .monitor, .monitor]

/-- A blocking request, if this is one, finds nobody waiting. -/
def findsNobody (x : Transition System Event) : Bool :=
  match x.label.action with
  | .request r => blocks r == none || x.source.server.fileManager.threadAwaitingData.keys == [] &&
      x.source.server.fileManager.threadAwaitingFileCreation.keys == []
  | _ => true

private theorem free_of_empty (hd : server.fileManager.threadAwaitingData.keys = [])
    (hc : server.fileManager.threadAwaitingFileCreation.keys = []) (tid : Tid) : Free server tid := by
  intro path
  have hdata : server.fileManager.threadAwaitingData.lookup path = none := by
    rw [AList.lookup_eq_none, AList.mem_keys, hd]
    exact List.not_mem_nil
  have hcreation : server.fileManager.threadAwaitingFileCreation.lookup path = none := by
    rw [AList.lookup_eq_none, AList.mem_keys, hc]
    exact List.not_mem_nil
  constructor
  · rw [waitingData, hdata, Option.bind_none]
  · rw [waitingCreation, hcreation]
    exact List.not_mem_nil

theorem data_waiters_answered_once_lateWriter : ∃ ts s, Run Step emptyWorkflow ts s ∧
    (∀ x ∈ ts, AnsweredByScan x) ∧ ∃ x ∈ ts, x.source.server.waitingData "/c/f".toList 1 = some 100 ∧
      replied x.label = [1] := by
  obtain ⟨ts, s, hrun, _, hp⟩ := execute_any step emptyWorkflow lateWriter (fun ts _ =>
    ts.all findsNobody &&
    ts.any (fun x => x.source.server.waitingData "/c/f".toList 1 == some 100 && replied x.label == [1]))
    (by decide)
  rw [Bool.and_eq_true] at hp
  refine ⟨ts, s, hrun, data_waiters_answered_once hrun ?_, ?_⟩
  · intro x hx r tid ha hb
    have hfree := List.all_eq_true.mp hp.1 x hx
    simp only [findsNobody, ha, hb, reduceCtorEq, Bool.or_eq_true, Bool.and_eq_true, beq_iff_eq, false_or] at hfree
    exact free_of_empty hfree.1 hfree.2 tid
  · obtain ⟨x, hx, hx'⟩ := List.any_eq_true.mp hp.2
    rw [Bool.and_eq_true, beq_iff_eq, beq_iff_eq] at hx'
    exact ⟨x, hx, hx'⟩

end Capio.Server.System
