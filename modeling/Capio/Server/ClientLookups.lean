import Capio.Server.ClientIdentity
import Capio.Server.DataWaiters

/-! The lookups in the client tables that throw on a missing key, over every
interleaving of disciplined clients with scans. -/
namespace Capio.Server
open Library

/-- The thread that sends a request. -/
def sender : Request → Tid
  | .consent tid _ _ | .close tid _ | .create tid _ _ | .exitGroup tid | .handshakeNamed tid _ _
  | .handshakeAnonymous tid _ | .openFile tid _ _ | .read _ tid _ _ | .rename tid _ _ | .write tid _ _ _ => tid

def isHandshake : Request → Bool
  | .handshakeNamed _ _ _ | .handshakeAnonymous _ _ => true
  | _ => false

/-- A thread in all three client tables. -/
structure Registered (cm : ClientManager) (tid : Tid) : Prop where
  responds : tid ∈ cm.bufsResponse
  named : tid ∈ cm.appNames
  produces : tid ∈ cm.filesToBeCommittedByTid

/-- The threads whose keys a call looks up with `at`: those it replies to and
those whose application name it asks for. -/
def looksUp (server : CapioServer) : Call → Tid → Prop
  | .addProducer _ tid, u => u = tid
  | .unlockThreadAwaitingCreation path, u => u ∈ server.waitingCreation path
  | .checkAndUnlockThreadAwaitingData path, u => (server.waitingData path u).isSome
  | _, _ => False

/-- A comparison with a glob throws in the search for the producers of the path. -/
def ProducerThrows (server : CapioServer) (path : CString) (tid : Tid) : Prop :=
  ∃ appName, server.clientManager.getAppName tid = some appName ∧
    CapioCLEngine.globProducer path appName server.clEngine.locations.entries = none

/-- What ends a handler besides a missing client. It is about the path of the request. -/
def HandlerThrows (server : CapioServer) (fs : FileSystem) : Request → Prop
  | .consent tid path _ => server.isCommitted fs path = none ∨ ProducerThrows server path tid
  | .read path tid _ _ =>
    server.isCommitted fs path = none ∨ getFileSizeIfExists fs path = none ∨ ProducerThrows server path tid
  | .close tid path | .openFile tid _ path => ProducerThrows server path tid
  | _ => False

/-- What ends a call besides a missing client. -/
def CallThrows (server : CapioServer) (fs : FileSystem) : Call → Prop
  | .checkAndUnlockThreadAwaitingData path => server.isCommitted fs path = none ∨
    ∃ tid, (server.waitingData path tid).isSome ∧ ProducerThrows server path tid
  | .increaseCloseCount path => fs.isDirectory (server.token path) = true
  | .addProducer path _ => server.clEngine.newFile path = none
  | _ => False

variable {server : CapioServer} {fs : FileSystem} {tid : Tid} {path : CString} {c : Call}

private theorem reply_found (h : Registered server.clientManager tid) (offset : Nat) :
    server.clientManager.replyToClient tid offset = some ⟨tid, offset⟩ := by
  rw [ClientManager.replyToClient, if_pos h.responds]

private theorem isProducer_found (h : Registered server.clientManager tid)
    (hn : server.isProducer path tid = none) : ProducerThrows server path tid := by
  unfold CapioServer.isProducer CapioCLEngine.isProducer ClientManager.getAppName at hn
  obtain ⟨appName, ha⟩ := Option.isSome_iff_exists.mp (AList.lookup_isSome.mpr h.named)
  rw [ha] at hn
  dsimp only [Option.bind_eq_bind, Option.bind_some] at hn
  split at hn
  · cases hn
  · exact ⟨appName, ha, hn⟩

private theorem answer_found (h : Registered server.clientManager tid) (offset : Nat) :
    (do let reply ← server.clientManager.replyToClient tid offset
        pure (([] : List Call), [reply])) ≠ none := by
  rw [reply_found h]
  exact Option.some_ne_none _

/-- A handler whose sender is registered fails on other grounds only. -/
theorem handle_fails {r : Request} (h : isHandshake r = false → Registered server.clientManager (sender r))
    (hn : handle server fs r = none) : HandlerThrows server fs r := by
  cases r with
  | consent u path sourceFunc =>
    change consentToProceedHandler server fs u path sourceFunc = none at hn
    unfold consentToProceedHandler at hn
    split_ifs at hn with hp
    · cases hi : server.isProducer path u with
      | none => exact .inr (isProducer_found (h rfl) hi)
      | some producer =>
        rw [hi] at hn
        dsimp only [Option.bind_eq_bind, Option.bind_some] at hn
        split_ifs at hn with hb
        · exact absurd hn (answer_found (h rfl) 1)
        · cases hc : server.isCommitted fs path with
          | none => exact .inl hc
          | some committed =>
            rw [hc] at hn
            dsimp only [Option.bind_eq_bind, Option.bind_some] at hn
            split_ifs at hn
            exact absurd hn (answer_found (h rfl) 1)
    · exact absurd hn (answer_found (h rfl) 1)
  | close u path =>
    change closeHandler server u path = none at hn
    unfold closeHandler at hn
    split_ifs at hn with hp hc
    · cases hi : server.isProducer path u with
      | none => exact isProducer_found (h rfl) hi
      | some producer =>
        rw [hi] at hn
        dsimp only [Option.bind_eq_bind, Option.bind_some] at hn
        split_ifs at hn
  | exitGroup u =>
    obtain ⟨files, hf⟩ := Option.isSome_iff_exists.mp (AList.lookup_isSome.mpr (h rfl).produces)
    change exitHandler server u = none at hn
    unfold exitHandler ClientManager.getProducedFiles at hn
    rw [show server.clientManager.filesToBeCommittedByTid.lookup u = some files from hf] at hn
    cases hn
  | openFile u fd path =>
    change openHandler server fs u fd path = none at hn
    unfold openHandler at hn
    split_ifs at hn with he
    · exact absurd hn (answer_found (h rfl) 1)
    · cases hi : server.isProducer path u with
      | none => exact isProducer_found (h rfl) hi
      | some producer =>
        rw [hi] at hn
        dsimp only [Option.bind_eq_bind, Option.bind_some] at hn
        split_ifs at hn
        exact absurd hn (answer_found (h rfl) 1)
  | read path u fd endOfRead =>
    change readHandler server fs path u fd endOfRead = none at hn
    unfold readHandler at hn
    split_ifs at hn with hp
    · cases hc : server.isCommitted fs path with
      | none => exact .inl hc
      | some committed =>
        rw [hc] at hn
        dsimp only [Option.bind_eq_bind, Option.bind_some] at hn
        cases hs : getFileSizeIfExists fs path with
        | none => exact .inr (.inl hs)
        | some size =>
          rw [hs] at hn
          dsimp only [Option.bind_eq_bind, Option.bind_some] at hn
          generalize (if committed = true then ullongMax else size) = answer at hn
          split_ifs at hn
          · exact absurd hn (answer_found (h rfl) answer)
          · cases hi : server.isProducer path u with
            | none => exact .inr (.inr (isProducer_found (h rfl) hi))
            | some producer =>
              rw [hi] at hn
              dsimp only [Option.bind_eq_bind, Option.bind_some] at hn
              split_ifs at hn
              exact absurd hn (answer_found (h rfl) answer)
    · exact absurd hn (answer_found (h rfl) 1)
  | write u fd path count =>
    change writeHandler server u fd path count = none at hn
    unfold writeHandler at hn
    split_ifs at hn
  | _ => cases hn

private theorem replies_found {tids : List Tid} (h : ∀ u ∈ tids, Registered server.clientManager u) :
    (tids.mapM (fun u => server.clientManager.replyToClient u 1)) ≠ none := by
  induction tids with
  | nil => exact Option.some_ne_none _
  | cons u tids ih =>
    rw [List.forall_mem_cons] at h
    obtain ⟨replies, hr⟩ := Option.ne_none_iff_exists'.mp (ih h.2)
    rw [List.mapM_cons, reply_found h.1, hr]
    exact Option.some_ne_none _

private theorem unlockBody_fails {size : Nat} (h : Registered server.clientManager tid)
    (hn : server.unlockBody fs path tid size = none) :
    server.isCommitted fs path = none ∨ ProducerThrows server path tid := by
  obtain ⟨filesize, hs⟩ := CapioServer.exists_awaitedSize fs path
  unfold CapioServer.unlockBody at hn
  rw [hs] at hn
  dsimp only [Option.bind_eq_bind, Option.bind_some] at hn
  cases hc : server.isCommitted fs path with
  | none => exact .inl rfl
  | some committed =>
    rw [hc] at hn
    dsimp only [Option.bind_eq_bind, Option.bind_some] at hn
    cases hi : server.isProducer path tid with
    | none => exact .inr (isProducer_found h hi)
    | some producer =>
      rw [hi] at hn
      dsimp only [Option.bind_some] at hn
      split_ifs at hn
      rw [reply_found h] at hn
      cases hn

/-- A call whose threads are registered fails on other grounds only. -/
theorem Call.run_fails (h : ∀ u, looksUp server c u → Registered server.clientManager u)
    (hn : c.run server fs = none) : CallThrows server fs c := by
  cases c with
  | unlockThreadAwaitingCreation path =>
    exfalso
    have hfound := replies_found h
    unfold CapioServer.waitingCreation at hfound
    rw [Call.run, CapioServer.unlockThreadAwaitingCreation] at hn
    cases hl : server.fileManager.threadAwaitingFileCreation.lookup path with
    | none =>
      rw [hl] at hn
      cases hn
    | some tids =>
      rw [hl, Option.getD_some] at hfound
      obtain ⟨replies, hr⟩ := Option.ne_none_iff_exists'.mp hfound
      rw [hl] at hn
      dsimp only at hn
      rw [hr] at hn
      cases hn
  | checkAndUnlockThreadAwaitingData path =>
    rw [Call.run, CapioServer.checkAndUnlockThreadAwaitingData] at hn
    cases hl : server.fileManager.threadAwaitingData.lookup path with
    | none =>
      rw [hl] at hn
      cases hn
    | some threads =>
      rw [hl] at hn
      cases hd : UnorderedMap.drain (server.unlockBody fs path) threads with
      | none =>
        obtain ⟨u, size, hu, hb⟩ := UnorderedMap.drain_eq_none hd
        have hw : (server.waitingData path u).isSome := by
          rw [CapioServer.waitingData, hl, Option.bind_some, hu]
          rfl
        exact (unlockBody_fails (h u hw) hb).imp_right fun hp => ⟨u, hw, hp⟩
      | some kept =>
        dsimp only at hn
        rw [hd] at hn
        cases hn
  | addProducer path u =>
    obtain ⟨appName, ha⟩ := Option.isSome_iff_exists.mp (AList.lookup_isSome.mpr (h u rfl).named)
    rw [Call.run, CapioServer.addProducer, ClientManager.getAppName, ha] at hn
    cases hf : server.clEngine.newFile path with
    | none => exact hf
    | some engine =>
      unfold CapioCLEngine.addProducer at hn
      rw [hf] at hn
      dsimp only [Option.bind_eq_bind, Option.bind_some] at hn
      split at hn <;> cases hn
  | increaseCloseCount path =>
    rw [Call.run, CapioServer.increaseCloseCount] at hn
    cases hdir : fs.isDirectory (server.token path) with
    | true => exact hdir
    | false =>
      simp only [hdir] at hn
      cases hn
  | _ => cases hn

/-- The thread whose entries a call makes or removes. -/
def clientOf : Call → Option Tid
  | .registerNewClient tid _ | .removeClient tid => some tid
  | _ => none

private theorem mem_afterCall {cm : ClientManager} {calls : List Call}
    (h : ∀ c ∈ calls, clientOf c ≠ some tid) :
    (tid ∈ (calls.foldl ClientManager.afterCall cm).bufsResponse ↔ tid ∈ cm.bufsResponse) ∧
    (tid ∈ (calls.foldl ClientManager.afterCall cm).appNames ↔ tid ∈ cm.appNames) ∧
    (tid ∈ (calls.foldl ClientManager.afterCall cm).filesToBeCommittedByTid ↔
      tid ∈ cm.filesToBeCommittedByTid) := by
  induction calls generalizing cm with
  | nil => exact ⟨Iff.rfl, Iff.rfl, Iff.rfl⟩
  | cons c calls ih =>
    rw [List.forall_mem_cons] at h
    obtain ⟨hbufs, hnames, hfiles⟩ := @ih (cm.afterCall c) h.2
    rw [List.foldl_cons, hbufs, hnames, hfiles]
    cases c with
    | registerNewClient u appName =>
      have hu : tid ≠ u := fun hu => h.1 (congrArg some hu.symm)
      simp only [ClientManager.afterCall, ClientManager.registerNewClient, UnorderedMap.mem_emplace, hu,
        false_or, and_self]
    | removeClient u =>
      have hu : tid ≠ u := fun hu => h.1 (congrArg some hu.symm)
      simp only [ClientManager.afterCall, ClientManager.removeClient, AList.mem_erase, ne_eq, hu,
        not_false_eq_true, true_and, and_self]
    | _ => exact ⟨Iff.rfl, Iff.rfl, Iff.rfl⟩

theorem sender_of_announces {r : Request} {a : Option CString} (h : announces tid r = some a) :
    sender r = tid ∧ System.blocks r = none := by
  cases r with
  | handshakeNamed u pid appName | handshakeAnonymous u pid | exitGroup u =>
    rw [announces] at h
    split_ifs at h with hu
    exact ⟨hu, rfl⟩
  | _ => cases h

theorem sender_of_blocks {r : Request} (h : System.blocks r = some tid) :
    sender r = tid ∧ isHandshake r = false := by
  cases r <;> cases h <;> exact ⟨rfl, rfl⟩

private theorem handle_clientOf {r : Request} {calls : List Call} {out : List Reply}
    (h : handle server fs r = some (calls, out)) (hc : c ∈ calls) (ht : clientOf c = some tid) :
    ∃ a, announces tid r = some a := by
  have hm := handle_mayCall h c hc
  cases r with
  | handshakeNamed u pid appName | handshakeAnonymous u pid =>
    obtain rfl := hm
    cases ht
    exact ⟨_, if_pos rfl⟩
  | exitGroup u =>
    rcases hm with ⟨file, hfile⟩ | rfl
    · simp only [setCommitted, List.mem_cons, List.not_mem_nil, or_false] at hfile
      rcases hfile with rfl | rfl | rfl <;> cases ht
    · cases ht
      exact ⟨_, if_pos rfl⟩
  | _ =>
    exfalso
    cases c <;> cases ht <;> simp [mayCall, setCommitted] at hm

namespace System
open CapioServer

variable {s t : System} {ts : Trace} {e : Event} {env : Env} {engine : CapioCLEngine} {a : Action}

/-- A thread whose latest blocking request has no reply yet. -/
def Awaiting (tid : Tid) (ts : Trace) : Prop :=
  Run.Since False (fun x => (∃ r, x.label.action = .request r ∧ blocks r = some tid) ∧ tid ∉ replied x.label)
    (fun x => tid ∈ replied x.label) ts

/-- A thread that has made a handshake, and no exit since. -/
def Connected (tid : Tid) (ts : Trace) : Prop :=
  ∃ appName, latest tid (requests ts) = some (some appName)

/-- A client sends nothing while a reply is due, and only handshakes while it is
not connected. -/
def MaySend (ts : Trace) (a : Action) : Prop :=
  ∀ r, a = .request r → ¬ Awaiting (sender r) ts ∧ (isHandshake r = true ∨ Connected (sender r) ts)

def Disciplined (ts : Trace) : Prop :=
  ∀ pre x post, ts = pre ++ x :: post → MaySend pre x.label.action

/-- Who waits, who is due a reply and who is connected. -/
structure Tracked (ts : Trace) (s : System) : Prop where
  waits : WaitsOnce s
  creation : ∀ tid p q, tid ∈ s.server.waitingCreation p → tid ∈ s.server.waitingCreation q → p = q
  waiting : ∀ tid, ¬ Free s.server tid → Awaiting tid ts
  registering : ∀ c tid, c ∈ s.pending → registers c = some tid → Awaiting tid ts
  awaiting : ∀ tid, Awaiting tid ts → Connected tid ts ∧ ∀ c ∈ s.pending, clientOf c ≠ some tid
  producing : ∀ path tid, .addProducer path tid ∈ s.pending →
    Connected tid ts ∧ ∀ c ∈ s.pending, clientOf c = none

theorem not_free : ¬ Free server tid ↔
    ∃ path, tid ∈ server.waitingCreation path ∨ (server.waitingData path tid).isSome := by
  unfold Free
  simp only [not_forall, not_and_or, not_not, Option.isSome_iff_ne_none, ne_eq]
  exact exists_congr fun _ => or_comm

/-- The connected threads whose own entries are not being changed are registered. -/
theorem registered_of_connected (h : Run Step (boot env engine fs) ts s) (hc : Connected tid ts)
    (hp : ∀ c ∈ s.pending, clientOf c ≠ some tid) : Registered s.server.clientManager tid := by
  have hafter := clientsAfter_run h
  rw [clientsAfter] at hafter
  obtain ⟨hbufs, hnames, hfiles⟩ := @mem_afterCall _ s.server.clientManager _ hp
  rw [hafter] at hbufs hnames hfiles
  refine ⟨hbufs.mp ((registered_clientsOf tid _).1.mpr hc), hnames.mp ?_,
    hfiles.mp ((registered_clientsOf tid _).2.mpr hc)⟩
  obtain ⟨appName, hl⟩ := hc
  obtain ⟨r, hr, ha⟩ := announces_of_latest hl
  apply AList.lookup_isSome.mp
  change ((clientsOf (requests ts)).getAppName tid).isSome
  rw [getAppName_clientsOf, List.isSome_head?]
  exact List.ne_nil_of_mem (mem_namesGiven.mpr ⟨r, hr, ha⟩)

/-- Who is replied to by a call waited before it, and waits no more after it. -/
theorem released_by_call (hi : WaitsOnce s)
    (hone : ∀ tid p q, tid ∈ s.server.waitingCreation p → tid ∈ s.server.waitingCreation q → p = q)
    {server' : CapioServer} {fs' : FileSystem} {out : List Reply}
    (hrun : c.run s.server s.fs = some (server', fs', out)) {reply : Reply} (hr : reply ∈ out) :
    ¬ Free s.server reply.tid ∧ Free server' reply.tid := by
  have hsilent : c.replies = true := by
    by_contra hn
    rw [(Call.run_frame hrun).silent (Bool.eq_false_iff.mpr hn)] at hr
    cases hr
  cases c with
  | unlockThreadAwaitingCreation path =>
    rcases Call.run_creation hrun with ⟨_, _, he, _⟩ | ⟨p, he, hout, rfl⟩ | ⟨_, he, _⟩ | ⟨he, _⟩ <;> cases he
    rw [hout] at hr
    obtain ⟨tid, htid, rfl⟩ := List.mem_map.mp hr
    refine ⟨not_free.mpr ⟨path, .inl htid⟩, ?_⟩
    intro q
    constructor
    · by_contra hw
      exact hi.apart tid q path (Option.isSome_iff_ne_none.mpr hw) htid
    · rw [waitingCreation_delete]
      split_ifs with hq
      · exact List.not_mem_nil
      · exact fun hw => hq (hone tid q path hw htid)
  | checkAndUnlockThreadAwaitingData path =>
    rcases Call.run_data hrun with ⟨_, _, _, he, _⟩ | ⟨p, he, hscan⟩ | ⟨he, _⟩ <;> cases he
    have hs := checkAndUnlock_spec hscan
    obtain ⟨tid, size, hw, hb⟩ := (hs.released reply).mp hr
    obtain rfl : tid = reply.tid := by
      obtain ⟨_, _, _, _, _, _, ⟨hv, _⟩ | ⟨hv, _⟩⟩ := unlockBody_spec hb <;> cases hv
      rfl
    have hsome : (s.server.waitingData path reply.tid).isSome := by rw [hw]; rfl
    refine ⟨not_free.mpr ⟨path, .inr hsome⟩, ?_⟩
    intro q
    constructor
    · rw [Option.eq_none_iff_forall_ne_some]
      intro n hn
      rcases Call.run_waitingData hrun hn with hold | hadd
      · obtain rfl := hi.once reply.tid q path (by rw [hold]; rfl) hsome
        have hkept := ((hs.kept reply.tid n).mp hn)
        rw [hw] at hkept
        obtain ⟨hsize, hnone⟩ := hkept
        cases hsize
        rw [hb] at hnone
        cases hnone
      · cases hadd
    · intro hn
      rcases Call.run_waitingCreation hrun hn with hold | hadd
      · exact hi.apart reply.tid path q hsome hold
      · cases hadd
  | _ => cases hsilent

theorem awaiting_snoc : Awaiting tid (ts ++ [⟨s, e, t⟩]) ↔
    ((∃ r, e.action = .request r ∧ blocks r = some tid) ∧ tid ∉ replied e) ∨
      Awaiting tid ts ∧ tid ∉ replied e := Run.since_snoc

theorem connected_snoc {r : Request} (ha : e.action = .request r) (hn : announces tid r = none) :
    Connected tid (ts ++ [⟨s, e, t⟩]) ↔ Connected tid ts := by
  unfold Connected
  rw [requests_snoc, ha, latest_snoc, hn, Option.none_or]

theorem connected_quiet (ha : ∀ r, e.action ≠ .request r) :
    Connected tid (ts ++ [⟨s, e, t⟩]) ↔ Connected tid ts := by
  unfold Connected
  rw [requests_snoc]
  cases hr : e.action with
  | request r => exact absurd hr (ha r)
  | _ => rw [List.append_nil]

/-- What is due and who is connected, when a request is handled. -/
private theorem tracked_request (hi : Tracked ts s) {r : Request} {out : List Reply}
    (h : Step s ⟨.request r, out⟩ t) (hsend : MaySend ts (.request r)) :
    Tracked (ts ++ [⟨s, ⟨.request r, out⟩, t⟩]) t := by
  obtain ⟨hidle, hmay⟩ := hsend r rfl
  have hfree {tid : Tid} (hb : blocks r = some tid) : Free s.server tid := by
    by_contra hn
    exact hidle ((sender_of_blocks hb).1 ▸ hi.waiting tid hn)
  have hwaits : WaitsOnce t := by
    refine waitsOnce_step hi.waits h ?_
    intro r' tid ha hb
    cases ha
    exact hfree hb
  obtain ⟨hp, calls, hd, rfl⟩ := step_request h
  have hsilent {tid : Tid} (hm : tid ∈ replied ⟨.request r, out⟩) : blocks r = some tid ∧ calls = [] := by
    obtain ⟨reply, hr, rfl⟩ := List.mem_map.mp hm
    exact handle_replies hd hr
  have hstill {tid : Tid} (hw : Awaiting tid ts) : tid ∉ replied ⟨.request r, out⟩ ∧ announces tid r = none := by
    constructor
    · exact fun hm => hidle ((sender_of_blocks (hsilent hm).1).1 ▸ hw)
    · rw [Option.eq_none_iff_forall_ne_some]
      exact fun a ha => hidle ((sender_of_announces ha).1 ▸ hw)
  constructor
  case waits => exact hwaits
  case creation => exact hi.creation
  case waiting =>
    intro tid hn
    have hw := hi.waiting tid hn
    exact awaiting_snoc.mpr (.inr ⟨hw, (hstill hw).1⟩)
  case registering =>
    intro c tid hc hr
    obtain ⟨hone, hb⟩ := handle_registers hd hc hr
    refine awaiting_snoc.mpr (.inl ⟨⟨r, rfl, hb⟩, ?_⟩)
    intro hm
    rw [(hsilent hm).2] at hone
    cases hone
  case awaiting =>
    intro tid hw
    have hquiet : announces tid r = none ∧ Connected tid ts := by
      rcases awaiting_snoc.mp hw with ⟨⟨r', ha, hb⟩, _⟩ | ⟨hw, _⟩
      · cases ha
        obtain ⟨hs, hhand⟩ := sender_of_blocks hb
        refine ⟨?_, hs ▸ hmay.resolve_left (by rw [hhand]; exact Bool.false_ne_true)⟩
        rw [Option.eq_none_iff_forall_ne_some]
        intro a ha
        rw [(sender_of_announces ha).2] at hb
        cases hb
      · exact ⟨(hstill hw).2, (hi.awaiting tid hw).1⟩
    refine ⟨(connected_snoc rfl hquiet.1).mpr hquiet.2, ?_⟩
    intro c hc ht
    obtain ⟨a, ha⟩ := handle_clientOf hd hc ht
    rw [hquiet.1] at ha
    cases ha
  case producing =>
    intro path tid hc
    have hcreate : sender r = tid ∧ isHandshake r = false ∧ ∀ u, announces u r = none := by
      have hm := handle_mayCall hd _ hc
      cases r with
      | create u fd file =>
        rcases hm with he | he <;> cases he
        exact ⟨rfl, rfl, fun _ => rfl⟩
      | _ => exfalso; simp [mayCall, setCommitted] at hm
    obtain ⟨rfl, hhand, hquiet⟩ := hcreate
    have hconn := hmay.resolve_left (by rw [hhand]; exact Bool.false_ne_true)
    refine ⟨(connected_snoc rfl (hquiet _)).mpr hconn, ?_⟩
    intro c hc
    rw [Option.eq_none_iff_forall_ne_some]
    intro u hu
    obtain ⟨a, ha⟩ := handle_clientOf hd hc hu
    rw [hquiet u] at ha
    cases ha

/-- What is due and who is connected, when a call runs. -/
private theorem tracked_call (hi : Tracked ts s) {out : List Reply} (h : Step s ⟨a, out⟩ t)
    (hcall : s.callOf a = some c) (hrun : c.run s.server s.fs = some (t.server, t.fs, out))
    (hreq : ∀ r, a ≠ .request r) (hp : ∀ d ∈ t.pending, d ∈ s.pending ∧
      ∀ tid, registers d = some tid → registers c = none) :
    Tracked (ts ++ [⟨s, ⟨a, out⟩, t⟩]) t := by
  have hreg (tid : Tid) (hr : registers c = some tid) : c ∈ s.pending := callOf_registers hcall hr
  have hkeeps {tid : Tid} (hw : Awaiting tid ts) (hn : ∀ reply ∈ out, reply.tid ≠ tid) :
      Awaiting tid (ts ++ [⟨s, ⟨a, out⟩, t⟩]) := by
    refine awaiting_snoc.mpr (.inr ⟨hw, ?_⟩)
    intro hm
    obtain ⟨reply, hr, he⟩ := List.mem_map.mp hm
    exact hn reply hr he
  constructor
  case waits =>
    refine waitsOnce_step hi.waits h ?_
    exact fun r tid ha => absurd ha (hreq r)
  case creation =>
    intro tid p q htp htq
    rcases Call.run_waitingCreation hrun htp with htp | rfl <;>
      rcases Call.run_waitingCreation hrun htq with htq | he
    · exact hi.creation tid p q htp htq
    · subst he
      exact absurd htp ((hi.waits.pending _ tid (hreg tid rfl) rfl).2 p).2
    · exact absurd htq ((hi.waits.pending _ tid (hreg tid rfl) rfl).2 q).2
    · cases he
      rfl
  case waiting =>
    intro tid hn
    refine hkeeps ?_ ?_
    · obtain ⟨path, hw | hw⟩ := not_free.mp hn
      · rcases Call.run_waitingCreation hrun hw with hold | rfl
        · exact hi.waiting tid (not_free.mpr ⟨path, .inl hold⟩)
        · exact hi.registering _ tid (hreg tid rfl) rfl
      · obtain ⟨size, hw⟩ := Option.isSome_iff_exists.mp hw
        rcases Call.run_waitingData hrun hw with hold | rfl
        · exact hi.waiting tid (not_free.mpr ⟨path, .inr (by rw [hold]; rfl)⟩)
        · exact hi.registering _ tid (hreg tid rfl) rfl
    · rintro reply hr rfl
      exact hn (released_by_call hi.waits hi.creation hrun hr).2
  case registering =>
    intro d tid hd hr
    refine hkeeps (hi.registering d tid (hp d hd).1 hr) ?_
    rintro reply hreply rfl
    exact (released_by_call hi.waits hi.creation hrun hreply).1 (hi.waits.pending d _ (hp d hd).1 hr).2
  case awaiting =>
    intro tid hw
    have hold : Awaiting tid ts := by
      rcases awaiting_snoc.mp hw with ⟨⟨r, ha, _⟩, _⟩ | ⟨hw, _⟩
      · exact absurd ha (hreq r)
      · exact hw
    obtain ⟨hconn, hnone⟩ := hi.awaiting tid hold
    exact ⟨(connected_quiet hreq).mpr hconn, fun d hd => hnone d (hp d hd).1⟩
  case producing =>
    intro path tid hd
    obtain ⟨hconn, hnone⟩ := hi.producing path tid (hp _ hd).1
    exact ⟨(connected_quiet hreq).mpr hconn, fun d hd => hnone d (hp d hd).1⟩

private theorem tracked_quiet (hi : Tracked ts s) {out : List Reply} (h : Step s ⟨a, out⟩ t)
    (hreq : ∀ r, a ≠ .request r) (hout : out = []) (hserver : t.server = s.server)
    (hp : t.pending = s.pending) : Tracked (ts ++ [⟨s, ⟨a, out⟩, t⟩]) t := by
  have hkeeps {tid : Tid} : Awaiting tid (ts ++ [⟨s, ⟨a, out⟩, t⟩]) ↔ Awaiting tid ts := by
    rw [awaiting_snoc, hout]
    constructor
    · rintro (⟨⟨r, ha, _⟩, _⟩ | ⟨hw, _⟩)
      · exact absurd ha (hreq r)
      · exact hw
    · exact fun hw => .inr ⟨hw, List.not_mem_nil⟩
  have hwaits : WaitsOnce t :=
    waitsOnce_step hi.waits h (fun r tid ha => absurd ha (hreq r))
  constructor
  case waits => exact hwaits
  case creation => exact hserver ▸ hi.creation
  case waiting => exact fun tid hn => hkeeps.mpr (hi.waiting tid (hserver ▸ hn))
  case registering => exact fun c tid hc hr => hkeeps.mpr (hi.registering c tid (hp ▸ hc) hr)
  case awaiting =>
    intro tid hw
    obtain ⟨hconn, hnone⟩ := hi.awaiting tid (hkeeps.mp hw)
    exact ⟨(connected_quiet hreq).mpr hconn, hp ▸ hnone⟩
  case producing =>
    intro path tid hc
    obtain ⟨hconn, hnone⟩ := hi.producing path tid (hp ▸ hc)
    exact ⟨(connected_quiet hreq).mpr hconn, hp ▸ hnone⟩

theorem tracked_step (hi : Tracked ts s) (h : Step s e t) (hsend : MaySend ts e.action) :
    Tracked (ts ++ [⟨s, e, t⟩]) t := by
  obtain ⟨action, out⟩ := e
  cases action with
  | request r => exact tracked_request hi h hsend
  | call =>
    obtain ⟨c, calls, server, fs, hp, hrun, rfl⟩ := step_call h
    refine tracked_call hi h (by rw [callOf, hp]; rfl) hrun (fun _ => by simp) ?_
    intro d hd
    have hmem : d ∈ s.pending := hp ▸ List.mem_cons_of_mem c hd
    refine ⟨hmem, ?_⟩
    intro tid hr
    -- a pending registration stands alone, so nothing comes after `c`
    have halone := (hi.waits.pending d tid hmem hr).1
    rw [hp] at halone
    obtain ⟨_, rfl⟩ := List.cons.inj halone
    cases hd
  | monitor =>
    rcases step_monitor h with ⟨m, _, hout, rfl, _⟩ | ⟨c, m, server, fs, hc, hrun, rfl⟩
    · exact tracked_quiet hi h (fun _ => by simp) hout rfl rfl
    · refine tracked_call hi h (by rw [callOf, hc]; rfl) hrun (fun _ => by simp) ?_
      intro d hd
      refine ⟨hd, ?_⟩
      intro tid _
      exact monitorCall_registers hc
  | environment fs =>
    have hout : out = [] := (congrArg Prod.snd (Option.some.inj h)).symm
    have ht : t = { s with fs := fs } := (congrArg Prod.fst (Option.some.inj h)).symm
    exact tracked_quiet hi h (fun _ => by simp) hout (by rw [ht]) (by rw [ht])

theorem tracked_run (h : Run Step (boot env engine fs) ts s) (hd : Disciplined ts) : Tracked ts s := by
  induction h with
  | nil =>
    constructor
    case waits => exact waitsOnce_boot
    case creation => exact fun tid p q hp => absurd hp List.not_mem_nil
    case waiting => exact fun tid hn => absurd (fun _ => ⟨rfl, List.not_mem_nil⟩) hn
    case registering => exact fun c tid hc => absurd hc List.not_mem_nil
    case awaiting =>
      intro tid hw
      exact absurd (Run.since_nil.mp hw) not_false
    case producing => exact fun path tid hc => absurd hc List.not_mem_nil
  | @snoc ts t e u hrun hstep ih =>
    have hbefore : Disciplined ts := by
      rintro pre x post rfl
      exact hd pre x (post ++ [⟨t, e, u⟩]) (by simp)
    exact tracked_step (ih hbefore) hstep (hd ts ⟨t, e, u⟩ [] rfl)

/-- Whether or not the action succeeds, the keys it looks up are there. -/
structure LookupsFind (s : System) (a : Action) : Prop where
  request : ∀ r, a = .request r → s.pending = [] → isHandshake r = false →
    Registered s.server.clientManager (sender r)
  call : ∀ c, s.callOf a = some c → ∀ tid, looksUp s.server c tid → Registered s.server.clientManager tid

/-- An action that is not taken, or fails in something other than a lookup of a client. -/
def NotALookup (s : System) (a : Action) : Prop :=
  (∃ r, a = .request r ∧ (s.pending ≠ [] ∨ HandlerThrows s.server s.fs r)) ∨ (a = .call ∧ s.pending = []) ∨
    ∃ c, s.callOf a = some c ∧ CallThrows s.server s.fs c

theorem step_fails (hl : LookupsFind s a) (hn : s.step a = none) : NotALookup s a := by
  cases a with
  | request r =>
    cases hp : s.pending with
    | cons c calls => exact .inl ⟨r, rfl, .inl (by rw [hp]; exact List.cons_ne_nil _ _)⟩
    | nil =>
      simp only [step, hp] at hn
      cases hd : handle s.server s.fs r with
      | none => exact .inl ⟨r, rfl, .inr (handle_fails (hl.request r rfl hp) hd)⟩
      | some decision =>
        rw [hd] at hn
        cases hn
  | call =>
    cases hp : s.pending with
    | nil => exact .inr (.inl ⟨rfl, hp⟩)
    | cons c calls =>
      simp only [step, hp, runCall] at hn
      have hc : s.callOf .call = some c := by
        rw [callOf, hp]
        rfl
      cases hrun : c.run s.server s.fs with
      | none => exact .inr (.inr ⟨c, hc, Call.run_fails (hl.call c hc) hrun⟩)
      | some outcome =>
        rw [hrun] at hn
        cases hn
  | monitor =>
    cases hc : s.monitorCall with
    | none =>
      exfalso
      simp only [step, monitorStep] at hn
      split at hn
      all_goals
        rename_i hm
        first
        | (split at hn <;> cases hn)
        | cases hn
        | (rw [monitorCall, hm] at hc; cases hc)
    | some r =>
      have hrun : r.1.run s.server s.fs = none := by
        cases hm : s.monitor <;> simp only [monitorCall, hm, reduceCtorEq, Option.some.injEq] at hc
        all_goals
          subst hc
          simp only [step, monitorStep, hm, runCall] at hn
          by_contra hne
          obtain ⟨outcome, ho⟩ := Option.ne_none_iff_exists'.mp hne
          rw [ho] at hn
          cases hn
      have hcall : s.callOf .monitor = some r.1 := by
        rw [callOf, hc]
        rfl
      exact .inr (.inr ⟨r.1, hcall, Call.run_fails (hl.call r.1 hcall) hrun⟩)
  | environment fs => cases hn

/-- In every run of disciplined clients the waiting threads are registered, and
whatever may come next finds the clients it looks up. -/
theorem client_lookups_find_keys (h : Run Step (boot env engine fs) ts s) (hd : Disciplined ts) :
    (∀ path tid, tid ∈ s.server.waitingCreation path ∨ (s.server.waitingData path tid).isSome →
      Registered s.server.clientManager tid) ∧
    ∀ a, MaySend ts a → LookupsFind s a ∧ (s.step a = none → NotALookup s a) := by
  have hi := tracked_run h hd
  have hwaiting (path : CString) (tid : Tid)
      (hw : tid ∈ s.server.waitingCreation path ∨ (s.server.waitingData path tid).isSome) :
      Registered s.server.clientManager tid := by
    obtain ⟨hconn, hnone⟩ := hi.awaiting tid (hi.waiting tid (not_free.mpr ⟨path, hw⟩))
    exact registered_of_connected h hconn hnone
  refine ⟨hwaiting, ?_⟩
  intro a hsend
  have hfind : LookupsFind s a := by
    constructor
    case request =>
      intro r ha hp hhand
      have hconn := (hsend r ha).2.resolve_left (by rw [hhand]; exact Bool.false_ne_true)
      exact registered_of_connected h hconn (by simp [hp])
    case call =>
      intro c hc tid hl
      cases c with
      | addProducer path u =>
        obtain rfl := hl
        have hmem : .addProducer path tid ∈ s.pending := by
          cases a with
          | call => exact List.mem_of_head? hc
          | monitor =>
            obtain ⟨m, hm⟩ := callOf_monitor hc
            exact absurd (monitorCall_frame hm).2.1 (by simp [Call.touchesLocations])
          | _ => cases hc
        obtain ⟨hconn, hnone⟩ := hi.producing path tid hmem
        exact registered_of_connected h hconn (fun c hc => by simp [hnone c hc])
      | unlockThreadAwaitingCreation path => exact hwaiting path tid (.inl hl)
      | checkAndUnlockThreadAwaitingData path => exact hwaiting path tid (.inr hl)
      | _ => cases hl
  exact ⟨hfind, step_fails hfind⟩

/-- No request follows a blocking one. -/
def quietAfter (y x : Transition System Event) : Bool :=
  match y.label.action, x.label.action with
  | .request r, .request _ => blocks r == none
  | _, _ => true

/-- A thread opens a file that nobody has made yet. -/
def oneWaiter : List Action :=
  [.request (.handshakeNamed 1 1 "reader".toList), .call, .request (.openFile 1 3 "/c/f".toList), .call]

theorem client_lookups_find_keys_oneWaiter : ∃ ts s, Run Step emptyWorkflow ts s ∧ Disciplined ts ∧
    1 ∈ s.server.waitingCreation "/c/f".toList ∧ Registered s.server.clientManager 1 := by
  obtain ⟨ts, s, hrun, _, hp⟩ := execute_any step emptyWorkflow oneWaiter (fun ts s =>
    decide (ts.Pairwise (fun y x => quietAfter y x = true)) &&
    requests ts == [.handshakeNamed 1 1 "reader".toList, .openFile 1 3 "/c/f".toList] &&
    s.server.waitingCreation "/c/f".toList == [1]) (by decide)
  simp only [Bool.and_eq_true, decide_eq_true_eq, beq_iff_eq] at hp
  obtain ⟨⟨hpair, hreq⟩, hwaiting⟩ := hp
  have hd : Disciplined ts := by
    rintro pre x post rfl r hr
    constructor
    · intro hw
      obtain ⟨y, hy, ⟨q, hq, hb⟩, _⟩ := hw.exists_made
      have hnone := (List.pairwise_append.mp hpair).2.2 y hy x List.mem_cons_self
      simp only [quietAfter, hq, hr, beq_iff_eq] at hnone
      rw [hnone] at hb
      cases hb
    · have hsplit : requests pre ++ r :: requests post =
          [.handshakeNamed 1 1 "reader".toList, .openFile 1 3 "/c/f".toList] := by
        rw [← hreq, requests, requests, requests, List.filterMap_append, List.filterMap_cons, hr]
      rcases hpre : requests pre with _ | ⟨q, rest⟩
      · rw [hpre] at hsplit
        obtain ⟨rfl, _⟩ := List.cons.inj hsplit
        exact .inl rfl
      · rw [hpre] at hsplit
        obtain ⟨rfl, hrest⟩ := List.cons.inj hsplit
        rcases rest with _ | ⟨q, rest⟩
        · obtain ⟨rfl, _⟩ := List.cons.inj hrest
          exact .inr ⟨"reader".toList, by rw [hpre]; rfl⟩
        · obtain ⟨_, hnil⟩ := List.cons.inj hrest
          simp at hnil
  have hmem : 1 ∈ s.server.waitingCreation "/c/f".toList := by rw [hwaiting]; exact List.mem_singleton.mpr rfl
  exact ⟨ts, s, hrun, hd, hmem, (client_lookups_find_keys hrun hd).1 _ 1 (.inl hmem)⟩

end System
end Capio.Server
