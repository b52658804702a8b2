import Capio.Library.Simulation
import Capio.Common.Queue
import Capio.Node.Lanes
import Capio.Server.Dispatch

/-! The node with its request queue as it stands in shared memory: slots of text in a ring, which
threads write and the server reads in steps of their own. -/
namespace Capio.Node
open Library Posix
open Server (System Tid Reply)
open Library.Ring (Slot)

/-- The writers of the ring are the threads, its reader is the server. A thread in the middle of
a write has the action that the write is part of. -/
structure SharedNode where
  system : System
  ring : Queue.Shared (Option Tid) Char capioReqMaxSize
  writing : Tid → Option Action
  threads : Tid → ThreadState
  answers : Tid → List Nat

inductive SharedAction where
  | client (a : Action)
  | beginWrite (a : Action) (req : CString)
  | endWrite (tid : Tid)
  | beginRead
  | endRead
  | server (b : Server.Action)

/-- The thread that takes an action. A cloned thread is announced by its parent, a forked one
announces itself. -/
def Action.actor : Action → Option Tid
  | .init tid _ _ | .clone tid _ _ _ | .fork _ tid _ _ | .call tid _ _ _ _ | .send tid | .read tid | .vanish tid => some tid
  | .server _ => none

/-- The bytes of a slot, after the text is printed into what the stack held before. -/
def slotOf (req : CString) (r : Request) : Option (Slot Char capioReqMaxSize) := do
  let text ← fillSlot req (requestText r)
  if h : text.length = capioReqMaxSize then some fun i => text[i] else none

/-- What the handler that the slot leads to reads out of it. -/
def received (slot : Slot Char capioReqMaxSize) : Option Request :=
  match Server.turn (List.ofFn slot) with
  | .calls index str => do
    let handler ← (Server.buildRequestHandlersTable[index]?).join
    handler.arguments str
  | _ => none

namespace SharedNode

/-- The node without its queue. -/
def rest (w : SharedNode) : Machine := ⟨w.system, [], w.threads, w.answers⟩

def goOn (w : SharedNode) (m : Machine) : SharedNode := { w with threads := m.threads, answers := m.answers }

def queueStep (w : SharedNode) (a : Queue.Action (Option Tid) Char capioReqMaxSize) :
    Option (SharedNode × Queue.Moved Char capioReqMaxSize) := do
  let (ring, moved) ← Queue.step capioReqBuffCnt capioReqMaxSize w.ring a
  some ({ w with ring }, moved)

/-- What the server reads when it takes a slot. -/
def taken (w : SharedNode) : Option Request := do
  let (_, moved) ← w.queueStep (.endRead none)
  match moved with
  | .delivered slot => received slot
  | _ => none

def free (w : SharedNode) (tid : Tid) : Bool := (w.writing tid).isNone

def step (w : SharedNode) : SharedAction → Option (SharedNode × List Reply)
  | .client a => do
    let tid ← a.actor
    let m ← w.rest.clientStep a
    if w.free tid ∧ m.queue = [] then some (w.goOn m, []) else none
  | .beginWrite a req => do
    let tid ← a.actor
    let m ← w.rest.clientStep a
    let r ← m.queue.head?
    let slot ← slotOf req r
    let (w', _) ← w.queueStep (.beginWrite (some tid) slot)
    if w.free tid then some ({ w' with writing := Function.update w.writing tid (some a) }, []) else none
  | .endWrite tid => do
    let a ← w.writing tid
    let m ← w.rest.clientStep a
    let (w', _) ← w.queueStep (.endWrite (some tid))
    some ({ w'.goOn m with writing := Function.update w.writing tid none }, [])
  | .beginRead => do
    let (w', _) ← w.queueStep (.beginRead none)
    some (w', [])
  | .endRead => do
    let (w', _) ← w.queueStep (.endRead none)
    let r ← w.taken
    let (system, replies) ← w.system.step (.request r)
    some ({ w' with system, answers := Machine.deliver w.answers replies }, replies)
  | .server (.request _) => none
  | .server b => do
    let (system, replies) ← w.system.step b
    some ({ w with system, answers := Machine.deliver w.answers replies }, replies)

abbrev Event := Library.Event SharedAction (List Reply)

abbrev Step := StepOf step

abbrev Trace := List (Transition SharedNode Event)

/-- The step of the node with a queue of requests. -/
def seen (x : Transition SharedNode Event) : Option Machine.Event :=
  match x.label.action with
  | .client a => some ⟨a, []⟩
  | .endWrite tid => (x.source.writing tid).map fun a => ⟨a, []⟩
  | .endRead => x.source.taken.map fun r => ⟨.server (.request r), x.label.replies⟩
  | .server b => some ⟨.server b, x.label.replies⟩
  | _ => none

def boot (env : Server.Env) (engine : Server.CapioCLEngine) (fs : Server.FileSystem) (shm : Nat → Char) : SharedNode :=
  ⟨System.boot env engine fs, Queue.start capioReqBuffCnt capioReqMaxSize shm, fun _ => none, fun _ => .gone, fun _ => []⟩

end SharedNode

/-! ### What a slot carries -/

theorem turn_arguments {req : CString} {index : Nat} {str : CString} (h : Server.turn req = .calls index str) :
    Server.readNextRequest req = some ((index : Int), str) := by
  unfold Server.turn at h
  split at h
  · cases h
  · rename_i code str' hread
    split_ifs at h with hnul hrange
    cases h
    rw [hread, Int.toNat_of_nonneg (by omega)]

/-- What the server reads out of a slot depends on the request alone. -/
theorem received_slotOf {req : CString} {r : Request} {slot : Slot Char capioReqMaxSize} (h : slotOf req r = some slot) :
    received slot = r.received := by
  obtain ⟨text, htext, h⟩ := Option.bind_eq_some_iff.mp h
  split_ifs at h with hlength
  obtain rfl := Option.some.inj h
  have hslot : List.ofFn (fun i : Fin capioReqMaxSize => text[i]) = text := by
    refine List.ext_getElem (by rw [List.length_ofFn, hlength]) fun i hi _ => ?_
    rw [List.getElem_ofFn]
    rfl
  unfold fillSlot at htext
  split_ifs at htext
  obtain rfl := Option.some.inj htext
  let printed : Server.RequestSlot := ⟨_, hlength, List.mem_append_right _ (List.mem_cons_self ..)⟩
  obtain ⟨str, handler, hturn, htable, harguments⟩ := Server.request_dispatched (r := r) (show printed.req = _ from rfl)
  rw [← Request.receive_text r, Server.receive, turn_arguments hturn, received, hslot, hturn]
  dsimp only
  rw [htable]
  exact harguments

/-! ### Client actions and the queue -/

section
variable {m m' : Machine} {a : Action} {tid : Tid} {r : Request}

theorem enqueue_empty {queue : List Request} (h : ({ m with queue := [] } : Machine).enqueue r = some m') :
    m' = { m with queue := [r] } ∧
      (queue.length < capioReqBuffCnt → ({ m with queue } : Machine).enqueue r = some { m with queue := queue ++ [r] }) := by
  unfold Machine.enqueue at h ⊢
  split_ifs at h with hroom
  exact ⟨(Option.some.inj h).symm, fun hlength => if_pos ⟨hlength, hroom.2⟩⟩

/-- What an action puts into the queue. -/
def Sends (threads : Tid → ThreadState) (r : Request) : Action → Prop
  | .init tid appName _ => r = Machine.handshake tid tid appName
  | .clone parent child appName _ => r = Machine.handshake child parent appName
  | .fork _ child appName _ => r = Machine.handshake child child appName
  | .send tid => ∃ next, threads tid = .runs (.send r next)
  | _ => False

/-- An action of a client does to a node without a queue what it does to one with a queue, but for
the request that it sends. -/
theorem clientStep_empty (queue : List Request) (h : ({ m with queue := [] } : Machine).clientStep a = some m') :
    m'.system = m.system ∧
    ((m'.queue = [] ∧ ({ m with queue } : Machine).clientStep a = some { m' with queue } ∧ ∀ r, ¬ Sends m.threads r a) ∨
      ∃ r, m'.queue = [r] ∧ (∀ r', Sends m.threads r' a ↔ r' = r) ∧
        (queue.length < capioReqBuffCnt →
          ({ m with queue } : Machine).clientStep a = some { m' with queue := queue ++ [r] })) := by
  cases a with
  | init tid appName maxSize =>
    simp only [Machine.clientStep] at h ⊢
    split_ifs at h with hout
    obtain ⟨rfl, hqueue⟩ := enqueue_empty (m := m.setThread tid (.start (.start maxSize true))) h
    refine ⟨rfl, .inr ⟨_, rfl, fun r' => Iff.rfl, fun hlength => ?_⟩⟩
    rw [if_pos hout]
    exact hqueue hlength
  | clone parent child appName maxSize =>
    simp only [Machine.clientStep] at h ⊢
    split_ifs at h with hout
    obtain ⟨rfl, hqueue⟩ := enqueue_empty (m := m.setThread child (.start (.start maxSize true))) h
    refine ⟨rfl, .inr ⟨_, rfl, fun r' => Iff.rfl, fun hlength => ?_⟩⟩
    rw [if_pos hout]
    exact hqueue hlength
  | fork parent child appName isCapioTid =>
    simp only [Machine.clientStep] at h ⊢
    obtain ⟨th, hth, h⟩ := Option.bind_eq_some_iff.mp h
    split_ifs at h with hout
    obtain ⟨rfl, hqueue⟩ := enqueue_empty (m := m.setThread child (.start { th with isCapioTid })) h
    refine ⟨rfl, .inr ⟨_, rfl, fun r' => Iff.rfl, fun hlength => ?_⟩⟩
    refine Option.bind_eq_some_iff.mpr ⟨th, hth, ?_⟩
    rw [if_pos hout]
    exact hqueue hlength
  | send tid =>
    simp only [Machine.clientStep] at h ⊢
    cases hp : m.threads tid with
    | runs p =>
      rw [hp] at h
      cases p with
      | send r next =>
        obtain ⟨rfl, hqueue⟩ := enqueue_empty (m := m.setThread tid (.runs next)) h
        refine ⟨rfl, .inr ⟨_, rfl, fun r' => ?_, hqueue⟩⟩
        constructor
        · rintro ⟨_, hr'⟩
          cases hp.symm.trans hr'
          rfl
        · rintro rfl
          exact ⟨next, hp⟩
      | _ => cases h
    | _ =>
      rw [hp] at h
      cases h
  | call tid env view t call =>
    simp only [Machine.clientStep] at h ⊢
    obtain ⟨th, hth, h⟩ := Option.bind_eq_some_iff.mp h
    cases h
    exact ⟨rfl, .inl ⟨rfl, Option.bind_eq_some_iff.mpr ⟨th, hth, rfl⟩, fun _ => id⟩⟩
  | read tid =>
    simp only [Machine.clientStep] at h ⊢
    split at h
    · cases h
      exact ⟨rfl, .inl ⟨rfl, rfl, fun _ => id⟩⟩
    · cases h
  | vanish tid =>
    simp only [Machine.clientStep] at h ⊢
    obtain ⟨state, hstate, h⟩ := Option.bind_eq_some_iff.mp h
    cases h
    exact ⟨rfl, .inl ⟨rfl, Option.bind_eq_some_iff.mpr ⟨state, hstate, rfl⟩, fun _ => id⟩⟩
  | server b => cases h

/-- An action leaves alone the threads that live and do not take it. -/
theorem clientStep_others (h : m.clientStep a = some m') (ha : a.actor ≠ some tid)
    (hlives : (m.threads tid).isFree = false) : m'.threads tid = m.threads tid := by
  have hother (u : Tid) (state : ThreadState) (hu : some u ≠ some tid) :
      Function.update m.threads u state tid = m.threads tid :=
    Function.update_of_ne (fun he => hu (congrArg some he.symm)) state m.threads
  cases a with
  | init u appName maxSize =>
    simp only [Machine.clientStep] at h
    split_ifs at h
    rw [enqueue_some h]
    exact hother u _ ha
  | clone parent child appName maxSize =>
    simp only [Machine.clientStep, Bool.and_eq_true] at h
    split_ifs at h with hout
    rw [enqueue_some h]
    refine hother child _ ?_
    rintro ⟨⟩
    rw [hlives] at hout
    exact absurd hout.2 Bool.false_ne_true
  | fork parent child appName isCapioTid =>
    simp only [Machine.clientStep] at h
    obtain ⟨th, _, h⟩ := Option.bind_eq_some_iff.mp h
    split_ifs at h
    rw [enqueue_some h]
    exact hother child _ ha
  | call u env view t call =>
    simp only [Machine.clientStep] at h
    obtain ⟨th, _, h⟩ := Option.bind_eq_some_iff.mp h
    cases h
    exact hother u _ ha
  | send u =>
    simp only [Machine.clientStep] at h
    split at h
    · rw [enqueue_some h]
      exact hother u _ ha
    · cases h
  | read u =>
    simp only [Machine.clientStep] at h
    split at h
    · cases h
      exact hother u _ ha
    · cases h
  | vanish u =>
    simp only [Machine.clientStep] at h
    obtain ⟨state, _, h⟩ := Option.bind_eq_some_iff.mp h
    cases h
    exact hother u _ ha
  | server b => cases h

theorem sends_stays (hs : Sends m.threads r a) (htid : a.actor = some tid) {b : Action} (hb : b.actor ≠ some tid)
    (h : m.clientStep b = some m') : Sends m'.threads r a := by
  cases a with
  | send u =>
    cases htid
    obtain ⟨next, hp⟩ := hs
    refine ⟨next, ?_⟩
    rw [clientStep_others h hb (by rw [hp]; rfl)]
    exact hp
  | _ => exact hs

end

/-! ### The ring under the queue -/

section
variable {w w' : SharedNode} {m : Machine} {moved : Queue.Moved Char capioReqMaxSize}

/-- The slots in the ring are read as the texts of the requests in the queue, and so is the slot of a
thread that is in the middle of a write. -/
structure Carries (w : SharedNode) (m : Machine) : Prop where
  system : m.system = w.system
  threads : m.threads = w.threads
  answers : m.answers = w.answers
  queue : ∃ head contents, Queue.Holds capioReqBuffCnt w.ring head contents ∧ contents.map received = m.queue.map Request.received
  writes : ∀ tid a, w.writing tid = some a → ∃ r slot, w.ring.proc (some tid) = .writing slot ∧
    received slot = r.received ∧ a.actor = some tid ∧ Sends m.threads r a

theorem Carries.rest (h : Carries w m) : ({ w.rest with queue := m.queue } : Machine) = m := by
  obtain ⟨system, queue, threads, answers⟩ := m
  obtain ⟨rfl, rfl, rfl, _, _⟩ := h
  rfl

theorem queueStep_spec {a : Queue.Action (Option Tid) Char capioReqMaxSize} (h : w.queueStep a = some (w', moved)) :
    ∃ ring, w' = { w with ring } ∧ Queue.Step capioReqBuffCnt capioReqMaxSize w.ring ⟨a, moved⟩ ring := by
  obtain ⟨⟨ring, out⟩, hstep, h⟩ := Option.bind_eq_some_iff.mp h
  cases h
  exact ⟨ring, rfl, hstep⟩

theorem beginWrite_spec {i : Option Tid} {slot : Slot Char capioReqMaxSize} {s t : Queue.Shared (Option Tid) Char capioReqMaxSize}
    (h : Queue.Step capioReqBuffCnt capioReqMaxSize s ⟨.beginWrite i slot, moved⟩ t) :
    moved = .nothing ∧ t.proc = Function.update s.proc i (.writing slot) := by
  cases hp : s.proc i with
  | idle =>
    simp only [StepOf, Queue.step, hp] at h
    obtain ⟨q, _, he⟩ := Option.bind_eq_some_iff.mp h
    cases he
    exact ⟨rfl, rfl⟩
  | _ => simp [StepOf, Queue.step, hp] at h

theorem endWrite_spec {i : Option Tid} {s t : Queue.Shared (Option Tid) Char capioReqMaxSize}
    (h : Queue.Step capioReqBuffCnt capioReqMaxSize s ⟨.endWrite i, moved⟩ t) :
    ∃ slot, s.proc i = .writing slot ∧ moved = .stored slot ∧ t.proc = Function.update s.proc i .idle := by
  cases hp : s.proc i with
  | writing slot =>
    simp only [StepOf, Queue.step, hp] at h
    cases h
    exact ⟨slot, rfl, rfl, rfl⟩
  | _ => simp [StepOf, Queue.step, hp] at h

theorem beginRead_spec {i : Option Tid} {s t : Queue.Shared (Option Tid) Char capioReqMaxSize}
    (h : Queue.Step capioReqBuffCnt capioReqMaxSize s ⟨.beginRead i, moved⟩ t) :
    moved = .nothing ∧ t.proc = Function.update s.proc i .reading := by
  cases hp : s.proc i with
  | idle =>
    simp only [StepOf, Queue.step, hp] at h
    obtain ⟨q, _, he⟩ := Option.bind_eq_some_iff.mp h
    cases he
    exact ⟨rfl, rfl⟩
  | _ => simp [StepOf, Queue.step, hp] at h

theorem endRead_spec {i : Option Tid} {s t : Queue.Shared (Option Tid) Char capioReqMaxSize}
    (h : Queue.Step capioReqBuffCnt capioReqMaxSize s ⟨.endRead i, moved⟩ t) :
    ∃ slot, moved = .delivered slot ∧ t.proc = Function.update s.proc i .idle := by
  cases hp : s.proc i with
  | reading =>
    simp only [StepOf, Queue.step, hp] at h
    cases h
    exact ⟨_, rfl, rfl⟩
  | _ => simp [StepOf, Queue.step, hp] at h

/-- The steps of the server on the ring leave the writers alone. -/
theorem writes_stay (h : Carries w m) {ring : Queue.Shared (Option Tid) Char capioReqMaxSize}
    {proc : Queue.Proc Char capioReqMaxSize} (hring : ring.proc = Function.update w.ring.proc none proc) :
    ∀ tid a, w.writing tid = some a → ∃ r slot, ring.proc (some tid) = .writing slot ∧
      received slot = r.received ∧ a.actor = some tid ∧ Sends m.threads r a := by
  intro tid a ha
  obtain ⟨r, slot, hproc, hrest⟩ := h.writes tid a ha
  refine ⟨r, slot, ?_, hrest⟩
  rw [hring, Function.update_of_ne (Option.some_ne_none tid)]
  exact hproc

/-- The slot that the server takes is read as the text of the first request of the queue. -/
theorem taken_spec (h : Carries w m) (hstep : w.queueStep (.endRead none) = some (w', moved)) :
    ∃ r queue, m.queue = r :: queue ∧ w.taken = r.received ∧ Carries w' { m with queue } := by
  obtain ⟨ring, rfl, hring⟩ := queueStep_spec hstep
  obtain ⟨slot, rfl, hproc⟩ := endRead_spec hring
  obtain ⟨head, contents, hholds, hread⟩ := h.queue
  obtain ⟨rest, htake, hrest⟩ := Queue.refines hholds hring
  cases htake
  cases hq : m.queue with
  | nil =>
    rw [hq] at hread
    cases hread
  | cons r queue =>
    rw [hq, List.map_cons, List.map_cons, List.cons.injEq] at hread
    refine ⟨r, queue, rfl, ?_, h.system, h.threads, h.answers, ⟨_, rest, hrest, hread.2⟩, writes_stay h hproc⟩
    rw [SharedNode.taken, hstep]
    exact hread.1

/-- A write that begins does nothing to the queue yet. -/
theorem carries_begin (h : Carries w m) {a : Action} {tid : Tid} {m' : Machine} {r : Request} {req : CString}
    {slot : Slot Char capioReqMaxSize} (hactor : a.actor = some tid) (hclient : w.rest.clientStep a = some m')
    (hr : m'.queue.head? = some r) (hslot : slotOf req r = some slot) (hfree : w.free tid = true)
    (hstep : w.queueStep (.beginWrite (some tid) slot) = some (w', moved)) :
    Carries { w' with writing := Function.update w.writing tid (some a) } m := by
  obtain ⟨ring, rfl, hring⟩ := queueStep_spec hstep
  obtain ⟨rfl, hproc⟩ := beginWrite_spec hring
  obtain ⟨head, contents, hholds, hread⟩ := h.queue
  obtain ⟨_, hkeep, hholds'⟩ := Queue.refines hholds hring
  cases hkeep
  refine ⟨h.system, h.threads, h.answers, ⟨_, contents, hholds', hread⟩, ?_⟩
  intro u b hb
  dsimp only at hb ⊢
  rw [hproc]
  by_cases hu : u = tid
  · subst hu
    rw [Function.update_self] at hb
    cases hb
    rw [Function.update_self]
    rcases (clientStep_empty (m := w.rest) [] hclient).2 with ⟨hnil, _⟩ | ⟨r', hone, hsends, _⟩
    · rw [hnil] at hr
      cases hr
    · rw [hone] at hr
      cases hr
      refine ⟨r, slot, rfl, received_slotOf hslot, hactor, ?_⟩
      rw [h.threads]
      exact (hsends r).mpr rfl
  · rw [Function.update_of_ne hu] at hb
    rw [Function.update_of_ne (fun he => hu (Option.some.inj he))]
    exact h.writes u b hb

/-- A write that ends puts the request of its action into the queue. -/
theorem carries_end (h : Carries w m) {a : Action} {tid : Tid} {m' : Machine} (ha : w.writing tid = some a)
    (hclient : w.rest.clientStep a = some m') (hstep : w.queueStep (.endWrite (some tid)) = some (w', moved)) :
    ∃ after, m.clientStep a = some after ∧
      Carries { w'.goOn m' with writing := Function.update w.writing tid none } after := by
  obtain ⟨ring, rfl, hring⟩ := queueStep_spec hstep
  obtain ⟨slot, hwriting, rfl, hproc⟩ := endWrite_spec hring
  obtain ⟨r, slot', hwriting', hreceived, hactor, hsends⟩ := h.writes tid a ha
  obtain rfl : slot = slot' := Queue.Proc.writing.inj (hwriting.symm.trans hwriting')
  obtain ⟨head, contents, hholds, hread⟩ := h.queue
  obtain ⟨_, hput, hholds'⟩ := Queue.refines hholds hring
  cases hput with
  | put _ _ hroom =>
    have hlength : m.queue.length < capioReqBuffCnt := by
      have heq := congrArg List.length hread
      rw [List.length_map, List.length_map] at heq
      omega
    rw [h.threads] at hsends
    obtain ⟨hsystem, ⟨_, _, hnone⟩ | ⟨r', _, hone, hclient'⟩⟩ := clientStep_empty (m := w.rest) m.queue hclient
    · exact absurd hsends (hnone r)
    · obtain rfl := (hone r).mp hsends
      have hafter := hclient' hlength
      rw [h.rest] at hafter
      refine ⟨_, hafter, hsystem, rfl, rfl, ⟨_, _, hholds', ?_⟩, ?_⟩
      · rw [List.map_append, List.map_append, hread]
        exact congrArg _ (congrArg (fun x => [x]) hreceived)
      · intro u b hb
        dsimp only at hb ⊢
        have hu : u ≠ tid := by
          rintro rfl
          rw [Function.update_self] at hb
          cases hb
        rw [Function.update_of_ne hu] at hb
        obtain ⟨q, other, hp, hq, hother, hsends⟩ := h.writes u b hb
        have hne : a.actor ≠ some u := by
          rw [hactor]
          exact fun he => hu (Option.some.inj he).symm
        have hstays := sends_stays hsends hother hne hafter
        refine ⟨q, other, ?_, hq, hother, hstays⟩
        rw [SharedNode.goOn, hproc, Function.update_of_ne (fun he => hu (Option.some.inj he))]
        exact hp

/-- An action that sends nothing leaves the queue and the writers alone. -/
theorem carries_client (h : Carries w m) {a : Action} {tid : Tid} {m' : Machine} (hactor : a.actor = some tid)
    (hclient : w.rest.clientStep a = some m') (hfree : w.free tid = true) (hquiet : m'.queue = []) :
    ∃ after, m.clientStep a = some after ∧ Carries (w.goOn m') after := by
  obtain ⟨hsystem, ⟨_, hafter, _⟩ | ⟨r, hone, _⟩⟩ := clientStep_empty (m := w.rest) m.queue hclient
  · rw [h.rest] at hafter
    refine ⟨_, hafter, hsystem, rfl, rfl, h.queue, fun u b hb => ?_⟩
    obtain ⟨q, other, hp, hq, hother, hsends⟩ := h.writes u b hb
    have hne : a.actor ≠ some u := by
      rw [hactor]
      rintro ⟨⟩
      change w.writing tid = some b at hb
      rw [SharedNode.free, hb] at hfree
      cases hfree
    have hstays := sends_stays hsends hother hne hafter
    exact ⟨q, other, hp, hq, hother, hstays⟩
  · rw [hquiet] at hone
    cases hone

theorem machine_client {a : Action} {tid : Tid} {after : Machine} (hactor : a.actor = some tid)
    (h : m.clientStep a = some after) : Machine.Step m ⟨a, []⟩ after := by
  cases a with
  | server b => cases hactor
  | _ => exact Option.map_eq_some_iff.mpr ⟨after, h, rfl⟩

/-- A step of the server other than on the ring. -/
theorem carries_server (h : Carries w m) {b : Server.Action} {system : System} {replies : List Reply}
    (hb : ∀ r, b ≠ .request r) (hstep : w.system.step b = some (system, replies)) :
    ∃ after, m.serverStep b = some (after, replies) ∧
      Carries { w with system, answers := Machine.deliver w.answers replies } after := by
  have htake : Machine.takeFrom m.queue b = some m.queue := by
    cases b with
    | request r => exact absurd rfl (hb r)
    | _ => rfl
  refine ⟨{ m with system, answers := Machine.deliver m.answers replies }, ?_, rfl, h.threads, ?_, h.queue, h.writes⟩
  · rw [Machine.serverStep, htake, h.system, hstep]
    rfl
  · dsimp only
    rw [h.answers]

/-- The node with the ring does what the node with the queue does. -/
theorem shared_simulates : Simulates SharedNode.Step Machine.Step Carries SharedNode.seen := by
  rintro w ⟨a, replies⟩ w' m h hstep
  have hstep : w.step a = some (w', replies) := hstep
  simp only [SharedNode.step] at hstep
  cases a with
  | client a =>
    obtain ⟨tid, hactor, hstep⟩ := Option.bind_eq_some_iff.mp hstep
    obtain ⟨m', hclient, hstep⟩ := Option.bind_eq_some_iff.mp hstep
    split_ifs at hstep with hfree
    cases hstep
    obtain ⟨after, hafter, hcarries⟩ := carries_client h hactor hclient hfree.1 hfree.2
    exact ⟨after, machine_client hactor hafter, hcarries⟩
  | beginWrite a req =>
    obtain ⟨tid, hactor, hstep⟩ := Option.bind_eq_some_iff.mp hstep
    obtain ⟨m', hclient, hstep⟩ := Option.bind_eq_some_iff.mp hstep
    obtain ⟨r, hr, hstep⟩ := Option.bind_eq_some_iff.mp hstep
    obtain ⟨slot, hslot, hstep⟩ := Option.bind_eq_some_iff.mp hstep
    obtain ⟨⟨w', moved⟩, hqueue, hstep⟩ := Option.bind_eq_some_iff.mp hstep
    dsimp only at hstep
    split_ifs at hstep with hfree
    cases hstep
    exact ⟨m, rfl, carries_begin h hactor hclient hr hslot hfree hqueue⟩
  | endWrite tid =>
    obtain ⟨a, ha, hstep⟩ := Option.bind_eq_some_iff.mp hstep
    obtain ⟨m', hclient, hstep⟩ := Option.bind_eq_some_iff.mp hstep
    obtain ⟨⟨w', moved⟩, hqueue, hstep⟩ := Option.bind_eq_some_iff.mp hstep
    cases hstep
    obtain ⟨after, hafter, hcarries⟩ := carries_end h ha hclient hqueue
    obtain ⟨_, _, _, _, hactor, _⟩ := h.writes tid a ha
    refine ⟨after, ?_, hcarries⟩
    dsimp only [SharedNode.seen]
    rw [ha]
    exact machine_client hactor hafter
  | beginRead =>
    obtain ⟨⟨w', moved⟩, hqueue, hstep⟩ := Option.bind_eq_some_iff.mp hstep
    cases hstep
    obtain ⟨ring, rfl, hring⟩ := queueStep_spec hqueue
    obtain ⟨rfl, hproc⟩ := beginRead_spec hring
    obtain ⟨head, contents, hholds, hread⟩ := h.queue
    obtain ⟨_, hkeep, hholds'⟩ := Queue.refines hholds hring
    cases hkeep
    exact ⟨m, rfl, h.system, h.threads, h.answers, ⟨_, contents, hholds', hread⟩, writes_stay h hproc⟩
  | endRead =>
    obtain ⟨⟨w', moved⟩, hqueue, hstep⟩ := Option.bind_eq_some_iff.mp hstep
    obtain ⟨r, hr, hstep⟩ := Option.bind_eq_some_iff.mp hstep
    obtain ⟨⟨system, out⟩, hserver, hstep⟩ := Option.bind_eq_some_iff.mp hstep
    cases hstep
    obtain ⟨r', queue, hq, hr', hcarries⟩ := taken_spec h hqueue
    refine ⟨{ m with system, queue, answers := Machine.deliver m.answers out }, ?_, rfl, hcarries.threads, ?_,
      hcarries.queue, hcarries.writes⟩
    · dsimp only [SharedNode.seen]
      rw [hr]
      change m.serverStep (.request r) = _
      have htake : Machine.takeFrom m.queue (.request r) = some queue := by
        rw [hq, Machine.takeFrom, List.head?_cons, Option.bind_some, ← hr', if_pos hr, List.tail_cons]
      rw [Machine.serverStep, htake, h.system, hserver]
      rfl
    · dsimp only
      rw [h.answers]
  | server b =>
    have hb : ∀ r, b ≠ .request r := by
      rintro r rfl
      cases hstep
    have hserver : ∃ system, w.system.step b = some (system, replies) ∧
        w' = { w with system, answers := Machine.deliver w.answers replies } := by
      cases b with
      | request r => exact absurd rfl (hb r)
      | _ =>
        obtain ⟨⟨system, out⟩, hserver, hstep⟩ := Option.bind_eq_some_iff.mp hstep
        cases hstep
        exact ⟨system, hserver, rfl⟩
    obtain ⟨system, hserver, rfl⟩ := hserver
    obtain ⟨after, hafter, hcarries⟩ := carries_server h hb hserver
    exact ⟨after, hafter, hcarries⟩

end

section
variable {env : Server.Env} {engine : Server.CapioCLEngine} {fs : Server.FileSystem} {shm : Nat → Char}
  {ts : SharedNode.Trace} {w : SharedNode}

theorem carries_boot : Carries (SharedNode.boot env engine fs shm) (Machine.boot env engine fs) :=
  ⟨rfl, rfl, rfl, ⟨0, [], Queue.holds_start shm, rfl⟩, nofun⟩

/-- A run of the node with its queue in shared memory is one of the node with a queue of requests, and
the server reads each slot as the text of the oldest request: as that request, where the run is orderly. -/
theorem shared_queue_refines (h : Run SharedNode.Step (SharedNode.boot env engine fs shm) ts w) : ∃ us m,
    Run Machine.Step (Machine.boot env engine fs) us m ∧ us.map Transition.label = ts.filterMap SharedNode.seen ∧
    Carries w m ∧
    (∀ w' moved, w.queueStep (.endRead none) = some (w', moved) →
      ∃ r, m.queue.head? = some r ∧ w.taken = r.received ∧ ((∀ x ∈ us, Machine.Orderly x) → w.taken = some r)) ∧
    ((∀ x ∈ us, Machine.Orderly x) → Server.System.Disciplined (Machine.serverTrace us)) := by
  obtain ⟨us, m, hrun, hcarries, hlabels⟩ := h.simulated shared_simulates carries_boot
  refine ⟨us, m, hrun, hlabels, hcarries, fun w' moved hstep => ?_, fun ho => (served_run hrun ho).disciplined⟩
  obtain ⟨r, queue, hq, htaken, _⟩ := taken_spec hcarries hstep
  refine ⟨r, by rw [hq]; rfl, htaken, fun ho => htaken.trans ?_⟩
  exact (served_run hrun ho).readBack r (hq ▸ List.mem_cons_self)

end

/-- Two threads join at the same time, and the server takes the slot of the one that stored first. -/
def bothJoin : List SharedAction :=
  [.beginWrite (.init 1 none 8) (List.replicate capioReqMaxSize 'x'),
    .beginWrite (.init 2 (some "app".toList) 8) (List.replicate capioReqMaxSize 'y'), .endWrite 2, .beginRead, .endWrite 1,
    .endRead, .server .call]

theorem shared_queue_refines_bothJoin : ∃ (ts : SharedNode.Trace) (w : SharedNode) (us : Machine.Trace) (m : Machine),
    ts.map (fun x => x.label.action) = bothJoin ∧ Carries w m ∧ us.map Transition.label = ts.filterMap SharedNode.seen := by
  obtain ⟨ts, w, hrun, hactions, _⟩ := execute_any SharedNode.step
    (SharedNode.boot ⟨"/c".toList, none⟩ ⟨∅⟩ ⟨fun _ => none⟩ fun _ => ' ') bothJoin (fun _ _ => true) (by decide +kernel)
  obtain ⟨us, m, _, hlabels, hcarries, _⟩ := shared_queue_refines hrun
  exact ⟨ts, w, us, m, hactions, hcarries, hlabels⟩

end Capio.Node
