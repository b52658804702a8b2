import Capio.Node.Machine
import Capio.Server.OpenQuestions

/-! Every thread of a node keeps to its part of the exchange with the server, whatever the
others do. -/
namespace Capio.Node
open Library Posix
open Server (System Tid Reply sender isHandshake)
open Server.System (Awaiting Connected MaySend Disciplined Tracked CreationOnce replied blocks)

/-- Where a thread stands in the exchange. -/
def Stands (tid : Tid) : ThreadState → Control → Prop
  | .gone, c | .left, c => c = .gone
  | .runs p, c => Keeps tid c p
  | .killed, c => c = .killed

/-- What there is of a thread when the server has taken the steps `ts`. -/
def lane (ts : System.Trace) (m : Machine) (c : Control) (tid : Tid) : Lane Request :=
  ⟨c, m.queue.filter (fun r => sender r = tid), Connected tid ts, Awaiting tid ts, m.answers tid⟩

def Keeping (ts : System.Trace) (m : Machine) (tid : Tid) : Prop :=
  ∃ c, Stands tid (m.threads tid) c ∧ (lane ts m c tid).Ok kind

/-- The answers that a thread starts with: none, or those of the thread that it is a copy of. -/
def Inherits (threads : Tid → ThreadState) (c : ReadRequestCache) : Prop :=
  c = .start ∨ ∃ parent th, (threads parent).returned = some th ∧ c = th.readCache

/-- What a thread does: its next state, what it puts into the queue and what is left of the
answers. -/
inductive Moves (a : Action) (threads : Tid → ThreadState) (tid : Tid) (answers : List Nat) :
    ThreadState → ThreadState → List Request → List Nat → Prop
  | join {state : ThreadState} {th : ClientThread} {r : Request} (hout : state.isFree = true ∨ state.returned.isSome = true)
    (hclean : Machine.startsClean threads a = true → state.isOver = false ∧ th.writeCache.currentSize ≤ 0)
    (hcache : Inherits threads th.readCache) (hr : kind r = .joins) (hown : sender r = tid) :
    Moves a threads tid answers state (.start th) [r] answers
  | call {state : ThreadState} {th : ClientThread} (hth : state.returned = some th) (env : ClientEnv)
    (view : KernelView) (t : DescriptorTables) (call : TableCall) (ha : a = .call tid env view t call) :
    Moves a threads tid answers state (.runs (call.run env view t tid th)) [] answers
  | send {r : Request} {next : HandlerProgram} :
    Moves a threads tid answers (.runs (.send r next)) (.runs next) [r] answers
  | read {next : Nat → HandlerProgram} {v : Nat} {rest : List Nat} (ha : answers = v :: rest) :
    Moves a threads tid answers (.runs (.await next)) (.runs (next v)) [] rest
  | vanish {state after : ThreadState} (h : state.vanish = some after) :
    Moves a threads tid answers state after [] answers

section
variable {m m' : Machine} {a : Action} {tid : Tid} {r : Request}

theorem handshake_joins (tid pid : Int) (appName : Option CString) :
    kind (Machine.handshake tid pid appName) = .joins ∧ sender (Machine.handshake tid pid appName) = tid := by
  cases appName <;> exact ⟨rfl, rfl⟩

theorem enqueue_some (h : m.enqueue r = some m') : m' = { m with queue := m.queue ++ [r] } := by
  unfold Machine.enqueue at h
  split_ifs at h
  exact (Option.some.inj h).symm

/-- An action of a client is a move of one thread. -/
theorem clientStep_moves (h : m.clientStep a = some m') : ∃ tid state queued answers,
    Moves a m.threads tid (m.answers tid) (m.threads tid) state queued answers ∧
    m' = ⟨m.system, m.queue ++ queued, Function.update m.threads tid state,
      Function.update m.answers tid answers⟩ := by
  have hsame (tid : Tid) : Function.update m.answers tid (m.answers tid) = m.answers := Function.update_eq_self _ _
  have hfresh {u : Tid} (maxSize : Nat) (hclean : (!(m.threads u).isOver) = true) :
      (m.threads u).isOver = false ∧ (ClientThread.start maxSize true).writeCache.currentSize ≤ 0 :=
    ⟨Bool.not_eq_true' _ ▸ hclean, le_rfl⟩
  cases a with
  | init tid appName maxSize =>
    simp only [Machine.clientStep, Bool.or_eq_true] at h
    split_ifs at h with hout
    obtain ⟨hr, hown⟩ := handshake_joins tid tid appName
    refine ⟨tid, _, _, _, .join hout (hfresh maxSize) (.inl rfl) hr hown, ?_⟩
    rw [hsame]
    exact enqueue_some h
  | clone parent child appName maxSize =>
    simp only [Machine.clientStep, Bool.and_eq_true] at h
    split_ifs at h with hout
    obtain ⟨hr, hown⟩ := handshake_joins child parent appName
    refine ⟨child, _, _, _, .join (.inl hout.2) (hfresh maxSize) (.inl rfl) hr hown, ?_⟩
    rw [hsame]
    exact enqueue_some h
  | fork parent child appName isCapioTid =>
    simp only [Machine.clientStep] at h
    obtain ⟨th, hth, h⟩ := Option.bind_eq_some_iff.mp h
    split_ifs at h with hout
    obtain ⟨hr, hown⟩ := handshake_joins child child appName
    have hcopy : Machine.startsClean m.threads (.fork parent child appName isCapioTid) = true →
        (m.threads child).isOver = false ∧ ({ th with isCapioTid } : ClientThread).writeCache.currentSize ≤ 0 := by
      simp [Machine.startsClean, hth]
    refine ⟨child, _, _, _, .join (.inl hout) hcopy (.inr ⟨parent, th, hth, rfl⟩) hr hown, ?_⟩
    rw [hsame]
    exact enqueue_some h
  | call tid env view t call =>
    simp only [Machine.clientStep] at h
    obtain ⟨th, hth, h⟩ := Option.bind_eq_some_iff.mp h
    refine ⟨tid, _, _, _, .call hth env view t call rfl, ?_⟩
    rw [hsame, List.append_nil]
    exact (Option.some.inj h).symm
  | send tid =>
    simp only [Machine.clientStep] at h
    split at h
    · rename_i r next hp
      refine ⟨tid, .runs next, [r], m.answers tid, ?_, ?_⟩
      · rw [hp]
        exact .send
      · rw [hsame]
        exact enqueue_some h
    · cases h
  | read tid =>
    simp only [Machine.clientStep] at h
    split at h
    · rename_i next v rest hp ha
      refine ⟨tid, .runs (next v), [], rest, ?_, ?_⟩
      · rw [hp]
        exact .read ha
      · rw [List.append_nil]
        exact (Option.some.inj h).symm
    · cases h
  | vanish tid =>
    simp only [Machine.clientStep] at h
    obtain ⟨state, hstate, h⟩ := Option.bind_eq_some_iff.mp h
    refine ⟨tid, _, _, _, .vanish hstate, ?_⟩
    rw [hsame, List.append_nil]
    exact (Option.some.inj h).symm
  | server a => cases h

/-- A thread that is in its own code has nothing open. -/
theorem free_of_returned {state : ThreadState} {th : ClientThread} {c : Control} (h : state.returned = some th)
    (hstands : Stands tid state c) : c = .free ∧ Sound tid th := by
  cases state with
  | runs p =>
    cases p with
    | done returned =>
      cases c with
      | free => exact ⟨rfl, hstands th h⟩
      | leaving =>
        have hnone : returned.thread = none := hstands
        rw [ThreadState.returned, hnone] at h
        cases h
      | _ => cases hstands
    | _ => cases h
  | _ => cases h

/-- A move keeps the thread in its part, and what it sends is its own. -/
theorem moves_ok {threads : Tid → ThreadState} {answers answers' : List Nat} {state state' : ThreadState} {queued : List Request} {c : Control}
    {l : Lane Request} (h : Moves a threads tid answers state state' queued answers') (hstands : Stands tid state c)
    (hi : l.Ok kind) (hc : l.control = c) (ha : l.answers = answers)
    (hclean : Machine.startsClean threads a = true) :
    (∀ r ∈ queued, sender r = tid) ∧ ∃ c', Stands tid state' c' ∧
      Lane.Ok kind { l with control := c', queued := l.queued ++ queued, answers := answers' } := by
  subst hc ha
  cases h with
  | @join _ th r hout hstarts _ hr hown =>
    obtain ⟨hnew, hidle⟩ := hstarts hclean
    have hstart : Stands tid (.start th) .free := by
      intro th' hth hpos
      cases hth
      exact absurd hidle (not_le.mpr hpos)
    refine ⟨List.forall_mem_singleton.mpr hown, .free, hstart, Lane.ok_join hi ?_ hr⟩
    rcases hout with hfree | hreturned
    · cases state with
      | gone => exact .inl hstands
      | runs p => cases hfree
      | killed | left => cases hnew
    · obtain ⟨th', hth'⟩ := Option.isSome_iff_exists.mp hreturned
      exact .inr (free_of_returned hth' hstands).1
  | @call _ th hth env view t call _ =>
    obtain ⟨hfree, hs⟩ := free_of_returned hth hstands
    refine ⟨nofun, .free, calls_keep_protocol env view t tid th hs call, ?_⟩
    rw [List.append_nil, ← hfree]
    exact hi
  | @send r next =>
    cases hcontrol : l.control with
    | free =>
      rw [hcontrol] at hstands
      obtain ⟨hown, hjoins, hnext⟩ := hstands
      exact ⟨List.forall_mem_singleton.mpr hown, _, hnext, Lane.ok_send hi hcontrol hjoins⟩
    | _ =>
      rw [hcontrol] at hstands
      cases hstands
  | @read next v rest hrest =>
    cases hcontrol : l.control with
    | waiting =>
      rw [hcontrol] at hstands
      refine ⟨nofun, .free, hstands v, ?_⟩
      rw [List.append_nil]
      exact Lane.ok_read hi hcontrol hrest
    | _ =>
      rw [hcontrol] at hstands
      cases hstands
  | vanish hvanish =>
    rw [List.append_nil]
    cases state with
    | runs p =>
      cases p with
      | await next =>
        cases hvanish
        cases hcontrol : l.control with
        | waiting => exact ⟨nofun, .killed, rfl, Lane.ok_kill hi hcontrol⟩
        | _ =>
          rw [hcontrol] at hstands
          cases hstands
      | done _ | send _ _ =>
        cases hvanish
        cases hcontrol : l.control with
        | free => exact ⟨nofun, .gone, rfl, Lane.ok_vanish hi (.inl hcontrol)⟩
        | leaving => exact ⟨nofun, .gone, rfl, Lane.ok_vanish hi (.inr hcontrol)⟩
        | _ =>
          rw [hcontrol] at hstands
          cases hstands
    | _ => cases hvanish

theorem client_keeping {ts : System.Trace} (hi : ∀ u, Keeping ts m u) (h : m.clientStep a = some m')
    (hclean : Machine.startsClean m.threads a = true) (u : Tid) : Keeping ts m' u := by
  obtain ⟨tid, state, queued, answers, hmove, rfl⟩ := clientStep_moves h
  obtain ⟨c, hstands, hok⟩ := hi tid
  obtain ⟨hown, c', hstands', hok'⟩ := moves_ok hmove hstands hok rfl rfl hclean
  by_cases hu : u = tid
  · subst hu
    refine ⟨c', ?_, ?_⟩
    · dsimp only
      rw [Function.update_self]
      exact hstands'
    · dsimp only [lane]
      rw [List.filter_append, Function.update_self]
      rwa [List.filter_eq_self.mpr (fun r hr => decide_eq_true (hown r hr))]
  · obtain ⟨d, hstands, hok⟩ := hi u
    refine ⟨d, ?_, ?_⟩
    · dsimp only
      rw [Function.update_of_ne hu]
      exact hstands
    · have hnone : queued.filter (fun r => sender r = u) = [] := by
        rw [List.filter_eq_nil_iff]
        intro r hr
        rw [decide_eq_true_eq, hown r hr]
        exact Ne.symm hu
      dsimp only [lane]
      rw [List.filter_append, Function.update_of_ne hu, hnone, List.append_nil]
      exact hok

/-- The server takes the first request of the queue as it reads it, or leaves the queue alone. -/
theorem serverStep_cases {b : Server.Action} {replies : List Reply} (h : m.serverStep b = some (m', replies)) :
    ∃ queue system, m.system.step b = some (system, replies) ∧
      m' = { m with system, queue, answers := Machine.deliver m.answers replies } ∧
      ((∃ q r, b = .request r ∧ m.queue = q :: queue ∧ q.received = some r) ∨
        (∀ r, b ≠ .request r) ∧ queue = m.queue) := by
  unfold Machine.serverStep at h
  obtain ⟨queue, hqueue, h⟩ := Option.bind_eq_some_iff.mp h
  obtain ⟨⟨system, out⟩, hstep, h⟩ := Option.bind_eq_some_iff.mp h
  cases h
  refine ⟨queue, system, hstep, rfl, ?_⟩
  cases b with
  | request r =>
    rw [Machine.takeFrom] at hqueue
    split_ifs at hqueue with hr
    cases hqueue
    obtain ⟨q, hq, hread⟩ := Option.bind_eq_some_iff.mp hr
    exact .inl ⟨q, r, rfl, (List.cons_head?_tail hq).symm, hread⟩
  | _ =>
    cases hqueue
    exact .inr ⟨fun _ => nofun, rfl⟩

/-- What the server takes is what was sent, where it reads each request back. -/
theorem taken_sent {b : Server.Action} {queue : List Request} (hback : ∀ r ∈ m.queue, r.received = some r)
    (h : (∃ q r, b = .request r ∧ m.queue = q :: queue ∧ q.received = some r) ∨
      (∀ r, b ≠ .request r) ∧ queue = m.queue) :
    (∃ r, b = .request r ∧ m.queue = r :: queue) ∨ (∀ r, b ≠ .request r) ∧ queue = m.queue := by
  refine h.imp_left ?_
  rintro ⟨q, r, rfl, hq, hread⟩
  obtain rfl := Option.some.inj ((hback q (hq ▸ List.mem_cons_self)).symm.trans hread)
  exact ⟨q, rfl, hq⟩

theorem blocks_iff {r : Request} : blocks r = some tid ↔ kind r = .asks ∧ sender r = tid := by
  cases r <;> simp [blocks, kind, sender]

theorem isHandshake_iff {r : Request} : isHandshake r = true ↔ kind r = .joins := by
  cases r <;> simp [isHandshake, kind]

theorem announces_of_kind {r : Request} (hr : sender r = tid) :
    (kind r = .joins ∧ ∃ appName, Server.announces tid r = some (some appName)) ∨
    (kind r = .leaves ∧ Server.announces tid r = some none) ∨
    (kind r ≠ .joins ∧ kind r ≠ .leaves ∧ Server.announces tid r = none) := by
  subst hr
  cases r with
  | handshakeNamed u pid appName => exact .inl ⟨rfl, appName, if_pos rfl⟩
  | handshakeAnonymous u pid => exact .inl ⟨rfl, _, if_pos rfl⟩
  | exitGroup u => exact .inr (.inl ⟨rfl, if_pos rfl⟩)
  | _ => exact .inr (.inr ⟨nofun, nofun, rfl⟩)

section
variable {ts : System.Trace} {s t : System} {out : List Reply} {r : Request} {b : Server.Action}

/-- Who is connected when a request of the thread is taken. -/
theorem connected_own (hr : sender r = tid) :
    Connected tid (ts ++ [⟨s, ⟨.request r, out⟩, t⟩]) ↔ Lane.joined kind (Connected tid ts) r := by
  rcases announces_of_kind hr with ⟨hk, appName, ha⟩ | ⟨hk, ha⟩ | ⟨hjoins, hleaves, ha⟩
  · unfold Connected
    rw [System.requests_snoc, Server.latest_snoc, ha]
    exact iff_of_true ⟨appName, rfl⟩ (.inl hk)
  · unfold Connected
    rw [System.requests_snoc, Server.latest_snoc, ha]
    refine iff_of_false nofun ?_
    rintro (hj | ⟨_, hne⟩)
    · rw [hk] at hj
      cases hj
    · exact hne hk
  · rw [System.connected_snoc rfl ha]
    simp [Lane.joined, hjoins, hleaves]

theorem connected_other (hr : sender r ≠ tid) :
    Connected tid (ts ++ [⟨s, ⟨.request r, out⟩, t⟩]) ↔ Connected tid ts := by
  refine System.connected_snoc rfl ?_
  rw [Option.eq_none_iff_forall_ne_some]
  exact fun a ha => hr (Server.sender_of_announces ha).1

end

/-- The server may take the first request of the queue. -/
theorem maySend_head {ts : System.Trace} {rest : List Request} (hi : ∀ u, Keeping ts m u)
    (hq : m.queue = r :: rest) : MaySend ts (.request r) := by
  intro r' hr'
  cases hr'
  obtain ⟨c, _, hok⟩ := hi (sender r)
  have hqueued : (lane ts m c (sender r)).queued = r :: rest.filter (fun q => sender q = sender r) := by
    dsimp only [lane]
    rw [hq, List.filter_cons_of_pos (by simp)]
  have horderly := hok.orderly
  rw [hqueued] at horderly
  refine ⟨hok.not_due hqueued, horderly.1.imp_left ?_⟩
  exact isHandshake_iff.mpr

/-- The server may take what a step of it takes. -/
theorem maySend_taken {ts : System.Trace} {b : Server.Action} {queue : List Request} (hi : ∀ u, Keeping ts m u)
    (h : (∃ r, b = .request r ∧ m.queue = r :: queue) ∨ (∀ r, b ≠ .request r) ∧ queue = m.queue) : MaySend ts b := by
  rcases h with ⟨r, rfl, hq⟩ | ⟨hquiet, _⟩
  · exact maySend_head hi hq
  · exact fun r hr => absurd hr (hquiet r)

theorem deliver_none (answers : Tid → List Nat) {replies : List Reply} (h : tid ∉ replies.map Reply.tid) :
    Machine.deliver answers replies tid = answers tid := by
  have hnone : replies.filter (fun reply => reply.tid = tid) = [] := by
    rw [List.filter_eq_nil_iff]
    intro reply hreply htid
    exact h (List.mem_map.mpr ⟨reply, hreply, of_decide_eq_true htid⟩)
  rw [Machine.deliver, hnone, List.map_nil, List.append_nil]

theorem deliver_once (answers : Tid → List Nat) {replies : List Reply} (hn : (replies.map Reply.tid).Nodup)
    (h : tid ∈ replies.map Reply.tid) : ∃ v, Machine.deliver answers replies tid = answers tid ++ [v] := by
  induction replies with
  | nil => cases h
  | cons reply replies ih =>
    rw [List.map_cons, List.nodup_cons] at hn
    by_cases htid : reply.tid = tid
    · subst htid
      have hrest := deliver_none (fun _ => []) hn.1
      rw [Machine.deliver, List.nil_append] at hrest
      refine ⟨reply.offset, ?_⟩
      rw [Machine.deliver, List.filter_cons_of_pos (by simp), List.map_cons, hrest]
    · obtain ⟨v, hv⟩ := ih hn.2 ((List.mem_cons.mp h).resolve_left (Ne.symm htid))
      refine ⟨v, ?_⟩
      rw [← hv, Machine.deliver, Machine.deliver, List.filter_cons_of_neg (by simpa using htid)]

/-- A step of the server keeps every thread in its part. -/
theorem server_keeping {ts : System.Trace} {b : Server.Action} {replies : List Reply} (hi : ∀ u, Keeping ts m u)
    (hback : ∀ r ∈ m.queue, r.received = some r) (htracked : Tracked ts m.system) (hnodup : CreationOnce m.system)
    (h : m.serverStep b = some (m', replies)) (u : Tid) :
    Keeping (ts ++ [⟨m.system, ⟨b, replies⟩, m'.system⟩]) m' u := by
  obtain ⟨queue, system, hstep, rfl, htaken⟩ := serverStep_cases h
  replace htaken := taken_sent hback htaken
  have hserver : System.Step m.system ⟨b, replies⟩ system := hstep
  obtain ⟨c, hstands, hok⟩ := hi u
  dsimp only
  -- the lane when the request has arrived and nobody is answered yet
  have harrived : Lane.Ok kind ⟨c, queue.filter (fun r => sender r = u),
      Connected u (ts ++ [⟨m.system, ⟨b, replies⟩, system⟩]),
      Awaiting u ts ∨ ∃ r, b = .request r ∧ blocks r = some u, m.answers u⟩ := by
    rcases htaken with ⟨r, rfl, hq⟩ | ⟨hquiet, rfl⟩
    · by_cases hr : sender r = u
      · have hqueued : (lane ts m c u).queued = r :: queue.filter (fun q => sender q = u) := by
          dsimp only [lane]
          rw [hq, List.filter_cons_of_pos (by simpa using hr)]
        have harrive := Lane.ok_arrive hok hqueued
        have hdue : (Awaiting u ts ∨ kind r = .asks) = (Awaiting u ts ∨
            ∃ q, Server.Action.request r = .request q ∧ blocks q = some u) := by
          rw [eq_iff_iff]
          refine or_congr_right ?_
          constructor
          · exact fun hk => ⟨r, rfl, blocks_iff.mpr ⟨hk, hr⟩⟩
          · rintro ⟨q, hq, hb⟩
            cases hq
            exact (blocks_iff.mp hb).1
        rw [connected_own hr, ← hdue]
        exact harrive
      · have hqueued : m.queue.filter (fun q => sender q = u) = queue.filter (fun q => sender q = u) := by
          rw [hq, List.filter_cons_of_neg (by simpa using hr)]
        have hdue : Awaiting u ts = (Awaiting u ts ∨
            ∃ q, Server.Action.request r = .request q ∧ blocks q = some u) := by
          rw [eq_iff_iff, or_iff_left]
          rintro ⟨q, hq, hb⟩
          cases hq
          exact hr (blocks_iff.mp hb).2
        rw [connected_other hr, ← hdue, ← hqueued]
        exact hok
    · have hdue : Awaiting u ts = (Awaiting u ts ∨ ∃ q, b = .request q ∧ blocks q = some u) := by
        rw [eq_iff_iff, or_iff_left]
        rintro ⟨q, hq, _⟩
        exact hquiet q hq
      rw [System.connected_quiet hquiet, ← hdue]
      exact hok
  have hdue : Awaiting u (ts ++ [⟨m.system, ⟨b, replies⟩, system⟩]) ↔
      (Awaiting u ts ∨ ∃ r, b = .request r ∧ blocks r = some u) ∧ u ∉ replies.map Reply.tid := by
    rw [System.awaiting_snoc, or_comm, or_and_right]
    rfl
  refine ⟨c, hstands, ?_⟩
  dsimp only [lane]
  by_cases hu : u ∈ replies.map Reply.tid
  · obtain ⟨v, hv⟩ := deliver_once m.answers (System.replied_nodup hnodup hserver) hu
    have hnone : Awaiting u (ts ++ [⟨m.system, ⟨b, replies⟩, system⟩]) = False :=
      eq_false fun hw => (hdue.mp hw).2 hu
    rw [hv, hnone]
    exact Lane.ok_answer harrived (System.replied_due htracked hserver hu)
  · rw [deliver_none m.answers hu, propext (hdue.trans (and_iff_left hu))]
    exact harrived

end

/-- What holds of a node in every orderly run. -/
structure Served (env : Server.Env) (engine : Server.CapioCLEngine) (fs : Server.FileSystem) (ts : Machine.Trace)
    (m : Machine) : Prop where
  ran : Run System.Step (System.boot env engine fs) (Machine.serverTrace ts) m.system
  disciplined : Disciplined (Machine.serverTrace ts)
  keeping : ∀ tid, Keeping (Machine.serverTrace ts) m tid
  readBack : ∀ r ∈ m.queue, r.received = some r
  creationOnce : CreationOnce m.system

section
variable {env : Server.Env} {engine : Server.CapioCLEngine} {fs : Server.FileSystem} {ts : Machine.Trace}
  {m m' : Machine} {e : Machine.Event}

theorem serverTrace_snoc (ts : Machine.Trace) (m m' : Machine) (e : Machine.Event) :
    Machine.serverTrace (ts ++ [⟨m, e, m'⟩]) = Machine.serverTrace ts ++ match e.action with
      | .server b => [⟨m.system, ⟨b, e.replies⟩, m'.system⟩]
      | _ => [] := by
  unfold Machine.serverTrace
  rw [List.filterMap_append]
  cases ha : e.action <;> simp [Machine.served, ha]

theorem disciplined_snoc {ts : System.Trace} {x : Transition System System.Event} (hd : Disciplined ts)
    (hx : MaySend ts x.label.action) : Disciplined (ts ++ [x]) := by
  intro pre y post heq
  rcases List.eq_nil_or_concat post with rfl | ⟨post, z, rfl⟩
  · obtain ⟨rfl, hone⟩ := List.append_inj' heq rfl
    cases hone
    exact hx
  · rw [List.concat_eq_append, ← List.cons_append, ← List.append_assoc] at heq
    obtain ⟨rfl, _⟩ := List.append_inj' heq rfl
    exact hd pre y post rfl

theorem served_step (hi : Served env engine fs ts m) (ho : Machine.Orderly ⟨m, e, m'⟩) (h : Machine.Step m e m') :
    Served env engine fs (ts ++ [⟨m, e, m'⟩]) m' := by
  obtain ⟨a, replies⟩ := e
  have hclient (hstep : m.clientStep a = some m') (hquiet : ∀ b, a ≠ .server b) :
      Served env engine fs (ts ++ [⟨m, ⟨a, replies⟩, m'⟩]) m' := by
    have htrace : Machine.serverTrace (ts ++ [⟨m, ⟨a, replies⟩, m'⟩]) = Machine.serverTrace ts := by
      rw [serverTrace_snoc]
      cases a with
      | server b => exact absurd rfl (hquiet b)
      | _ => exact List.append_nil _
    have hsystem : m'.system = m.system := by
      obtain ⟨_, _, _, _, _, rfl⟩ := clientStep_moves hstep
      rfl
    constructor
    · rw [htrace, hsystem]
      exact hi.ran
    · rw [htrace]
      exact hi.disciplined
    · rw [htrace]
      exact client_keeping hi.keeping hstep ho.starts
    · exact ho.readBack
    · rw [hsystem]
      exact hi.creationOnce
  cases a with
  | server b =>
    have hstep : m.serverStep b = some (m', replies) := h
    have htracked := System.tracked_run hi.ran hi.disciplined
    obtain ⟨queue, system, hserver, hm', htaken⟩ := serverStep_cases hstep
    have hsystem : System.Step m.system ⟨b, replies⟩ m'.system := by
      rw [hm']
      exact hserver
    have hsend : MaySend (Machine.serverTrace ts) b := maySend_taken hi.keeping (taken_sent hi.readBack htaken)
    have htrace : Machine.serverTrace (ts ++ [⟨m, ⟨.server b, replies⟩, m'⟩]) =
        Machine.serverTrace ts ++ [⟨m.system, ⟨b, replies⟩, m'.system⟩] := serverTrace_snoc _ _ _ _
    constructor
    · rw [htrace]
      exact hi.ran.snoc hsystem
    · rw [htrace]
      exact disciplined_snoc hi.disciplined hsend
    · rw [htrace]
      exact server_keeping hi.keeping hi.readBack htracked hi.creationOnce hstep
    · exact ho.readBack
    · exact System.creationOnce_step htracked.waits hi.creationOnce hsystem
  | _ =>
    obtain ⟨m'', hstep, he⟩ := Option.map_eq_some_iff.mp h
    cases he
    exact hclient hstep (fun _ => nofun)

theorem served_boot : Served env engine fs [] (Machine.boot env engine fs) := by
  constructor
  · exact .nil
  · rintro pre x post h
    cases pre <;> cases h
  · intro tid
    have hconnected : Connected tid [] = False := eq_false (by rintro ⟨_, hlatest⟩; cases hlatest)
    have hawaiting : Awaiting tid [] = False := eq_false (mt Run.since_nil.mp not_false)
    have hlane : lane [] (Machine.boot env engine fs) .gone tid = Lane.unused := by
      rw [lane, hconnected, hawaiting]
      rfl
    refine ⟨.gone, rfl, ?_⟩
    change Lane.Ok kind (lane [] (Machine.boot env engine fs) .gone tid)
    rw [hlane]
    exact Lane.ok_unused
  · exact fun r hr => (List.not_mem_nil hr).elim
  · exact fun path => List.nodup_nil

theorem served_run (h : Run Machine.Step (Machine.boot env engine fs) ts m) (ho : ∀ x ∈ ts, Machine.Orderly x) :
    Served env engine fs ts m :=
  h.history_of Machine.Orderly (Served env engine fs) served_boot (fun _ _ _ _ _ _ hi hstep ho => served_step hi ho hstep) ho

end
end Capio.Node
