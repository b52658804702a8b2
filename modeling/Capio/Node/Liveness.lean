import Capio.Node.Questions
import Capio.Server.MonitorScans

/-! Runs of a node without an end in which the server goes on: what becomes of a question. -/
namespace Capio.Node
open Library Posix
open Server (System Tid Reply sender)
open Server.System (Dropped)

namespace Machine

/-- What the server does in a step of the node. -/
def serverEvent (x : Transition Machine Event) : Option System.Event :=
  match x.label.action with
  | .server b => some ⟨b, x.label.replies⟩
  | _ => none

/-- A step of the monitor. -/
def MonitorGoesOn (x : Transition Machine Event) : Prop := x.label.action = .server .monitor

/-- A step of the request thread, which waits only for requests. -/
def RequestsGoOn (x : Transition Machine Event) : Prop :=
  (∃ q, x.label.action = .server (.request q)) ∨ x.label.action = .server .call ∨
    x.source.queue = [] ∧ x.source.system.pending = []

/-- A step in which the thread takes an answer, or has none to take. -/
def ReaderGoesOn (tid : Tid) (x : Transition Machine Event) : Prop :=
  x.label.action = .read tid ∨ x.source.clientStep (.read tid) = none

/-- The server forgets the thread. -/
def Drops (tid : Tid) (x : Transition Machine Event) : Prop := ∃ y, served x = some y ∧ Dropped tid y

end Machine

/-- The two tables in which the server keeps the threads that wait. -/
inductive Table where
  | creation
  | data

namespace Table

/-- The call that puts a thread into the table. -/
def Registers (tid : Tid) (path : CString) (c : Server.Call) : Table → Prop
  | creation => c = .addThreadAwaitingCreation path tid
  | data => ∃ size, c = .addThreadAwaitingData path tid size

def Waits (server : Server.CapioServer) (tid : Tid) (path : CString) : Table → Prop
  | creation => tid ∈ server.waitingCreation path
  | data => (server.waitingData path tid).isSome

/-- What the monitor looks for before it answers. -/
def Ready (s : System) (tid : Tid) (path : CString) : Table → Prop
  | creation => s.fs.fileExists path = true
  | data => s.fs.fileExists path = true ∧ s.server.LockCondition s.fs path tid

end Table

/-- The path that a question is about, and the table for it. -/
def questionAt : Request → Option (Table × CString)
  | .openFile _ _ path => some (.creation, path)
  | .consent _ path _ | .read path _ _ _ => some (.data, path)
  | _ => none

section
variable {m m' : Machine} {e : Machine.Event} {tid : Tid} {path : CString} {q : Request} {table : Table}

theorem serverEvent_server {x : Transition Machine Machine.Event} {b : Server.Action} (h : x.label.action = .server b) :
    Machine.serverEvent x = some ⟨b, x.label.replies⟩ := by
  rw [Machine.serverEvent, h]

theorem serverEvent_client {x : Transition Machine Machine.Event} (h : ∀ b, x.label.action ≠ .server b) :
    Machine.serverEvent x = none := by
  unfold Machine.serverEvent
  split
  · exact absurd ‹_› (h _)
  · rfl

/-- A step of the node is one of the server, or leaves the server alone. -/
theorem step_cases (h : Machine.Step m e m') :
    (∃ b queue system, e.action = .server b ∧ m.system.step b = some (system, e.replies) ∧
      m' = { m with system, queue, answers := Machine.deliver m.answers e.replies } ∧
      ((∃ q r, b = .request r ∧ m.queue = q :: queue ∧ q.received = some r) ∨
        (∀ r, b ≠ .request r) ∧ queue = m.queue)) ∨
    ((∀ b, e.action ≠ .server b) ∧ ∃ queued, m'.system = m.system ∧ m'.queue = m.queue ++ queued) := by
  obtain ⟨a, replies⟩ := e
  cases a with
  | server b =>
    have hstep : m.serverStep b = some (m', replies) := h
    obtain ⟨queue, system, hserver, hm', htaken⟩ := serverStep_cases hstep
    exact .inl ⟨b, queue, system, rfl, hserver, hm', htaken⟩
  | _ =>
    obtain ⟨m'', hstep, he⟩ := Option.map_eq_some_iff.mp h
    cases he
    obtain ⟨_, _, queued, _, _, rfl⟩ := clientStep_moves hstep
    exact .inr ⟨fun _ => nofun, queued, rfl, rfl⟩

theorem registers_run {c : Server.Call} {server server' : Server.CapioServer} {fs fs' : Server.FileSystem}
    {out : List Reply} (hreg : table.Registers tid path c) (hrun : c.run server fs = some (server', fs', out)) :
    table.Waits server' tid path := by
  cases table with
  | creation =>
    obtain rfl := hreg
    cases hrun
    dsimp only [Table.Waits]
    rw [Server.CapioServer.waitingCreation_add, if_pos rfl]
    exact List.mem_append_right _ (List.mem_singleton.mpr rfl)
  | data =>
    obtain ⟨size, rfl⟩ := hreg
    cases hrun
    dsimp only [Table.Waits]
    rw [Server.CapioServer.waitingData_add, if_pos ⟨rfl, rfl⟩]
    rfl

theorem deliver_ne_nil {answers : Tid → List Nat} {replies : List Reply} (h : tid ∈ replies.map Reply.tid) :
    Machine.deliver answers replies tid ≠ [] := by
  obtain ⟨reply, hreply, htid⟩ := List.mem_map.mp h
  have hmem : reply ∈ replies.filter (fun reply => reply.tid = tid) :=
    List.mem_filter.mpr ⟨hreply, decide_eq_true htid⟩
  exact List.append_ne_nil_of_right_ne_nil _ (List.ne_nil_of_mem (List.mem_map_of_mem hmem))

/-- A handler answers a question, or registers the thread for the path of the question. -/
theorem handle_question {server : Server.CapioServer} {fs : Server.FileSystem} {calls : List Server.Call}
    {out : List Reply} (h : Server.handle server fs q = some (calls, out)) (hown : sender q = tid)
    (hq : questionAt q = some (table, path)) :
    tid ∈ out.map Reply.tid ∨ ∃ c ∈ calls, table.Registers tid path c := by
  cases q with
  | consent u p sourceFunc =>
    cases hown
    cases hq
    rcases Server.consentToProceedHandler_spec u path sourceFunc h with ⟨_, rfl, _⟩ | ⟨rfl, _⟩
    · exact .inl (List.mem_singleton.mpr rfl)
    · exact .inr ⟨_, List.mem_singleton.mpr rfl, _, rfl⟩
  | openFile u fd p =>
    cases hown
    cases hq
    rcases Server.openHandler_spec u fd path h with ⟨_, rfl, _⟩ | ⟨rfl, _⟩
    · exact .inl (List.mem_singleton.mpr rfl)
    · exact .inr ⟨_, List.mem_singleton.mpr rfl, rfl⟩
  | read p u fd endOfRead =>
    cases hown
    cases hq
    rcases Server.readHandler_spec u fd path endOfRead h with
      ⟨_, rfl, _⟩ | ⟨_, _, _, _, _, ⟨_, rfl, _⟩ | ⟨rfl, _⟩⟩
    · exact .inl (List.mem_singleton.mpr rfl)
    · exact .inl (List.mem_singleton.mpr rfl)
    · exact .inr ⟨_, List.mem_singleton.mpr rfl, _, rfl⟩
  | _ => cases hq

/-- A thread that waits for an answer stays where it is until it reads one or is killed. -/
theorem await_step {next : Nat → HandlerProgram} (h : Machine.Step m e m')
    (ht : m.threads tid = .runs (.await next)) :
    (m'.threads tid = .runs (.await next) ∧ (m.answers tid ≠ [] → m'.answers tid ≠ [])) ∨
      (∃ v, m'.threads tid = .runs (next v)) ∨ m'.threads tid = .killed := by
  obtain ⟨a, replies⟩ := e
  cases a with
  | server b =>
    have hstep : m.serverStep b = some (m', replies) := h
    obtain ⟨queue, system, _, rfl, _⟩ := serverStep_cases hstep
    exact .inl ⟨ht, fun hne => List.append_ne_nil_of_left_ne_nil hne _⟩
  | _ =>
    obtain ⟨m'', hstep, he⟩ := Option.map_eq_some_iff.mp h
    cases he
    obtain ⟨u, state, queued, answers, hmove, rfl⟩ := clientStep_moves hstep
    by_cases hu : tid = u
    · subst hu
      rw [ht] at hmove
      dsimp only
      rw [Function.update_self, Function.update_self]
      cases hmove with
      | join hout => simp [ThreadState.isFree, ThreadState.isOver, ThreadState.returned] at hout
      | call hth => cases hth
      | read ha => exact .inr (.inl ⟨_, rfl⟩)
      | vanish hvanish =>
        cases hvanish
        exact .inr (.inr rfl)
    · dsimp only
      rw [Function.update_of_ne hu, Function.update_of_ne hu]
      exact .inl ⟨ht, id⟩

theorem read_step {next : Nat → HandlerProgram} (h : m.clientStep (.read tid) = some m')
    (ht : m.threads tid = .runs (.await next)) : ∃ v, m'.threads tid = .runs (next v) := by
  simp only [Machine.clientStep, ht] at h
  split at h
  · rename_i next' v rest hp _
    cases hp
    cases h
    exact ⟨v, Function.update_self ..⟩
  · cases h

/-- The calls that the request thread has left to make, after a step of the server. -/
theorem pending_step {s t : System} {b : Server.Action} {out : List Reply} (h : s.step b = some (t, out)) :
    (∃ r, b = .request r ∧ s.pending = []) ∨ (∃ c, b = .call ∧ s.pending = c :: t.pending ∧
      c.run s.server s.fs = some (t.server, t.fs, out)) ∨
    (b ≠ .call ∧ (∀ r, b ≠ .request r) ∧ t.pending = s.pending) := by
  cases b with
  | request r => exact .inl ⟨r, rfl, (System.step_request h).1⟩
  | call =>
    obtain ⟨c, calls, server, fs, hp, hrun, rfl⟩ := System.step_call h
    exact .inr (.inl ⟨c, rfl, hp, hrun⟩)
  | monitor =>
    refine .inr (.inr ⟨nofun, fun _ => nofun, ?_⟩)
    rcases System.step_monitor h with ⟨m, _, _, rfl, _⟩ | ⟨c, m, server, fs, _, _, rfl⟩
    · rfl
    · rfl
  | environment fs =>
    cases h
    exact .inr (.inr ⟨nofun, fun _ => nofun, rfl⟩)

end

section
variable {env : Server.Env} {engine : Server.CapioCLEngine} {fs : Server.FileSystem} {start : Machine}
  (r : Unending Machine.Step start) {n : Nat} {tid : Tid} {path : CString} {q : Request} {table : Table}
  {c : Server.Call}

/-- A request in the queue is taken in the end, as the server reads it. -/
theorem request_taken (hfair : r.Fair Machine.RequestsGoOn) (hq : q ∈ (r.state n).queue) :
    ∃ m, n ≤ m ∧ ∃ q', (r.label m).action = .server (.request q') ∧ q.received = some q' := by
  refine r.reaches hfair (fun m => q ∈ m.queue) _
    (fun m => toLex (m.queue.idxOf q, m.system.pending.length)) hq ?_
  intro m hm hq
  have hbusy : ¬ ((r.state m).queue = [] ∧ (r.state m).system.pending = []) := by
    rintro ⟨hnil, _⟩
    rw [hnil] at hq
    cases hq
  rcases step_cases (r.steps m) with ⟨b, queue, system, ha, hstep, hm', htaken⟩ | ⟨hclient, queued, hsystem, hqueue⟩
  · rw [hm']
    dsimp only
    rcases htaken with ⟨r', q', rfl, hqueue, hread⟩ | ⟨hquiet, rfl⟩
    · by_cases hne : r' = q
      · subst hne
        exact .inl ⟨q', ha, hread⟩
      · rw [hqueue] at hq ⊢
        rw [List.idxOf_cons_ne _ hne]
        have hlt := Server.System.toLex_lt (b := system.pending.length) (d := (r.state m).system.pending.length)
          (.inl (Nat.lt_succ_self (queue.idxOf q)))
        exact .inr ⟨(List.mem_cons.mp hq).resolve_left (Ne.symm hne), hlt.le, fun _ => hlt⟩
    · rcases pending_step hstep with ⟨r', hr', _⟩ | ⟨c, rfl, hpending, _⟩ | ⟨hcall, _, hpending⟩
      · exact absurd hr' (hquiet r')
      · rw [hpending, List.length_cons]
        have hlt := Server.System.toLex_lt (a := (r.state m).queue.idxOf q)
          (.inr ⟨rfl, Nat.lt_succ_self system.pending.length⟩)
        exact .inr ⟨hq, hlt.le, fun _ => hlt⟩
      · rw [hpending]
        refine .inr ⟨hq, le_rfl, ?_⟩
        rintro (⟨q', hq'⟩ | hcall' | hidle)
        · cases ha.symm.trans hq'
          exact absurd rfl (hquiet q')
        · cases ha.symm.trans hcall'
          exact absurd rfl hcall
        · exact absurd hidle hbusy
  · refine .inr ?_
    rw [hsystem, hqueue, List.idxOf_append_of_mem hq]
    refine ⟨List.mem_append_left _ hq, le_rfl, ?_⟩
    rintro (⟨q', hq'⟩ | hcall | hidle)
    · exact absurd hq' (hclient _)
    · exact absurd hcall (hclient _)
    · exact absurd hidle hbusy

/-- A question that is taken is answered, or the thread is about to be registered. -/
theorem taken_question (ha : (r.label n).action = .server (.request q)) (hown : sender q = tid)
    (hq : questionAt q = some (table, path)) : (r.state (n + 1)).answers tid ≠ [] ∨
      ∃ c ∈ (r.state (n + 1)).system.pending, table.Registers tid path c := by
  rcases step_cases (r.steps n) with ⟨b, queue, system, ha', hstep, hm', _⟩ | ⟨hclient, _⟩
  · cases ha.symm.trans ha'
    obtain ⟨_, calls, hd, rfl⟩ := System.step_request hstep
    rw [hm']
    exact (handle_question hd hown hq).imp_left deliver_ne_nil
  · exact absurd ha (hclient _)

/-- A registration that the request thread is about to make is made in the end. -/
theorem registration_made (hfair : r.Fair Machine.RequestsGoOn) (hc : c ∈ (r.state n).system.pending)
    (hreg : table.Registers tid path c) : ∃ m, n ≤ m ∧ table.Waits (r.state (m + 1)).system.server tid path := by
  refine r.reaches hfair (fun m => c ∈ m.system.pending)
    (fun m => table.Waits (r.state (m + 1)).system.server tid path) (fun m => m.system.pending.idxOf c) hc ?_
  intro m hm hc
  have hbusy : (r.state m).system.pending ≠ [] := List.ne_nil_of_mem hc
  rcases step_cases (r.steps m) with ⟨b, queue, system, ha, hstep, hm', _⟩ | ⟨hclient, _, hsystem, _⟩
  · rw [hm']
    dsimp only
    rcases pending_step hstep with ⟨_, _, hnil⟩ | ⟨d, rfl, hpending, hrun⟩ | ⟨hcall, hrequest, hpending⟩
    · exact absurd hnil hbusy
    · by_cases hd : d = c
      · subst hd
        exact .inl (registers_run hreg hrun)
      · rw [hpending] at hc ⊢
        rw [List.idxOf_cons_ne _ hd]
        exact .inr ⟨(List.mem_cons.mp hc).resolve_left (Ne.symm hd), Nat.le_succ _, fun _ => Nat.lt_succ_self _⟩
    · rw [hpending]
      refine .inr ⟨hc, le_rfl, ?_⟩
      rintro (⟨q, hq⟩ | hcall' | hidle)
      · cases ha.symm.trans hq
        exact absurd rfl (hrequest q)
      · cases ha.symm.trans hcall'
        exact absurd rfl hcall
      · exact absurd hidle.2 hbusy
  · rw [hsystem]
    refine .inr ⟨hc, le_rfl, ?_⟩
    rintro (⟨q, hq⟩ | hcall | hidle)
    · exact absurd hq (hclient _)
    · exact absurd hcall (hclient _)
    · exact absurd hidle.2 hbusy

/-- The server in a run of the node. -/
theorem server_stutters (n : Nat) : Stutters System.Step (r.state n).system
    (Machine.serverEvent (r.transition n)) (r.state (n + 1)).system := by
  rcases step_cases (r.steps n) with ⟨b, queue, system, ha, hstep, hm', _⟩ | ⟨hclient, _, hsystem, _⟩
  · rw [serverEvent_server (x := r.transition n) ha, hm']
    exact hstep
  · rw [serverEvent_client (x := r.transition n) hclient]
    exact hsystem

/-- A thread that the server keeps waiting is answered in the end, or dropped. -/
theorem registered_answered (hfair : r.Fair Machine.MonitorGoesOn) (hw : table.Waits (r.state n).system.server tid path)
    (hready : ∃ k, ∀ m, k ≤ m → table.Ready (r.state m).system tid path) :
    ∃ m, n ≤ m ∧ ((r.state (m + 1)).answers tid ≠ [] ∨ Machine.Drops tid (r.transition m)) := by
  let v : Server.System.Service start.system := r.view Machine.system Machine.serverEvent (server_stutters r)
  have hmonitors : v.Fair Server.System.Monitors := by
    intro m
    obtain ⟨k, hk, ha⟩ := hfair m
    exact ⟨k, hk, _, serverEvent_server ha, rfl⟩
  have hserver {m : Nat} {e : System.Event} (he : Machine.serverEvent (r.transition m) = some e) :
      (r.label m).action = .server e.action ∧ (r.label m).replies = e.replies := by
    by_cases ha : ∃ b, (r.label m).action = .server b
    · obtain ⟨b, ha⟩ := ha
      cases (serverEvent_server (x := r.transition m) ha).symm.trans he
      exact ⟨ha, rfl⟩
    · cases (serverEvent_client (x := r.transition m) (fun b hb => ha ⟨b, hb⟩)).symm.trans he
  have hanswered {m : Nat} (h : Server.System.Answers tid (v.transition m)) : (r.state (m + 1)).answers tid ≠ [] := by
    obtain ⟨e, he, hout⟩ := h
    obtain ⟨ha, hreplies⟩ := hserver he
    rcases step_cases (r.steps m) with ⟨b, _, _, _, _, hm', _⟩ | ⟨hclient, _⟩
    · rw [hm', hreplies]
      exact deliver_ne_nil hout
    · exact absurd ha (hclient _)
  have hdropped {m : Nat} (h : Server.System.Loses (Dropped tid) (v.transition m)) : Machine.Drops tid (r.transition m) := by
    obtain ⟨e, he, hdrop⟩ := h
    obtain ⟨ha, hreplies⟩ := hserver he
    refine ⟨_, ?_, hdrop⟩
    rw [Machine.served, show (r.transition m).label.action = _ from ha]
    dsimp only
    rw [show (r.transition m).label.replies = _ from hreplies]
    rfl
  cases table with
  | creation =>
    obtain ⟨m, hm, hone⟩ := Server.System.opener_answered v hmonitors hw hready
    exact ⟨m, hm, hone.imp hanswered hdropped⟩
  | data =>
    obtain ⟨m, hm, hone⟩ := Server.System.reader_answered v hmonitors hw hready
    exact ⟨m, hm, .inl (hanswered hone)⟩

/-- The thread is past the wait, with an answer, or it has been killed in it. -/
def Machine.Left (m : Machine) (tid : Tid) (next : Nat → HandlerProgram) : Prop :=
  (∃ v, m.threads tid = .runs (next v)) ∨ m.threads tid = .killed

theorem waits_until {next : Nat → HandlerProgram} (ht : (r.state n).threads tid = .runs (.await next)) {m : Nat} (hm : n ≤ m) :
    (∃ k, n ≤ k ∧ (r.state k).Left tid next) ∨ (r.state m).threads tid = .runs (.await next) := by
  induction m, hm using Nat.le_induction with
  | base => exact .inr ht
  | succ m hm ih =>
    rcases ih with hleft | hwaits
    · exact .inl hleft
    · rcases await_step (r.steps m) hwaits with ⟨hwaits', _⟩ | hleft
      · exact .inr hwaits'
      · exact .inl ⟨m + 1, by omega, hleft⟩

theorem answer_read {next : Nat → HandlerProgram} (hfair : r.Fair (Machine.ReaderGoesOn tid))
    (ht : (r.state n).threads tid = .runs (.await next)) (ha : (r.state n).answers tid ≠ []) :
    ∃ m, n ≤ m ∧ (r.state (m + 1)).Left tid next := by
  refine r.reaches hfair (fun m => m.threads tid = .runs (.await next) ∧ m.answers tid ≠ [])
    (fun m => (r.state (m + 1)).Left tid next) (fun _ => 0) ⟨ht, ha⟩ ?_
  rintro m hm ⟨ht, ha⟩
  by_cases hread : (r.label m).action = .read tid
  · have hstep : Machine.step (r.state m) (r.label m).action = some (r.state (m + 1), (r.label m).replies) := r.steps m
    rw [hread] at hstep
    obtain ⟨m', hstep, he⟩ := Option.map_eq_some_iff.mp hstep
    have hm' : m' = r.state (m + 1) := congrArg Prod.fst he
    rw [← hm']
    exact .inl (.inl (read_step hstep ht))
  · rcases await_step (r.steps m) ht with ⟨ht', hkeeps⟩ | hleft
    · refine .inr ⟨⟨ht', hkeeps ha⟩, le_rfl, ?_⟩
      rintro (hread' | hnone)
      · exact absurd hread' hread
      · change (r.state m).clientStep (.read tid) = none at hnone
        obtain ⟨v, rest, hv⟩ := List.exists_cons_of_ne_nil ha
        simp only [Machine.clientStep, ht, hv] at hnone
        cases hnone
    · exact .inl hleft

/-- In an orderly run without an end, the thread that has asked gets past the wait, where the parts of
the node go on and, from some time on, what the question is about is there. The monitor can drop an
opener. -/
theorem question_answered (r : Unending Machine.Step (Machine.boot env engine fs))
    (ho : ∀ n, Machine.Orderly (r.transition n)) {next : Nat → HandlerProgram} (hrequests : r.Fair Machine.RequestsGoOn)
    (hmonitor : r.Fair Machine.MonitorGoesOn) (hreader : r.Fair (Machine.ReaderGoesOn tid))
    (hown : sender q = tid) (hq : questionAt q = some (table, path)) (hqueue : q ∈ (r.state n).queue)
    (ht : (r.state n).threads tid = .runs (.await next))
    (hready : ∃ k, ∀ m, k ≤ m → table.Ready (r.state m).system tid path) :
    ∃ m, n ≤ m ∧ ((r.state m).Left tid next ∨ Machine.Drops tid (r.transition m)) := by
  have hleaves {k : Nat} (hk : n ≤ k) (ha : (r.state k).answers tid ≠ []) :
      ∃ m, n ≤ m ∧ ((r.state m).Left tid next ∨ Machine.Drops tid (r.transition m)) := by
    rcases waits_until r ht hk with ⟨m, hm, hleft⟩ | ht'
    · exact ⟨m, hm, .inl hleft⟩
    · obtain ⟨m, hm, hleft⟩ := answer_read r hreader ht' ha
      exact ⟨m + 1, by omega, .inl hleft⟩
  have hserved : Served env engine fs (r.upTo n) (r.state n) := by
    refine served_run (r.run_upTo n) fun x hx => ?_
    obtain ⟨k, _, rfl⟩ := List.mem_map.mp hx
    exact ho k
  obtain ⟨taken, htaken, q', ha, hread⟩ := request_taken r hrequests hqueue
  obtain rfl := Option.some.inj ((hserved.readBack q hqueue).symm.trans hread)
  rcases taken_question r ha hown hq with hanswered | ⟨c, hc, hreg⟩
  · exact hleaves (by omega) hanswered
  · obtain ⟨made, hmade, hw⟩ := registration_made r hrequests hc hreg
    obtain ⟨m, hm, hanswered | hdropped⟩ := registered_answered r hmonitor hw hready
    · exact hleaves (by omega) hanswered
    · exact ⟨m, by omega, .inr hdropped⟩

end

theorem not_reading {m : Machine} {tid : Tid} (h : (m.threads tid).asked = false) : m.clientStep (.read tid) = none := by
  simp only [Machine.clientStep]
  split
  · rename_i hp _
    rw [hp] at h
    cases h
  · rfl

/-- The node has nothing to do. -/
structure Idle (m : Machine) : Prop where
  creation : m.system.server.fileManager.threadAwaitingFileCreation = ∅
  data : m.system.server.fileManager.threadAwaitingData = ∅
  monitor : m.system.monitor = .start ∨ m.system.monitor = .creation [] ∨ m.system.monitor = .data []
  queue : m.queue = []
  pending : m.system.pending = []

theorem idle_goes {m : Machine} (h : Idle m) : ∃ monitor, Machine.Step m ⟨.server .monitor, []⟩
    ⟨{ m.system with monitor }, m.queue, m.threads, Machine.deliver m.answers []⟩ ∧
    Idle ⟨{ m.system with monitor }, m.queue, m.threads, Machine.deliver m.answers []⟩ := by
  have hquiet (monitor : Server.Monitor) (hstep : m.system.step .monitor = some ({ m.system with monitor }, [])) :
      Machine.Step m ⟨.server .monitor, []⟩
        ⟨{ m.system with monitor }, m.queue, m.threads, Machine.deliver m.answers []⟩ := by
    have htake : Machine.takeFrom m.queue .monitor = some m.queue := rfl
    change m.serverStep .monitor = _
    rw [Machine.serverStep, htake, hstep]
    rfl
  rcases h.monitor with hm | hm | hm
  · refine ⟨.creation [], hquiet _ ?_, h.creation, h.data, .inr (.inl rfl), h.queue, h.pending⟩
    simp only [System.step, System.monitorStep, hm, h.creation]
    rfl
  · refine ⟨.data [], hquiet _ ?_, h.creation, h.data, .inr (.inr rfl), h.queue, h.pending⟩
    simp only [System.step, System.monitorStep, hm, h.data]
    rfl
  · refine ⟨.start, hquiet _ ?_, h.creation, h.data, .inl rfl, h.queue, h.pending⟩
    simp only [System.step, System.monitorStep, hm]

def withFile : Server.FileSystem := ⟨fun p => if p = "/c/f".toList then some (.file []) else none⟩

/-- A thread asks for a file that nobody has made. -/
def openerAsks : List Action :=
  [.init 1 none 8, .server (.request (.handshakeAnonymous 1 1)), .server .call,
    .call 1 ⟨"/c".toList, "/c".toList⟩ emptyKernel DescriptorTables.initFilesystem
      (.descriptor (.openFile "/c/f".toList 0 3)), .send 1]

/-- The question is taken and registered, the file is made, the monitor answers. -/
def openerServed : List Action :=
  [.server (.request (.openFile 1 (-1) "/c/f".toList)), .server .call, .server (.environment withFile)] ++
    List.replicate 6 (.server .monitor) ++ [.read 1]

/-- The thread is in the wait for an answer. -/
def ThreadState.waits : ThreadState → Bool
  | runs (.await _) => true
  | _ => false

theorem waits_await {state : ThreadState} (h : state.waits = true) : ∃ next, state = .runs (.await next) := by
  unfold ThreadState.waits at h
  split at h
  · exact ⟨_, rfl⟩
  · cases h

theorem openerServed_goes_on : ∃ r : Unending Machine.Step (Machine.boot ⟨"/c".toList, none⟩ ⟨∅⟩ ⟨fun _ => none⟩),
    (∀ n, Machine.Orderly (r.transition n)) ∧ r.Fair Machine.RequestsGoOn ∧ r.Fair Machine.MonitorGoesOn ∧
    r.Fair (Machine.ReaderGoesOn 1) ∧
    (∃ n next, .openFile 1 (-1) "/c/f".toList ∈ (r.state n).queue ∧ (r.state n).threads 1 = .runs (.await next)) ∧
    ∃ k, ∀ m, k ≤ m → Table.creation.Ready (r.state m).system 1 "/c/f".toList := by
  obtain ⟨ts, u, hrun, _, hu⟩ := execute_any Machine.step (Machine.boot ⟨"/c".toList, none⟩ ⟨∅⟩ ⟨fun _ => none⟩)
    (openerAsks ++ openerServed)
    (fun ts u => u.system.server.fileManager.threadAwaitingFileCreation.entries.isEmpty &&
      u.system.server.fileManager.threadAwaitingData.entries.isEmpty && u.queue.isEmpty && u.system.pending.isEmpty &&
      decide (u.system.monitor = .start) && !(u.threads 1).asked && u.system.fs.fileExists "/c/f".toList &&
      decide (∀ x ∈ ts, Machine.Orderly x) && ts.any fun x : Transition Machine Machine.Event =>
        decide (.openFile 1 (-1) "/c/f".toList ∈ x.source.queue) && (x.source.threads 1).waits)
    (by decide)
  simp only [Bool.and_eq_true, List.isEmpty_iff, decide_eq_true_eq, Bool.not_eq_true', List.any_eq_true] at hu
  obtain ⟨⟨⟨⟨⟨⟨⟨⟨hcreation, hdata⟩, hqueue⟩, hpending⟩, hmonitor⟩, hread⟩, hfile⟩, horderly⟩, x, hx, hasked, hwaits⟩ := hu
  have hidle : Idle u := ⟨AList.ext hcreation, AList.ext hdata, .inl hmonitor, hqueue, hpending⟩
  have hgoes (m : Machine) (hi : Idle m ∧ m.threads = u.threads ∧ m.system.fs = u.system.fs) :
      ∃ (e : Machine.Event) (m' : Machine), e.action = .server .monitor ∧ Machine.Step m e m' ∧
        Idle m' ∧ m'.threads = u.threads ∧ m'.system.fs = u.system.fs := by
    obtain ⟨monitor, hstep, hi'⟩ := idle_goes hi.1
    exact ⟨_, _, rfl, hstep, hi', hi.2⟩
  obtain ⟨tail, htail⟩ := Unending.exists_of _ _ hgoes ⟨hidle, rfl, rfl⟩
  obtain ⟨r, hr, hfirst⟩ := tail.exists_after hrun
  have hlater (n : Nat) : r.state (n + ts.length) = tail.state n := congrArg Transition.source (hr n)
  obtain ⟨next, hnext⟩ := waits_await hwaits
  rw [← hfirst] at hx
  obtain ⟨k, _, rfl⟩ := List.mem_map.mp hx
  refine ⟨r, r.forall_after hfirst horderly fun n => ?_, r.fair_of_later (k := ts.length) fun n => ?_,
    r.fair_of_later (k := ts.length) fun n => ?_, r.fair_of_later (k := ts.length) fun n => ?_, ⟨k, next, hasked, hnext⟩, ts.length, fun m hm => ?_⟩
  · rw [hr]
    have hmonitors : (tail.transition n).label.action = .server .monitor := (htail n).2
    refine ⟨by rw [hmonitors]; rfl, fun q hq => ?_⟩
    have hnil : (tail.transition n).target.queue = [] := (htail (n + 1)).1.1.queue
    rw [hnil] at hq
    cases hq
  · rw [hr]
    exact .inr (.inr ⟨(htail n).1.1.queue, (htail n).1.1.pending⟩)
  · rw [hr]
    exact (htail n).2
  · rw [hr]
    refine .inr (not_reading ?_)
    change ((tail.state n).threads 1).asked = false
    rw [(htail n).1.2.1]
    exact hread
  · obtain ⟨n, rfl⟩ := Nat.exists_eq_add_of_le' hm
    rw [hlater]
    dsimp only [Table.Ready]
    rw [(htail n).1.2.2]
    exact hfile

theorem question_answered_openerServed :
    ∃ (r : Unending Machine.Step (Machine.boot ⟨"/c".toList, none⟩ ⟨∅⟩ ⟨fun _ => none⟩)) (n m : Nat)
      (next : Nat → HandlerProgram), n ≤ m ∧ (r.state n).threads 1 = .runs (.await next) ∧
      ((r.state m).Left 1 next ∨ Machine.Drops 1 (r.transition m)) := by
  obtain ⟨r, horderly, hrequests, hmonitor, hreader, ⟨n, next, hqueue, ht⟩, hready⟩ := openerServed_goes_on
  obtain ⟨m, hm, hleft⟩ := question_answered r horderly hrequests hmonitor hreader rfl rfl hqueue ht hready
  exact ⟨r, n, m, next, hm, ht, hleft⟩

end Capio.Node
