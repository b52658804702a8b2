import Capio.Server.WaitingTables

/-! The client tables over whole runs: what they hold is told by the handshakes
and exits served so far, whatever calls and scans ran between them. -/
namespace Capio.Server
open Library

namespace ClientManager

/-- What a call does to the client tables. -/
def afterCall (cm : ClientManager) : Call → ClientManager
  | .registerNewClient tid appName => cm.registerNewClient tid appName
  | .removeClient tid => cm.removeClient tid
  | _ => cm

/-- What all the calls of a request do to the client tables. -/
def afterRequest (cm : ClientManager) : Request → ClientManager
  | .handshakeNamed tid _ appName => cm.registerNewClient tid appName
  | .handshakeAnonymous tid _ => cm.registerNewClient tid capioDefaultAppName
  | .exitGroup tid => cm.removeClient tid
  | _ => cm

end ClientManager

/-- What a request says about the identity of a thread: a name, or that it ends. -/
def announces (tid : Tid) : Request → Option (Option CString)
  | .handshakeNamed t _ appName => if t = tid then some (some appName) else none
  | .handshakeAnonymous t _ => if t = tid then some (some capioDefaultAppName) else none
  | .exitGroup t => if t = tid then some none else none
  | _ => none

/-- The latest that a sequence of requests says about a thread. -/
def latest (tid : Tid) (rs : List Request) : Option (Option CString) :=
  (rs.filterMap (announces tid)).getLast?

/-- The names a thread gave in its handshakes, oldest first. -/
def namesGiven (tid : Tid) (rs : List Request) : List CString :=
  rs.filterMap (fun r => (announces tid r).join)

theorem latest_snoc (tid : Tid) (rs : List Request) (r : Request) :
    latest tid (rs ++ [r]) = (announces tid r).or (latest tid rs) := by
  unfold latest
  rw [List.filterMap_append]
  cases ha : announces tid r with
  | none => simp [ha]
  | some a => simp [ha]

private theorem namesGiven_snoc (tid : Tid) (rs : List Request) (r : Request) :
    namesGiven tid (rs ++ [r]) = namesGiven tid rs ++ (announces tid r).join.toList := by
  unfold namesGiven
  rw [List.filterMap_append]
  cases ha : (announces tid r).join with
  | none => simp [ha]
  | some a => simp [ha]

/-- The client tables once a sequence of requests is served. -/
def clientsOf (rs : List Request) : ClientManager := rs.foldl ClientManager.afterRequest .initial

variable {server server' : CapioServer} {fs fs' : FileSystem} {c : Call} {out : List Reply}
  {calls : List Call} {tid : Tid} {rs : List Request}

private theorem clientsOf_snoc (rs : List Request) (r : Request) :
    clientsOf (rs ++ [r]) = (clientsOf rs).afterRequest r := by
  rw [clientsOf, List.foldl_append]
  rfl

/-- The application table keeps the first name a thread ever gave. -/
theorem getAppName_clientsOf (tid : Tid) (rs : List Request) :
    (clientsOf rs).getAppName tid = (namesGiven tid rs).head? := by
  have hregister (cm : ClientManager) (u : Tid) (appName : CString) :
      (cm.registerNewClient u appName).getAppName tid =
        (cm.getAppName tid).or (if u = tid then some appName else none) := by
    unfold ClientManager.getAppName ClientManager.registerNewClient
    rw [UnorderedMap.lookup_emplace]
    by_cases hu : tid = u
    · subst hu
      cases cm.appNames.lookup tid <;> simp
    · simp [hu, Ne.symm hu]
  induction rs using List.reverseRecOn with
  | nil => rfl
  | append_singleton rs r ih =>
    rw [clientsOf_snoc, namesGiven_snoc, List.head?_append, ← ih]
    cases r with
    | handshakeNamed u pid appName =>
      rw [ClientManager.afterRequest, hregister, announces]
      split_ifs <;> rfl
    | handshakeAnonymous u pid =>
      rw [ClientManager.afterRequest, hregister, announces]
      split_ifs <;> rfl
    | exitGroup u =>
      have hnone : (announces tid (.exitGroup u)).join = none := by
        rw [announces]
        split_ifs <;> rfl
      rw [hnone]
      exact (Option.or_none).symm
    | _ => exact (Option.or_none).symm

/-- The other two tables hold the threads whose latest request of this kind is a
handshake. -/
theorem registered_clientsOf (tid : Tid) (rs : List Request) :
    (tid ∈ (clientsOf rs).bufsResponse ↔ ∃ appName, latest tid rs = some (some appName)) ∧
    (tid ∈ (clientsOf rs).filesToBeCommittedByTid ↔ ∃ appName, latest tid rs = some (some appName)) := by
  induction rs using List.reverseRecOn with
  | nil => exact ⟨by simp [clientsOf, ClientManager.initial, latest],
      by simp [clientsOf, ClientManager.initial, latest]⟩
  | append_singleton rs r ih =>
    rw [clientsOf_snoc, latest_snoc]
    cases r with
    | handshakeNamed u pid appName | handshakeAnonymous u pid =>
      simp only [ClientManager.afterRequest, ClientManager.registerNewClient, UnorderedMap.mem_emplace,
        announces, ih.1, ih.2]
      by_cases hu : u = tid
      · simp [hu]
      · simp [hu, Ne.symm hu]
    | exitGroup u =>
      simp only [ClientManager.afterRequest, ClientManager.removeClient, AList.mem_erase, announces, ih.1,
        ih.2]
      by_cases hu : u = tid
      · simp [hu]
      · simp [hu, Ne.symm hu]
    | _ => exact ih

theorem Call.run_clients (h : c.run server fs = some (server', fs', out)) :
    server'.clientManager = server.clientManager.afterCall c := by
  cases c with
  | registerNewClient u appName | removeClient u =>
    cases h
    rfl
  | _ => exact (Call.run_frame h).clients rfl

private theorem afterCall_of_frame {cm : ClientManager} (h : ∀ c ∈ calls, c.touchesClients = false) :
    calls.foldl ClientManager.afterCall cm = cm := by
  induction calls with
  | nil => rfl
  | cons c calls ih =>
    rw [List.forall_mem_cons] at h
    have hc : cm.afterCall c = cm := by
      cases c <;> first | rfl | cases h.1
    rw [List.foldl_cons, hc]
    exact ih h.2

private theorem setCommitted_frame {file : CString} (h : c ∈ setCommitted file) : c.touchesClients = false := by
  simp only [setCommitted, List.mem_cons, List.not_mem_nil, or_false] at h
  rcases h with rfl | rfl | rfl <;> rfl

/-- The calls a handler leaves, taken together. -/
theorem handle_clients {r : Request} (h : handle server fs r = some (calls, out)) (cm : ClientManager) :
    calls.foldl ClientManager.afterCall cm = cm.afterRequest r := by
  cases r with
  | handshakeNamed u pid appName | handshakeAnonymous u pid =>
    cases h
    rfl
  | exitGroup u =>
    obtain ⟨files, _, _, rfl⟩ := exitHandler_spec u h
    have hfiles : ∀ c ∈ files.flatMap setCommitted, c.touchesClients = false := by
      intro c hc
      obtain ⟨file, _, hfile⟩ := List.mem_flatMap.mp hc
      exact setCommitted_frame hfile
    rw [List.foldl_append, afterCall_of_frame hfiles]
    rfl
  | _ =>
    apply afterCall_of_frame
    intro c hc
    have hm := handle_mayCall h c hc
    cases c <;> first | rfl | simp [mayCall, setCommitted] at hm

namespace System

variable {s t : System} {ts : Trace} {e : Event} {env : Env} {engine : CapioCLEngine}

/-- The requests of a run, in the order in which they were served. -/
def requests (ts : Trace) : List Request :=
  ts.filterMap fun x => match x.label.action with
    | .request r => some r
    | _ => none

/-- The client tables once the calls still to be made have run. -/
def clientsAfter (s : System) : ClientManager :=
  s.pending.foldl ClientManager.afterCall s.server.clientManager

/-- Only requests change what the client tables come to. -/
theorem clientsAfter_step (h : Step s e t) : clientsAfter t = match e.action with
    | .request r => (clientsAfter s).afterRequest r
    | _ => clientsAfter s := by
  obtain ⟨action, replies⟩ := e
  cases action with
  | request r =>
    obtain ⟨hp, calls, hd, rfl⟩ := step_request h
    unfold clientsAfter
    rw [hp]
    exact handle_clients hd _
  | call =>
    obtain ⟨c, calls, server, fs, hp, hrun, rfl⟩ := step_call h
    unfold clientsAfter
    rw [hp, List.foldl_cons, Call.run_clients hrun]
  | monitor =>
    rcases step_monitor h with ⟨m, _, _, rfl, _⟩ | ⟨c, m, server, fs, hc, hrun, rfl⟩
    · rfl
    · unfold clientsAfter
      rw [(Call.run_frame hrun).clients (monitorCall_frame hc).1]
  | environment fs =>
    cases h
    rfl

theorem requests_snoc (ts : Trace) (s t : System) (e : Event) :
    requests (ts ++ [⟨s, e, t⟩]) = requests ts ++ match e.action with
      | .request r => [r]
      | _ => [] := by
  unfold requests
  rw [List.filterMap_append]
  cases ha : e.action <;> simp [ha]

/-- The client tables follow the requests served so far. -/
theorem clientsAfter_run (h : Run Step (boot env engine fs) ts s) :
    clientsAfter s = clientsOf (requests ts) := by
  induction h with
  | nil => rfl
  | @snoc ts t e u _ hstep ih =>
    rw [clientsAfter_step hstep, requests_snoc]
    cases e.action with
    | request r => rw [ih, clientsOf_snoc]
    | _ => rw [ih, List.append_nil]

/-- An exit is served for connected threads only. -/
theorem exit_connected (h : Run Step (boot env engine fs) ts s) {pre post : List Request}
    (hr : requests ts = pre ++ .exitGroup tid :: post) : ∃ appName, latest tid pre = some (some appName) := by
  induction h generalizing post with
  | nil => simp [requests] at hr
  | @snoc ts t e u hrun hstep ih =>
    rw [requests_snoc] at hr
    rcases List.eq_nil_or_concat post with rfl | ⟨post, last, rfl⟩
    · obtain ⟨action, replies⟩ := e
      cases action with
      | request r =>
        obtain ⟨rfl, hlast⟩ := List.append_inj' hr rfl
        obtain rfl := List.singleton_inj.mp hlast
        obtain ⟨hp, calls, hd, _⟩ := step_request hstep
        obtain ⟨files, hf, _⟩ := exitHandler_spec tid hd
        have hclients := clientsAfter_run hrun
        rw [clientsAfter, hp] at hclients
        have hmem : tid ∈ t.server.clientManager.filesToBeCommittedByTid :=
          AList.lookup_isSome.mp (by rw [ClientManager.getProducedFiles] at hf; rw [hf]; rfl)
        exact (registered_clientsOf tid _).2.mp (hclients ▸ hmem)
      | _ =>
        rw [List.append_nil] at hr
        exact ih hr
    · rw [List.concat_eq_append] at hr
      cases ha : e.action with
      | request r =>
        simp only [ha] at hr
        rw [← List.cons_append, ← List.append_assoc] at hr
        exact ih (List.append_inj' hr rfl).1
      | _ =>
        simp only [ha, List.append_nil] at hr
        exact ih hr

/-- Every request was served to its end before the next one. -/
theorem served_prefix (h : Run Step (boot env engine fs) ts s) {rs : List Request}
    (hrs : rs <+: requests ts) (hlast : rs = requests ts → s.pending = []) :
    ∃ pre post t, ts = pre ++ post ∧ Run Step (boot env engine fs) pre t ∧ t.pending = [] ∧
      requests pre = rs := by
  induction h with
  | nil =>
    obtain rfl := List.prefix_nil.mp hrs
    exact ⟨[], [], _, rfl, .nil, rfl, rfl⟩
  | @snoc ts t e u hrun hstep ih =>
    by_cases hall : rs = requests (ts ++ [⟨t, e, u⟩])
    · exact ⟨_, [], u, (List.append_nil _).symm, hrun.snoc hstep, hlast hall, hall.symm⟩
    · obtain ⟨action, replies⟩ := e
      have hbefore : rs <+: requests ts ∧ (rs = requests ts → t.pending = []) := by
        rw [requests_snoc] at hrs hall
        cases action with
        | request r =>
          rcases List.prefix_concat_iff.mp hrs with heq | hpre
          · exact absurd heq hall
          · exact ⟨hpre, fun _ => (step_request hstep).1⟩
        | _ =>
          rw [List.append_nil] at hrs hall
          exact ⟨hrs, fun he => absurd he hall⟩
      obtain ⟨pre, post, v, rfl, hpre, hv, hreq⟩ := ih hbefore.1 hbefore.2
      exact ⟨pre, post ++ [⟨t, ⟨action, replies⟩, u⟩], v, by rw [List.append_assoc], hpre, hv, hreq⟩

/-- Every thread is known under the name of its latest handshake, and forgotten
after its exit. -/
def FollowsRequests (cm : ClientManager) (rs : List Request) : Prop :=
  ∀ tid, match latest tid rs with
    | some (some appName) => cm.getAppName tid = some appName
    | some none => tid ∉ cm.bufsResponse ∧ tid ∉ cm.appNames ∧ tid ∉ cm.filesToBeCommittedByTid
    | none => True

/-- No thread exits, and none gives two names. -/
structure OneIdentity (rs : List Request) : Prop where
  stays : ∀ tid, .exitGroup tid ∉ rs
  name : ∀ tid, ∀ appName ∈ namesGiven tid rs, ∀ other ∈ namesGiven tid rs, appName = other

theorem announces_of_latest {a : Option CString} (h : latest tid rs = some a) :
    ∃ r ∈ rs, announces tid r = some a :=
  List.mem_filterMap.mp (List.mem_of_getLast? h)

theorem mem_namesGiven {appName : CString} :
    appName ∈ namesGiven tid rs ↔ ∃ r ∈ rs, announces tid r = some (some appName) := by
  rw [namesGiven, List.mem_filterMap]
  simp only [Option.join_eq_some_iff]

private theorem exit_of_announces {r : Request} (h : announces tid r = some none) : r = .exitGroup tid := by
  cases r with
  | exitGroup u =>
    rw [announces] at h
    split_ifs at h with hu
    rw [hu]
  | handshakeNamed u pid appName | handshakeAnonymous u pid =>
    rw [announces] at h
    split_ifs at h
    cases h
  | _ => cases h

private theorem follows_clientsOf (hone : OneIdentity rs) {pre : List Request} (hpre : pre <+: rs) :
    FollowsRequests (clientsOf pre) pre := by
  intro tid
  cases hl : latest tid pre with
  | none => trivial
  | some a =>
    obtain ⟨r, hr, ha⟩ := announces_of_latest hl
    cases a with
    | none =>
      obtain rfl := exit_of_announces ha
      exact absurd (hpre.subset hr) (hone.stays tid)
    | some appName =>
      have hmem : appName ∈ namesGiven tid pre := mem_namesGiven.mpr ⟨r, hr, ha⟩
      dsimp only
      rw [getAppName_clientsOf]
      have hsub : namesGiven tid pre ⊆ namesGiven tid rs := (hpre.filterMap _).subset
      cases hnames : namesGiven tid pre with
      | nil =>
        rw [hnames] at hmem
        cases hmem
      | cons first names =>
        have hfirst : first ∈ namesGiven tid pre := by simp [hnames]
        rw [List.head?_cons, hone.name tid first (hsub hfirst) appName (hsub hmem)]

private theorem oneIdentity_of_follows
    (hexit : ∀ tid pre post, rs = pre ++ .exitGroup tid :: post →
      ∃ appName, latest tid pre = some (some appName))
    (hall : ∀ pre, pre <+: rs → FollowsRequests (clientsOf pre) pre) : OneIdentity rs where
  stays := by
    intro tid hm
    obtain ⟨pre, post, rfl⟩ := List.append_of_mem hm
    obtain ⟨appName, hl⟩ := hexit tid pre post rfl
    obtain ⟨r, hr, ha⟩ := announces_of_latest hl
    have hgone := hall (pre ++ [.exitGroup tid]) ⟨post, by simp⟩ tid
    have hlast : latest tid (pre ++ [.exitGroup tid]) = some none := by
      rw [latest_snoc, announces, if_pos rfl]
      rfl
    rw [hlast] at hgone
    have hnone := AList.lookup_eq_none.mpr hgone.2.1
    change (clientsOf _).getAppName tid = none at hnone
    rw [getAppName_clientsOf, List.head?_eq_none_iff] at hnone
    have hmem : appName ∈ namesGiven tid (pre ++ [.exitGroup tid]) :=
      mem_namesGiven.mpr ⟨r, List.mem_append_left _ hr, ha⟩
    rw [hnone] at hmem
    cases hmem
  name := by
    have hfirst (tid : Tid) (appName : CString) (hm : appName ∈ namesGiven tid rs) :
        (namesGiven tid rs).head? = some appName := by
      obtain ⟨r, hr, ha⟩ := mem_namesGiven.mp hm
      obtain ⟨pre, post, rfl⟩ := List.append_of_mem hr
      have hpre : pre ++ [r] <+: pre ++ r :: post := ⟨post, by simp⟩
      have hname := hall _ hpre tid
      rw [latest_snoc, ha, Option.some_or] at hname
      dsimp only at hname
      rw [getAppName_clientsOf] at hname
      obtain ⟨rest, hrest⟩ : namesGiven tid (pre ++ [r]) <+: namesGiven tid (pre ++ r :: post) :=
        hpre.filterMap _
      rw [← hrest, List.head?_append, hname, Option.some_or]
    intro tid appName hm other ho
    exact Option.some.inj ((hfirst tid appName hm).symm.trans (hfirst tid other ho))

/-- Names and tables follow the handshakes and exits at every point between two
requests, exactly in the runs where no thread exits or changes its name. -/
theorem identity_follows_latest_handshake_iff (h : Run Step (boot env engine fs) ts s)
    (hserved : s.pending = []) :
    (∀ pre post t, ts = pre ++ post → Run Step (boot env engine fs) pre t → t.pending = [] →
      FollowsRequests t.server.clientManager (requests pre)) ↔ OneIdentity (requests ts) := by
  have htables {pre : Trace} {t : System} (hrun : Run Step (boot env engine fs) pre t)
      (hp : t.pending = []) : t.server.clientManager = clientsOf (requests pre) := by
    have hafter := clientsAfter_run hrun
    rwa [clientsAfter, hp] at hafter
  constructor
  · intro hall
    refine oneIdentity_of_follows (fun tid pre post hr => exit_connected h hr) ?_
    intro rs hrs
    obtain ⟨pre, post, t, hts, hrun, hp, rfl⟩ := served_prefix h hrs (fun _ => hserved)
    rw [← htables hrun hp]
    exact hall pre post t hts hrun hp
  · rintro hone pre post t rfl hrun hp
    rw [htables hrun hp]
    refine follows_clientsOf hone ?_
    exact (List.prefix_append pre post).filterMap _

/-- A thread handshakes twice for one application, with an `execve` in between. -/
def sameProgram : List Action :=
  [.request (.handshakeNamed 7 7 "writer".toList), .call, .request (.handshakeNamed 7 7 "writer".toList), .call]

theorem identity_follows_latest_handshake_sameProgram : ∃ ts s, Run Step emptyWorkflow ts s ∧
    requests ts = [.handshakeNamed 7 7 "writer".toList, .handshakeNamed 7 7 "writer".toList] ∧
    FollowsRequests s.server.clientManager (requests ts) := by
  obtain ⟨ts, s, hrun, _, hp⟩ := execute_any step emptyWorkflow sameProgram (fun ts s => s.pending == [] &&
    requests ts == [.handshakeNamed 7 7 "writer".toList, .handshakeNamed 7 7 "writer".toList]) (by decide)
  rw [Bool.and_eq_true, beq_iff_eq, beq_iff_eq] at hp
  obtain ⟨hserved, hreq⟩ := hp
  have hone : OneIdentity (requests ts) := by
    rw [hreq]
    refine ⟨by simp, ?_⟩
    intro tid appName hm other ho
    simp only [namesGiven, announces, List.mem_filterMap, List.mem_cons, List.not_mem_nil, or_false, or_self,
      exists_eq_left, Option.join_eq_some_iff] at hm ho
    split_ifs at hm ho
    cases hm
    cases ho
    rfl
  have hall := (identity_follows_latest_handshake_iff hrun hserved).mpr hone
  exact ⟨ts, s, hrun, hreq, hall ts [] s (List.append_nil ts).symm hrun hserved⟩

/-- A thread id is reused by another application. -/
def reusedThread : List Action :=
  [.request (.handshakeNamed 7 7 "writer".toList), .call, .request (.exitGroup 7), .call,
    .request (.handshakeNamed 7 7 "reader".toList), .call]

/-- The thread that exited stays known, and the next one inherits its name. -/
theorem reused_thread_keeps_name : ¬ ∀ ts s, Run Step emptyWorkflow ts s → s.pending = [] →
    FollowsRequests s.server.clientManager (requests ts) := by
  intro hall
  obtain ⟨ts, s, hrun, _, hp⟩ := execute_any step emptyWorkflow reusedThread (fun ts s => s.pending == [] &&
    latest 7 (requests ts) == some (some "reader".toList) &&
    s.server.clientManager.getAppName 7 == some "writer".toList) (by decide)
  simp only [Bool.and_eq_true, beq_iff_eq] at hp
  obtain ⟨⟨hserved, hlast⟩, hname⟩ := hp
  have hfollows := hall ts s hrun hserved 7
  rw [hlast] at hfollows
  rw [hfollows] at hname
  exact absurd hname (by decide)

end System
end Capio.Server
