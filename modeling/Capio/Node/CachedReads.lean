import Capio.Node.Answers

/-! What a thread knows from its read cache, and the reads that it makes without a question. -/
namespace Capio.Node
open Library Posix
open Server (System Tid Reply sender)
open Server.System (requests)

/-- The facts that somebody has been told: a size, or the mark of a committed file. -/
abbrev Facts := CString → Nat → Prop

/-- The value is 0, or a fact of the file, which may be spelled in another way. -/
def Backed (F : Facts) (path : CString) (v : Nat) : Prop := v = 0 ∨ ∃ q, StdPath.same q path = true ∧ F q v

/-- The cache of a thread that was told these facts. What it keeps under the empty path belongs to other
files. -/
structure Knows (F : Facts) (c : ReadRequestCache) : Prop where
  stored : ∀ path, path ≠ [] → Backed F path (c.known path)
  current : c.currentPath ≠ [] → Backed F c.currentPath c.maxRead

/-- An answer to a `READ` is a fact of its file. -/
def Worth (F : Facts) (r : Request) (v : Nat) : Prop := ∀ path u fd endOfRead, r = .read path u fd endOfRead → F path v

/-- What a call leaves knows no more than it was told. -/
def Informed (F : Facts) (r : Return) : Prop := ∀ th, r.thread = some th → Knows F th.readCache

abbrev Trusted (F : Facts) (last : Option Request) (p : HandlerProgram) : Prop := p.Trusts Worth Informed F last

section
variable {F G : Facts} {c : ReadRequestCache} {path : CString} {v : Nat} {call : ReadCall}

theorem same_refl (path : CString) : StdPath.same path path = true := (same_iff path path).mpr rfl

theorem Backed.mono (h : Backed F path v) (hle : F ≤ G) : Backed G path v :=
  h.imp_right fun ⟨q, hq, hv⟩ => ⟨q, hq, hle q v hv⟩

theorem Backed.respell {q : CString} (h : Backed F path v) (hq : StdPath.same path q = true) : Backed F q v := by
  refine h.imp_right fun ⟨p, hp, hv⟩ => ⟨p, ?_, hv⟩
  rw [same_iff] at hp hq ⊢
  exact hp.trans hq

theorem Knows.mono (h : Knows F c) (hle : F ≤ G) : Knows G c :=
  ⟨fun path hpath => (h.stored path hpath).mono hle, fun hpath => (h.current hpath).mono hle⟩

theorem Informed.mono {r : Return} (h : Informed F r) (hle : F ≤ G) : Informed G r :=
  fun th hth => (h th hth).mono hle

theorem knows_start : Knows F .start := ⟨fun _ _ => .inl rfl, fun _ => .inl rfl⟩

theorem nil_of_same {q : CString} (h : StdPath.same q [] = true) : q = [] :=
  (StdPath.components_eq_nil_iff q).mp ((same_iff q []).mp h)

theorem knows_takeUp (hi : Knows F c) (path : CString) (fd : Int) : Knows F (c.takeUp path fd) := by
  obtain ⟨hpath, _, hmax, hknown⟩ := c.takeUp_spec path fd
  refine ⟨fun q hq => ?_, fun hne => ?_⟩
  · rw [hknown]
    exact hi.stored q hq
  · rw [hpath] at hne ⊢
    rw [hmax]
    exact hi.stored path hne

/-- The answer is stored under `path`, which is empty or names the file that was asked for. -/
theorem knows_ask (hi : Knows F c) (hpath : path ≠ [] → StdPath.same c.currentPath path = true)
    (htold : ∀ m, (c.ask path call).2 = some m → F m.path call.reply) : Knows F (c.ask path call).1 := by
  obtain ⟨hcurrent, _, hsent, hmax, hknown⟩ := c.ask_spec path call
  have hfact (hasks : c.Asks call) : F c.currentPath call.reply := by
    obtain ⟨m, hm⟩ := Option.isSome_iff_exists.mp (hsent.mpr hasks)
    have hmessage : m.path = c.currentPath := by
      unfold ReadRequestCache.ask at hm
      rw [if_neg hasks.1, if_pos hasks.2] at hm
      cases hm
      rfl
    rw [← hmessage]
    exact htold m hm
  constructor
  · intro q hq
    rw [hknown]
    split_ifs with hstored
    · obtain ⟨hasks, rfl⟩ := hstored
      exact .inr ⟨_, hpath hq, hfact hasks⟩
    · exact hi.stored q hq
  · intro hne
    rw [hcurrent] at hne ⊢
    rw [hmax]
    split_ifs with hasks
    · exact .inr ⟨_, same_refl _, hfact hasks⟩
    · exact hi.current hne

theorem knows_readRequest (hi : Knows F c) (htold : ∀ m, (c.readRequest call).2 = some m → F m.path call.reply) :
    Knows F (c.readRequest call).1 := by
  unfold ReadRequestCache.readRequest at htold ⊢
  cases hswitch : c.switches call.path call.fd with
  | true =>
    simp only [hswitch, if_true] at htold ⊢
    exact knows_ask (knows_takeUp hi call.path call.fd) (fun hne => absurd rfl hne) htold
  | false =>
    simp only [hswitch, Bool.false_eq_true, if_false] at htold ⊢
    refine knows_ask hi (fun _ => ?_) htold
    have hsame : call.fd = c.currentFd ∧ StdPath.same call.path c.currentPath = true := by
      simpa [ReadRequestCache.switches] using hswitch
    rw [same_iff] at hsame ⊢
    exact hsame.2.symm

/-- A read without a question stays within what the thread was told of the file. -/
theorem within_of_silent (hi : Knows F c) (hpath : call.path ≠ []) (hsilent : (c.readRequest call).2 = none) :
    ∃ v, Backed F call.path v ∧ (v = ullongMax ∨ capioOff64 call.endOfRead ≤ v) := by
  have hask {c : ReadRequestCache} {p : CString} (hnone : (c.ask p call).2 = none) :
      c.maxRead = ullongMax ∨ capioOff64 call.endOfRead ≤ c.maxRead := by
    have hasks : ¬ c.Asks call := by
      rw [← (c.ask_spec p call).2.2.1, hnone]
      exact Bool.false_ne_true
    unfold ReadRequestCache.Asks at hasks
    omega
  unfold ReadRequestCache.readRequest at hsilent
  cases hswitch : c.switches call.path call.fd with
  | true =>
    rw [if_pos hswitch] at hsilent
    obtain ⟨_, _, hmax, _⟩ := c.takeUp_spec call.path call.fd
    refine ⟨c.known call.path, hi.stored _ hpath, ?_⟩
    rw [← hmax]
    exact hask hsilent
  | false =>
    rw [if_neg (by rw [hswitch]; exact Bool.false_ne_true)] at hsilent
    have hsame : call.fd = c.currentFd ∧ StdPath.same call.path c.currentPath = true := by
      simpa [ReadRequestCache.switches] using hswitch
    refine ⟨c.maxRead, ?_, hask hsilent⟩
    have hcurrent : c.currentPath ≠ [] := fun hnil => hpath (nil_of_same (hnil ▸ hsame.2))
    refine (hi.current hcurrent).respell ?_
    rw [same_iff] at hsame ⊢
    exact hsame.2.symm

/-- Whether a read asks does not depend on the answer. -/
theorem readRequest_message (c : ReadRequestCache) (call : ReadCall) (reply : Nat) :
    (c.readRequest { call with reply }).2 = (c.readRequest call).2 := by
  have hask (c : ReadRequestCache) (p : CString) : (c.ask p { call with reply }).2 = (c.ask p call).2 := by
    unfold ReadRequestCache.ask
    split_ifs <;> rfl
  unfold ReadRequestCache.readRequest
  dsimp only
  split_ifs
  · exact hask _ _
  · exact hask _ _

end

/-- What follows the part of a handler relies on no more than the thread knows. -/
def Goes (F : Facts) (k : ClientThread → HandlerProgram) : Prop :=
  ∀ G th last, F ≤ G → Knows G th.readCache → Trusted G last (k th)

section
variable {F G : Facts} {th : ClientThread} {k : ClientThread → HandlerProgram} {t : DescriptorTables} {last : Option Request}

theorem Goes.mono (h : Goes F k) (hle : F ≤ G) : Goes G k := fun G' th last hle' => h G' th last (hle.trans hle')

theorem trusted_throws : Trusted F last (ClientThread.throws t) := by
  intro th hth
  cases hth

theorem goes_done (t : DescriptorTables) (result : Option Int) : Goes F fun th => .done ⟨some th, t, result⟩ := by
  intro G th last _ hi th' hth
  cases hth
  exact hi

theorem goes_await (hk : Goes F k) (hi : Knows F th.readCache) (r : Request) : Trusted F (some r) (.await fun _ => k th) :=
  fun G _ hle _ => hk G th none hle (hi.mono hle)

theorem trusted_sendWrites {sent : WriteRequestCache × List SentMessage}
    (hk : ∀ last, Trusted F last (k { th with writeCache := sent.1 })) : Trusted F last (th.sendWrites k sent) :=
  Program.trusts_sendAll hk

/-- The message of an `OPEN` is the last one that goes out before its answer is read. -/
theorem trusted_announce {u : Int} {r : Request} (hk : ∀ c, Trusted F (some r) (k { th with writeCache := c })) :
    Trusted F last (th.sendWrites k (th.writeCache.announce u r)) := by
  unfold ClientThread.sendWrites WriteRequestCache.announce
  dsimp only
  rw [List.map_append, List.map_singleton, Program.sendAll_snoc]
  exact Program.trusts_sendAll fun _ => hk _

theorem trusted_request (hk : Goes F k) (hi : Knows F th.readCache) (r : Request) : Trusted F last (th.request k r) := by
  have hnext (last : Option Request) : Trusted F last (k th) := hk F th last le_rfl hi
  cases r with
  | consent u path sourceFunc => exact goes_await hk hi _
  | close u path => exact trusted_announce fun c => hk F { th with writeCache := c } _ le_rfl hi
  | openFile u fd path =>
    have hsent (c : WriteRequestCache) : Trusted F (some (.openFile u fd path)) (.await fun _ => k { th with writeCache := c }) :=
      fun G _ hle _ => hk G { th with writeCache := c } none hle (hi.mono hle)
    exact trusted_announce (k := fun th => .await fun _ => k th) hsent
  | exitGroup u => exact trusted_announce fun c => hk F { th with writeCache := c } _ le_rfl hi
  | _ => exact hnext _

theorem goes_requests (hk : Goes F k) (rs : List Request) : Goes F (ClientThread.requests k rs) := by
  induction rs with
  | nil => exact hk
  | cons r rs ih => exact fun G th last hle hi => trusted_request (ih.mono hle) hi r

theorem trusted_outcome (hi : Knows F th.readCache) (o : Option Outcome) : Trusted F last (th.outcome t o) := by
  cases o with
  | none => exact trusted_throws
  | some o => exact goes_requests (goes_done o.tables o.result) o.sent F th last le_rfl hi

theorem trusted_read (hk : Goes F k) (hi : Knows F th.readCache) (path : CString) (endOfRead tid fd : Int) :
    Trusted F last (th.cacheRequest k (.read path endOfRead tid fd)) := by
  have hmessage (reply : Nat) := readRequest_message th.readCache ⟨path, endOfRead, tid, fd, 0⟩ reply
  unfold ClientThread.cacheRequest
  dsimp only at hmessage ⊢
  split
  · rename_i hnone
    refine hk F _ last le_rfl (knows_readRequest hi fun m hm => ?_)
    rw [hnone] at hm
    cases hm
  · rename_i m hm
    intro G v hle hworth
    refine hk G _ none hle (knows_readRequest (hi.mono hle) fun m' hm' => ?_)
    rw [hmessage, hm] at hm'
    obtain rfl := Option.some.inj hm'
    exact hworth _ _ _ _ rfl

theorem trusted_offsetOutcome (hi : Knows F th.readCache) (o : Option OffsetOutcome) :
    Trusted F last (th.offsetOutcome t o) := by
  match o with
  | none => exact trusted_throws
  | some (t, none) => exact goes_done t none F th last le_rfl hi
  | some (t, some (.read path endOfRead tid fd)) => exact trusted_read (goes_done t none) hi path endOfRead tid fd
  | some (t, some (.write path tid fd count)) =>
    exact trusted_sendWrites (k := fun th => .done ⟨some th, t, none⟩) fun last => goes_done t none F _ last le_rfl hi

theorem trusted_exitHandler (tid : Int) : Trusted F last (th.exitHandler t tid) := by
  have hends (th : ClientThread) (last : Option Request) : Trusted F last (th.deleteCaches t tid) :=
    trusted_sendWrites fun _ => trusted_throws
  unfold ClientThread.exitHandler
  split_ifs
  · exact trusted_announce (k := fun th => th.deleteCaches t tid) fun c => hends _ _
  · exact hends th last

/-- Whatever the call and the tables, what a thread knows after it was told to it. -/
theorem calls_trust (env : ClientEnv) (view : KernelView) (t : DescriptorTables) (tid : Int) (hi : Knows F th.readCache)
    (call : TableCall) : Trusted F last (call.run env view t tid th) := by
  have hreturns (result : Option Int) : Trusted F last (.done ⟨some th, t, result⟩) :=
    goes_done t result F th last le_rfl hi
  have houtcome (o : Option Outcome) : Trusted F last (th.outcome t o) := trusted_outcome hi o
  cases call with
  | descriptor call =>
    cases call with
    | close fd =>
      dsimp only [TableCall.run]
      split
      · unfold ClientThread.closeThrows
        split
        · exact trusted_throws
        · exact trusted_request (fun _ _ _ _ _ => trusted_throws) hi _
      · exact houtcome _
    | _ => exact houtcome _
  | read | readv | write | writev | lseek => exact trusted_offsetOutcome hi _
  | fork pid => exact hreturns _
  | execve => exact hreturns _
  | exit => exact trusted_exitHandler tid
  | chdir pathname => exact houtcome (some ⟨t, (chdirHandler env view tid pathname).2, none⟩)
  | rmdir pathname => exact houtcome (rmdirHandler t pathname)
  | getcwd => exact houtcome (getcwdHandler t)
  | notImplemented => exact houtcome (notImplementedHandler t)
  | notHandled => exact houtcome (notHandledHandler t)
  | _ => exact houtcome _

end

/-- The server has been asked for this spelling of a file. -/
def AskedFor (ts : System.Trace) (path : CString) : Prop := ∃ u fd endOfRead, .read path u fd endOfRead ∈ requests ts

/-- What the server told in a run. -/
def told (ts : System.Trace) : Facts := fun path v => AskedFor ts path ∧ ∃ x ∈ ts, Tells x.source path v

/-- All the requests that were sent, oldest first. -/
def said (ts : System.Trace) (m : Machine) : List Request := requests ts ++ m.queue

/-- Each thread relies on what the server told, and each answer is one to the question that the thread
waits with. -/
structure Grounded (ts : System.Trace) (m : Machine) : Prop where
  filed : Filed (requests ts) m.system
  trusts : ∀ tid p, m.threads tid = .runs p → ∃ last, Trusted (told ts) last p ∧
    ∀ next, p = .await next → last = lastQuestion tid (said ts m)
  answers : ∀ tid, ∀ v ∈ m.answers tid, ∀ r, lastQuestion tid (said ts m) = some r → Worth (told ts) r v

section
variable {env : Server.Env} {engine : Server.CapioCLEngine} {fs : Server.FileSystem} {ts : Machine.Trace}
  {m m' : Machine} {e : Machine.Event} {tid : Tid}

theorem told_mono (ts : System.Trace) (x : Transition System System.Event) : told ts ≤ told (ts ++ [x]) := by
  rintro path v ⟨⟨u, fd, endOfRead, hasked⟩, y, hy, htells⟩
  refine ⟨⟨u, fd, endOfRead, ?_⟩, y, List.mem_append_left _ hy, htells⟩
  rw [System.requests_snoc]
  split
  · exact List.mem_append_left _ hasked
  · exact List.mem_append_left _ hasked

theorem Worth.mono {F G : Facts} {r : Request} {v : Nat} (h : Worth F r v) (hle : F ≤ G) : Worth G r v :=
  fun path u fd endOfRead hr => hle path v (h path u fd endOfRead hr)

theorem knows_returned {ts : System.Trace} {th : ClientThread} (hi : Grounded ts m)
    (hth : (m.threads tid).returned = some th) : Knows (told ts) th.readCache := by
  cases hstate : m.threads tid with
  | runs p =>
    rw [hstate] at hth
    cases p with
    | done r =>
      obtain ⟨_, htrusts, _⟩ := hi.trusts tid _ hstate
      exact htrusts th hth
    | _ => cases hth
  | _ =>
    rw [hstate] at hth
    cases hth

/-- Who has nothing asked has no answer to read. -/
theorem no_answer {ts : System.Trace} (hi : Keeping ts m tid) (h : (m.threads tid).asked = false) : m.answers tid = [] := by
  obtain ⟨c, hstands, hok⟩ := hi
  exact (hok.others ((asked_of_stands hstands).trans h)).answers

theorem lastQuestion_other {rs queued : List Request} (h : ∀ r ∈ queued, sender r ≠ tid) :
    lastQuestion tid (rs ++ queued) = lastQuestion tid rs := by
  refine lastQuestion_append ?_
  rw [List.filter_eq_nil_iff]
  intro r hr hasks
  exact h r hr (of_decide_eq_true hasks).2

theorem grounded_client {ts : System.Trace} {a : Action} (hi : Grounded ts m) (hkeep : ∀ u, Keeping ts m u)
    (hclean : Machine.startsClean m.threads a = true) (h : m.clientStep a = some m') : Grounded ts m' := by
  obtain ⟨u, state, queued, answers, hmove, rfl⟩ := clientStep_moves h
  obtain ⟨c, hstands, hok⟩ := hkeep u
  obtain ⟨hown, _⟩ := moves_ok hmove hstands hok rfl rfl hclean
  have hnothing := no_answer (hkeep u)
  have hothers {tid : Tid} (ht : tid ≠ u) : lastQuestion tid (requests ts ++ (m.queue ++ queued)) = lastQuestion tid (said ts m) := by
    rw [← List.append_assoc]
    exact lastQuestion_other fun r hr hr' => ht (hr'.symm.trans (hown r hr))
  generalize hbefore : m.threads u = before at hmove hstands hnothing
  refine ⟨hi.filed, fun tid p hp => ?_, fun tid v hv r hr => ?_⟩
  · dsimp only [said] at hp ⊢
    by_cases ht : tid = u
    · subst ht
      rw [Function.update_self] at hp
      cases hmove with
      | @join _ th _ _ _ hcache _ _ =>
        cases hp
        refine ⟨none, fun th' hth' => ?_, fun _ hnext => by cases hnext⟩
        cases hth'
        rcases hcache with hstart | ⟨parent, th', hth', hsame⟩
        · rw [hstart]
          exact knows_start
        · rw [hsame]
          exact knows_returned hi hth'
      | call hth env view t call =>
        cases hp
        have htrusts : Trusted _ none (call.run env view t tid _) :=
          calls_trust env view t tid (knows_returned hi (hbefore ▸ hth)) call
        refine ⟨none, htrusts, fun next hnext => ?_⟩
        rw [hnext] at htrusts
        exact htrusts.elim
      | @send r next =>
        cases hp
        obtain ⟨_, htrusts, _⟩ := hi.trusts tid _ hbefore
        refine ⟨some r, htrusts, fun next' hnext => ?_⟩
        subst hnext
        have hasks : Machine.asks tid r = true := by
          cases c with
          | free =>
            obtain ⟨hsender, _, hwaits⟩ := hstands
            cases hk : kind r with
            | asks => exact decide_eq_true ⟨hk, hsender⟩
            | _ =>
              rw [hk] at hwaits
              cases hwaits
          | _ => cases hstands
        rw [← List.append_assoc, lastQuestion_snoc, if_pos hasks]
      | @read next v rest hrest =>
        cases hp
        obtain ⟨last, htrusts, hlast⟩ := hi.trusts tid _ hbefore
        cases last with
        | none => exact htrusts.elim
        | some r =>
          have hv : v ∈ m.answers tid := hrest ▸ List.mem_cons_self
          have hafter := htrusts _ v le_rfl (hi.answers tid v hv r (hlast next rfl).symm)
          refine ⟨none, hafter, fun next' hnext => ?_⟩
          rw [hnext] at hafter
          exact hafter.elim
      | vanish hvanish =>
        subst hp
        cases before with
        | runs p => cases p <;> cases hvanish
        | _ => cases hvanish
    · rw [Function.update_of_ne ht] at hp
      rw [hothers ht]
      exact hi.trusts tid p hp
  · dsimp only [said] at hv hr
    by_cases ht : tid = u
    · subst ht
      rw [Function.update_self] at hv
      cases hmove with
      | join hout hstarts =>
        have hquiet : before.asked = false := by
          rcases hout with hfree | hreturned
          · obtain ⟨hnew, _⟩ := hstarts hclean
            cases before with
            | gone => rfl
            | runs p => cases hfree
            | killed | left => cases hnew
          · cases before with
            | runs p => cases p <;> first | rfl | cases hreturned
            | _ => cases hreturned
        rw [hnothing hquiet] at hv
        cases hv
      | send =>
        rw [hnothing rfl] at hv
        cases hv
      | call | vanish =>
        rw [List.append_nil] at hr
        exact hi.answers tid v hv r hr
      | read hrest =>
        rw [List.append_nil] at hr
        exact hi.answers tid v (hrest ▸ List.mem_cons_of_mem _ hv) r hr
    · rw [Function.update_of_ne ht] at hv
      rw [hothers ht] at hr
      exact hi.answers tid v hv r hr

theorem grounded_server {b : Server.Action} {replies : List Reply} (hi : Grounded (Machine.serverTrace ts) m)
    (hserved : Served env engine fs ts m) (h : m.serverStep b = some (m', replies)) :
    Grounded (Machine.serverTrace ts ++ [⟨m.system, ⟨b, replies⟩, m'.system⟩]) m' := by
  have hkeep := server_keeping hserved.keeping hserved.readBack (System.tracked_run hserved.ran hserved.disciplined) hserved.creationOnce h
  obtain ⟨queue, system, hstep, rfl, htaken⟩ := serverStep_cases h
  replace htaken := taken_sent hserved.readBack htaken
  have hserver : System.Step m.system ⟨b, replies⟩ system := hstep
  have hmono := told_mono (Machine.serverTrace ts) ⟨m.system, ⟨b, replies⟩, system⟩
  dsimp only at hkeep ⊢
  have hsaid : requests (Machine.serverTrace ts ++ [⟨m.system, ⟨b, replies⟩, system⟩]) ++ queue =
      said (Machine.serverTrace ts) m := by
    unfold said
    rcases htaken with ⟨r, rfl, hq⟩ | ⟨hquiet, rfl⟩
    · rw [System.requests_snoc, hq, List.append_assoc]
      rfl
    · rw [requests_quiet hquiet]
  refine ⟨?_, fun tid p hp => ?_, fun tid v hv r hr => ?_⟩
  · exact filed_step hi.filed (System.tracked_run hserved.ran hserved.disciplined) (maySend_taken hserved.keeping htaken) hserver
  · obtain ⟨last, htrusts, hlast⟩ := hi.trusts tid p hp
    dsimp only [said]
    rw [hsaid]
    exact ⟨last, htrusts.mono (fun hle hinformed => Informed.mono hinformed hle) hmono, hlast⟩
  · dsimp only [said] at hv hr
    rw [hsaid] at hr
    rcases List.mem_append.mp hv with hold | hnew
    · exact (hi.answers tid v hold r hr).mono hmono
    · obtain ⟨reply, hreply, rfl⟩ := List.mem_map.mp hnew
      obtain ⟨hmem, htid⟩ := List.mem_filter.mp hreply
      obtain rfl := of_decide_eq_true htid
      obtain ⟨q, hq, htells⟩ := answers_question hi.filed hserver hmem
      -- the questions that are still in the queue are not of this thread
      obtain ⟨c, _, hok⟩ := hkeep reply.tid
      have hqueued := (hok.one_answer (List.ne_nil_of_mem hv)).2.1
      have hnone : queue.filter (Machine.asks reply.tid) = [] := by
        have hquestions := questions_eq (Machine.serverTrace ts) { m with system, queue, answers := m.answers } c reply.tid
        have hlane : queue.filter (fun r => sender r = reply.tid) = [] := hqueued
        dsimp only [lane] at hquestions
        rw [hquestions, hlane]
        rfl
      rw [← hsaid, lastQuestion_append hnone, hq] at hr
      obtain rfl := Option.some.inj hr
      intro path u fd endOfRead hread
      have hasked : q ∈ requests (Machine.serverTrace ts ++ [⟨m.system, ⟨b, replies⟩, system⟩]) :=
        (List.mem_filter.mp (List.mem_of_getLast? hq)).1
      exact ⟨⟨u, fd, endOfRead, hread ▸ hasked⟩, _, List.mem_append_right _ (List.mem_singleton.mpr rfl),
        htells path u fd endOfRead hread⟩

theorem grounded_boot : Grounded [] (Machine.boot env engine fs) := by
  refine ⟨fun tid path table hw => ?_, fun tid p hp => ?_, fun tid v hv => ?_⟩
  · rcases hw with hw | ⟨c, hc, _⟩
    · cases table with
      | creation => cases hw
      | data => cases hw
    · cases hc
  · cases hp
  · cases hv

theorem grounded_run (h : Run Machine.Step (Machine.boot env engine fs) ts m) (ho : ∀ x ∈ ts, Machine.Orderly x) :
    Grounded (Machine.serverTrace ts) m := by
  refine h.history_of Machine.Orderly (fun ts m => Grounded (Machine.serverTrace ts) m) grounded_boot ?_ ho
  rintro ts m ⟨a, replies⟩ m' hrun horderly hi hstep hclean
  rw [serverTrace_snoc]
  cases a with
  | server b => exact grounded_server hi (served_run hrun horderly) hstep
  | _ =>
    obtain ⟨m'', hclient, he⟩ := Option.map_eq_some_iff.mp hstep
    cases he
    dsimp only
    rw [List.append_nil]
    exact grounded_client hi (served_run hrun horderly).keeping hclean.starts hclient

end

/-- The descriptor and the bytes that the handler of a reading call counts. -/
def readsFrom : TableCall → Option (Int × Int)
  | .read fd count => some (fd, count)
  | .readv fd iovcnt => some (fd, iovcnt * 16)
  | _ => none

/-- The file is not made smaller. -/
def Grows (path : CString) (x : Transition Machine Machine.Event) : Prop :=
  ∀ size, Server.getFileSizeIfExists x.source.system.fs path = some size →
    ∃ size', Server.getFileSizeIfExists x.target.system.fs path = some size' ∧ size ≤ size'

section
variable {env : Server.Env} {engine : Server.CapioCLEngine} {fs : Server.FileSystem} {ts : Machine.Trace}
  {m m' : Machine} {tid : Tid} {path : CString}

theorem capioOff64_toLong (n : Int) : capioOff64 (toLong (capioOff64 n)) = capioOff64 n := by
  have hemod : (capioOff64 n : Int) = n % 0x10000000000000000 := by
    unfold capioOff64
    omega
  have hbmod : toLong (capioOff64 n) % 0x10000000000000000 = (capioOff64 n : Int) % 0x10000000000000000 := Int.bmod_emod
  rw [hemod, Int.emod_emod] at hbmod
  rw [capioOff64, hemod, hbmod]
  rfl

/-- A size of the file that was seen in a run is still there, where the file only grows. -/
theorem still_there (h : Run Machine.Step (Machine.boot env engine fs) ts m) (hgrows : ∀ x ∈ ts, Grows path x)
    {x : Transition System System.Event} (hx : x ∈ Machine.serverTrace ts) {size : Nat}
    (hsize : Server.getFileSizeIfExists x.source.fs path = some size) :
    ∃ size', Server.getFileSizeIfExists m.system.fs path = some size' ∧ size ≤ size' := by
  obtain ⟨y, hy, hserved⟩ := List.mem_filterMap.mp hx
  have hsource : x.source = y.source.system := by
    unfold Machine.served at hserved
    split at hserved
    · cases hserved
      rfl
    · cases hserved
  obtain ⟨pre, post, rfl, _, hstep, hpost⟩ := h.source_reached hy
  refine (Run.cons hstep hpost).persists
    (fun m : Machine => ∃ size', Server.getFileSizeIfExists m.system.fs path = some size' ∧ size ≤ size')
    ⟨size, hsource ▸ hsize, le_rfl⟩ fun z hz ⟨size', hsize', hle⟩ => ?_
  obtain ⟨size'', hsize'', hle'⟩ := hgrows z (List.mem_append_right pre hz) size' hsize'
  exact ⟨size'', hsize'', hle.trans hle'⟩

theorem read_run (view : KernelView) (cenv : ClientEnv) (t : DescriptorTables) (th : ClientThread) {call : TableCall}
    {fd bytes : Int} {offset : Nat} (hcall : readsFrom call = some (fd, bytes)) (hpath : t.getCapioFdPath fd = some path)
    (hoffset : t.getCapioFdOffset fd = some offset) :
    ∃ t', call.run cenv view t tid th =
      th.cacheRequest (fun th => .done ⟨some th, t', none⟩) (.read path (toLong (capioOff64 (offset + bytes))) tid fd) := by
  obtain ⟨file, hfile, hcell⟩ := Option.bind_eq_some_iff.mp hoffset
  have hexists : t.existsCapioFd fd = true :=
    DescriptorTables.existsCapioFd_iff.mpr (AList.lookup_isSome.mp (Option.isSome_iff_exists.mpr ⟨file, hfile⟩))
  have hrun : readUpTo t tid fd bytes = some ({ t with offsets := t.offsets.set file.offsetCell (capioOff64 (offset + bytes)) },
      some (.read path (toLong (capioOff64 (offset + bytes))) tid fd)) := by
    unfold readUpTo
    rw [if_pos hexists, hoffset]
    simp [hpath, DescriptorTables.setCapioFdOffset, hfile]
  refine ⟨{ t with offsets := t.offsets.set file.offsetCell (capioOff64 (offset + bytes)) }, ?_⟩
  cases call with
  | read fd' count =>
    cases hcall
    dsimp only [TableCall.run]
    rw [readHandler, hrun]
    rfl
  | readv fd' iovcnt =>
    cases hcall
    dsimp only [TableCall.run]
    rw [readvHandler, hrun]
    rfl
  | _ => cases hcall

/-- In every orderly run of a node in which nobody makes the file smaller and the server handles the spellings
of it that it is asked for, a read that its thread makes without a question stays within the file, or the file
was committed or a directory when the server told so. -/
theorem silent_read_covered (h : Run Machine.Step (Machine.boot env engine fs) ts m) (ho : ∀ x ∈ ts, Machine.Orderly x)
    (hgrows : ∀ q, StdPath.same q path = true → ∀ x ∈ ts, Grows q x)
    (hhandled : ∀ q, StdPath.same q path = true → AskedFor (Machine.serverTrace ts) q →
      Server.CapioCLEngine.fileToBeHandled env q = true)
    {view : KernelView} {cenv : ClientEnv} {t : DescriptorTables} {call : TableCall} {fd bytes : Int} {offset : Nat}
    (hcall : readsFrom call = some (fd, bytes)) (hpath : t.getCapioFdPath fd = some path) (hnamed : path ≠ [])
    (hoffset : t.getCapioFdOffset fd = some offset) (hstep : m.clientStep (.call tid cenv view t call) = some m')
    (hsilent : (m'.threads tid).returned.isSome) :
    capioOff64 (offset + bytes) = 0 ∨
    ∃ q, StdPath.same q path = true ∧ AskedFor (Machine.serverTrace ts) q ∧
      ((∃ x ∈ Machine.serverTrace ts, x.source.server.isCommitted x.source.fs q = some true ∨
          x.source.fs.isDirectory q = true) ∨
        ∃ size, Server.getFileSizeIfExists m.system.fs q = some size ∧ capioOff64 (offset + bytes) ≤ size) := by
  simp only [Machine.clientStep] at hstep
  obtain ⟨th, hth, hstep⟩ := Option.bind_eq_some_iff.mp hstep
  cases hstep
  obtain ⟨t', hrun⟩ := read_run view cenv t th hcall hpath hoffset
  dsimp only [Machine.setThread] at hsilent
  rw [Function.update_self, hrun] at hsilent
  have hnone : (th.readCache.readRequest ⟨path, toLong (capioOff64 (offset + bytes)), tid, fd, 0⟩).2 = none := by
    unfold ClientThread.cacheRequest at hsilent
    dsimp only at hsilent
    split at hsilent
    · assumption
    · cases hsilent
  obtain ⟨v, hbacked, hwithin⟩ := within_of_silent (knows_returned (grounded_run h ho) hth) hnamed hnone
  dsimp only at hwithin
  rw [capioOff64_toLong] at hwithin
  have hbound : capioOff64 (offset + bytes) ≤ ullongMax := by
    unfold capioOff64 ullongMax
    omega
  rcases hbacked with rfl | ⟨q, hq, hasked, x, hx, htells⟩
  · refine .inl ?_
    rcases hwithin with hmax | hle
    · cases hmax
    · omega
  · refine .inr ⟨q, hq, hasked, ?_⟩
    obtain ⟨pre, post, _, hpre, _⟩ := (served_run h ho).ran.source_reached hx
    have henv : x.source.server.fileToBeHandled q = true := by
      rw [Server.CapioServer.fileToBeHandled, System.env_run hpre]
      exact hhandled q hq hasked
    rcases htells henv with ⟨_, htrue⟩ | hsize
    · exact .inl ⟨x, hx, htrue⟩
    · obtain ⟨size, hnow, hle⟩ := still_there h (hgrows q hq) hx hsize
      refine .inr ⟨size, hnow, le_trans ?_ hle⟩
      rcases hwithin with rfl | hle
      · exact hbound
      · exact hle

end

/-- A step that writes no file. -/
def keepsFiles (x : Transition Machine Machine.Event) : Bool :=
  match x.label.action with
  | .server (.environment _) => false
  | .server b => (x.source.system.callOf b).all fun c => !c.touchesFiles
  | _ => true

theorem grows_of_keepsFiles {m m' : Machine} {e : Machine.Event} (h : Machine.Step m e m') (hkeeps : keepsFiles ⟨m, e, m'⟩ = true)
    (path : CString) : Grows path ⟨m, e, m'⟩ := by
  suffices hfs : m'.system.fs = m.system.fs by
    intro size hsize
    exact ⟨size, hfs ▸ hsize, le_rfl⟩
  rcases step_cases h with ⟨b, queue, system, ha, hstep, rfl, _⟩ | ⟨_, _, hsame, _⟩
  · rcases System.step_cases hstep with ⟨c, hc, hrun⟩ | ⟨_, _, ⟨_, ⟨_, hsame⟩ | henv⟩ | ⟨_, _, hsame, _⟩⟩
    · refine (Server.Call.run_frame hrun).files ?_
      cases b <;> simp_all [keepsFiles]
    · exact hsame
    · simp [keepsFiles, ha, henv] at hkeeps
    · exact hsame
  · rw [hsame]

def oneFile : Server.FileSystem := ⟨fun p => if p = "/c/f".toList then some (.file (List.replicate 10 'x')) else none⟩

def opened (offset : Nat) : DescriptorTables :=
  (DescriptorTables.initFilesystem.addCapioFd "/c/f".toList 3 offset false).getD DescriptorTables.initFilesystem

/-- A thread reads four of ten bytes. -/
def readsFour : List Action :=
  [.init 1 none 8, .server (.request (.handshakeAnonymous 1 1)), .server .call,
    .call 1 ⟨"/c".toList, "/c".toList⟩ emptyKernel (opened 0) (.read 3 4), .send 1,
    .server (.request (.read "/c/f".toList 1 3 4)), .read 1]

/-- The next four bytes are read without a question. -/
theorem silent_read_covered_readsFour : ∃ ts m m',
    Run Machine.Step (Machine.boot ⟨"/c".toList, none⟩ ⟨∅⟩ oneFile) ts m ∧
    m.clientStep (.call 1 ⟨"/c".toList, "/c".toList⟩ emptyKernel (opened 4) (.read 3 4)) = some m' ∧
    (capioOff64 (4 + 4) = 0 ∨ ∃ q, StdPath.same q "/c/f".toList = true ∧ AskedFor (Machine.serverTrace ts) q ∧
      ((∃ x ∈ Machine.serverTrace ts, x.source.server.isCommitted x.source.fs q = some true ∨
          x.source.fs.isDirectory q = true) ∨
        ∃ size, Server.getFileSizeIfExists m.system.fs q = some size ∧ capioOff64 (4 + 4) ≤ size)) := by
  obtain ⟨ts, m, hrun, _, hreads⟩ := execute_any Machine.step (Machine.boot ⟨"/c".toList, none⟩ ⟨∅⟩ oneFile) readsFour
    (fun ts m => ts.all keepsFiles && decide (∀ x ∈ ts, Machine.Orderly x) &&
      decide (requests (Machine.serverTrace ts) = [.handshakeAnonymous 1 1, .read "/c/f".toList 1 3 4]) &&
      (m.clientStep (.call 1 ⟨"/c".toList, "/c".toList⟩ emptyKernel (opened 4) (.read 3 4))).any
        fun m' => (m'.threads 1).returned.isSome)
    (by decide)
  simp only [Bool.and_eq_true, decide_eq_true_eq, List.all_eq_true, Option.any_eq_true] at hreads
  obtain ⟨⟨⟨hkeeps, horderly⟩, hrequests⟩, m', hstep, hsilent⟩ := hreads
  have hpath : (opened 4).getCapioFdPath 3 = some "/c/f".toList := by decide
  have hoffset : (opened 4).getCapioFdOffset 3 = some 4 := by decide
  refine ⟨ts, m, m', hrun, hstep, silent_read_covered hrun horderly (fun q _ x hx => ?_) ?_ rfl hpath (by decide) hoffset
    hstep hsilent⟩
  · obtain ⟨_, _, _, _, hx', _⟩ := hrun.source_reached hx
    exact grows_of_keepsFiles hx' (hkeeps x hx) q
  · rintro q - ⟨u, fd, endOfRead, hasked⟩
    rw [hrequests] at hasked
    simp only [List.mem_cons, reduceCtorEq, Request.read.injEq, List.not_mem_nil, or_false, false_or] at hasked
    obtain ⟨rfl, _⟩ := hasked
    decide

end Capio.Node
