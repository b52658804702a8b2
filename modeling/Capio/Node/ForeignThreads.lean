import Capio.Node.Questions
import Capio.Posix.ForeignCalls

/-! Processes beside CAPIO: what the library does for the calls of their threads, and what the
server has of them. -/
namespace Capio.Node
open Library Posix
open Server (System Tid Reply sender)
open Server.System (Awaiting replied blocks)

/-- What a thread sends that has nothing to do with CAPIO. -/
def Harmless (handled : CString → Bool) (tid : Int) (r : Request) : Prop :=
  sender r = tid ∧ (kind r = .joins ∨ kind r = .leaves ∨ AsksForeign handled tid r)

/-- The tables are as they were, and the thread has written nothing. -/
def LeavesIdle (t : DescriptorTables) (Passes : Option Int → Prop) (c : Control) (r : Return) : Prop :=
  r.tables = t ∧ ∀ th, r.thread = some th → c = .free ∧ th.writeCache.currentSize ≤ 0 ∧ Passes r.result

def Idles (handled : CString → Bool) (tid : Int) (t : DescriptorTables) (Passes : Option Int → Prop) (c : Control)
    (p : HandlerProgram) : Prop :=
  p.Conforms kind (Harmless handled tid) (LeavesIdle t Passes) c

section
variable {handled : CString → Bool} {tid : Int} {th : ClientThread} {t : DescriptorTables} {env : ClientEnv}
  {view : KernelView} {Passes : Option Int → Prop}

theorem idles_done {result : Option Int} (hidle : th.writeCache.currentSize ≤ 0) (h : Passes result) :
    Idles handled tid t Passes .free (.done ⟨some th, t, result⟩) := by
  refine ⟨rfl, fun th' hth => ?_⟩
  cases hth
  exact ⟨rfl, hidle, h⟩

theorem idles_throws (c : Control) (hc : c = .free ∨ c = .leaving) :
    Idles handled tid t Passes c (ClientThread.throws t) := by
  rcases hc with rfl | rfl <;> exact ⟨rfl, fun th hth => by cases hth⟩

theorem idles_outcome {o : Option Outcome} (hidle : th.writeCache.currentSize ≤ 0) (ho : LeavesAlone handled tid t Passes o) :
    Idles handled tid t Passes .free (th.outcome t o) := by
  obtain ⟨sent, result, rfl, hsent, hresult⟩ := ho
  change Idles handled tid t Passes .free (ClientThread.requests (fun th => .done ⟨some th, t, result⟩) sent th)
  induction sent with
  | nil => exact idles_done hidle hresult
  | cons r rs ih =>
    obtain ⟨⟨path, sourceFunc, rfl, hp⟩, hrs⟩ := List.forall_mem_cons.mp hsent
    exact ⟨⟨rfl, .inr (.inr ⟨path, sourceFunc, rfl, hp⟩)⟩, Kind.noConfusion, fun _ => ih hrs⟩

/-- A cache without bytes has nothing to flush. -/
theorem flush_idle (hidle : th.writeCache.currentSize ≤ 0) (u : Int) :
    (th.writeCache.flush u).2 = [] ∧ (th.writeCache.flush u).1.currentSize ≤ 0 := by
  unfold WriteRequestCache.flush
  exact ⟨if_neg fun hsent => absurd hsent.2 (not_lt.mpr hidle), le_rfl⟩

theorem idles_deleteCaches {c : Control} (hidle : th.writeCache.currentSize ≤ 0) (hc : c = .free ∨ c = .leaving) :
    Idles handled tid t Passes c (th.deleteCaches t tid) := by
  unfold ClientThread.deleteCaches ClientThread.sendWrites
  rw [(flush_idle hidle _).1]
  exact idles_throws c hc

theorem idles_exitHandler (hidle : th.writeCache.currentSize ≤ 0) :
    Idles handled tid t Passes .free (th.exitHandler t tid) := by
  obtain ⟨hnothing, hstill⟩ := flush_idle hidle (Posix.toInt tid)
  unfold ClientThread.exitHandler
  split_ifs
  · unfold ClientThread.request ClientThread.sendWrites WriteRequestCache.exitGroupRequest WriteRequestCache.announce
    dsimp only
    rw [hnothing, List.nil_append]
    exact ⟨⟨rfl, .inr (.inl rfl)⟩, Kind.noConfusion, idles_deleteCaches hstill (.inr rfl)⟩
  · exact idles_deleteCaches hidle (.inl rfl)

/-- A call on no file and no descriptor of CAPIO's. -/
theorem foreign_call {call : TableCall} (hidle : th.writeCache.currentSize ≤ 0)
    (hfd : ∀ fd ∈ call.descriptors, t.existsCapioFd fd = false) (hp : NamesForeign handled env view t call) :
    Idles handled tid t (call.Passes env view) .free (call.run env view t tid th) := by
  have hname {dirfd : Int} {name p : CString} (hn : (dirfd, name) ∈ call.pathnames)
      (hmem : p ∈ spellings env view t dirfd name) : isCapioPath env.capioDir p = false ∧ handled p = false :=
    hp _ hn p hmem
  have hreturned : call.Passes env view call.returned := .inl rfl
  have hrefused (e : Int) (he : call.Refuses env view e) : call.Passes env view (some (-e)) := .inr ⟨e, he, rfl⟩
  have houtcome {o : Option Outcome} (ho : LeavesAlone handled tid t (call.Passes env view) o) :
      Idles handled tid t (call.Passes env view) .free (th.outcome t o) := idles_outcome hidle ho
  cases call with
  | descriptor call =>
    have ho : LeavesAlone handled tid t _ (Process.handle env t ⟨tid, view, call⟩) := leavesAlone_handle hfd hp fun _ => id
    cases call with
    | close fd =>
      have hclose : closeHandler t tid fd = some ⟨t, [], none⟩ := by
        unfold closeHandler
        rw [hfd fd (List.mem_singleton.mpr rfl)]
        rfl
      dsimp only [TableCall.run]
      rw [hclose]
      exact houtcome (leavesAlone_quiet hreturned)
    | _ => exact houtcome ho
  | read fd count | readv fd iovcnt | write fd count | writev fd iovcnt | lseek fd offset whence =>
    have hnone : t.existsCapioFd fd = false := hfd fd (List.mem_singleton.mpr rfl)
    simp only [TableCall.run, readHandler, readvHandler, readUpTo, writeHandler, writevHandler, capioWrite, lseekHandler,
      hnone, Bool.false_eq_true, if_false]
    exact idles_done hidle hreturned
  | fstat fd => exact houtcome (leavesAlone_capioFstat (hfd fd (List.mem_singleton.mpr rfl)) hreturned)
  | fstatat dirfd pathname flags =>
    exact houtcome (leavesAlone_capioFstatat (hfd dirfd (List.mem_singleton.mpr rfl))
      (fun p hmem => (hname (List.mem_singleton.mpr rfl) hmem).1) hreturned hrefused)
  | lstat pathname =>
    obtain ⟨_, hreal, _⟩ := mem_spellings env view t atFdcwd pathname
    exact houtcome (leavesAlone_capioLstatWrapper (hname (List.mem_singleton.mpr rfl) hreal).1 hreturned
      fun hmissing => hrefused _ (.lstat hmissing))
  | stat pathname =>
    obtain ⟨_, hreal, _⟩ := mem_spellings env view t atFdcwd pathname
    exact houtcome (leavesAlone_capioLstatWrapper (hname (List.mem_singleton.mpr rfl) hreal).1 hreturned
      fun hmissing => hrefused _ (.stat hmissing))
  | statx dirfd pathname flags =>
    obtain ⟨hpath, _⟩ := mem_spellings env view t dirfd pathname
    exact houtcome (leavesAlone_capioStatx (hname (List.mem_singleton.mpr rfl) hpath).1 hreturned)
  | access pathname =>
    obtain ⟨hpath, hreal, _⟩ := mem_spellings env view t atFdcwd pathname
    exact houtcome (leavesAlone_accessHandler (hname (List.mem_singleton.mpr rfl) hpath).2
      (hname (List.mem_singleton.mpr rfl) hreal).2 hreturned)
  | faccessat dirfd pathname =>
    exact houtcome (leavesAlone_faccessatHandler (fun p hmem => (hname (List.mem_singleton.mpr rfl) hmem).2) hreturned)
  | chdir pathname =>
    obtain ⟨hpath, hreal, _⟩ := mem_spellings env view t atFdcwd pathname
    exact houtcome (leavesAlone_chdirHandler (hname (List.mem_singleton.mpr rfl) hpath).2
      (hname (List.mem_singleton.mpr rfl) hreal).2 hreturned)
  | fchmod fd | fchown fd | fcntl fd | fgetxattr fd | getdents fd | ioctl fd | fstatfs fd =>
    exact houtcome (leavesAlone_askFor (hfd fd (List.mem_singleton.mpr rfl)) hreturned)
  | mkdir pathname | mkdirat dirfd pathname =>
    exact houtcome (leavesAlone_capioMkdirat (fun p hmem => (hname (List.mem_singleton.mpr rfl) hmem).1) hreturned)
  | rmdir pathname | getcwd | notHandled => exact houtcome (leavesAlone_quiet hreturned)
  | notImplemented => exact houtcome (leavesAlone_quiet (hrefused _ .notImplemented))
  | fork pid | execve => exact idles_done hidle hreturned
  | exit => exact idles_exitHandler hidle

end

/-- The server answers such a question with the step that takes it. -/
theorem answered_at_once {server : Server.CapioServer} {fs : Server.FileSystem} {calls : List Server.Call} {out : List Reply}
    {r : Request} {tid : Tid} (h : Server.handle server fs r = some (calls, out)) (hr : Harmless server.fileToBeHandled tid r)
    (hb : blocks r = some tid) : tid ∈ out.map Reply.tid := by
  obtain ⟨_, hjoins | hleaves | ⟨path, sourceFunc, rfl, hp⟩⟩ := hr
  · rw [(blocks_iff.mp hb).1] at hjoins
    cases hjoins
  · rw [(blocks_iff.mp hb).1] at hleaves
    cases hleaves
  · rcases Server.consentToProceedHandler_spec _ path sourceFunc h with ⟨_, rfl, _⟩ | ⟨_, _, hhandled, _⟩
    · exact List.mem_singleton.mpr (Option.some.inj hb).symm
    · rw [hp] at hhandled
      cases hhandled

/-- Whether the server takes a file for one of CAPIO's. -/
abbrev handledBy (env : Server.Env) (path : CString) : Bool := Server.CapioCLEngine.fileToBeHandled env path

/-- The calls of the threads of a process beside CAPIO: they name none of its files, and find the
tables that the process has started with, or that a call of it has left. -/
def BesideCapio (env : Server.Env) (G : Tid → Prop) (ts : Machine.Trace) : Prop :=
  ∀ pre x post, ts = pre ++ x :: post → ∀ tid cenv view t call, x.label.action = .call tid cenv view t call → G tid →
    NamesForeign (handledBy env) cenv view t call ∧ (t = DescriptorTables.initFilesystem ∨
      ∃ y ∈ pre, ∃ u r, G u ∧ y.target.threads u = .runs (.done r) ∧ t = r.tables)

/-- What a thread of such a process is in the middle of. -/
def Minds (env : Server.Env) (tid : Tid) (state : ThreadState) : Prop :=
  ∀ p, state = .runs p → ∃ c, Idles (handledBy env) tid DescriptorTables.initFilesystem (fun _ => True) c p

/-- Such a call, and the tables that it finds. -/
def Foreign (env : Server.Env) (tid : Tid) (a : Action) : Prop :=
  ∀ cenv view t call, a = .call tid cenv view t call →
    NamesForeign (handledBy env) cenv view t call ∧ t = DescriptorTables.initFilesystem

section
variable {env : Server.Env} {engine : Server.CapioCLEngine} {fs : Server.FileSystem} {ts : Machine.Trace} {G : Tid → Prop}
  {m m' : Machine} {a : Action} {tid : Tid}

theorem no_descriptors (fd : Int) : DescriptorTables.initFilesystem.existsCapioFd fd = false := by
  rw [Bool.eq_false_iff]
  exact fun hmem => AList.notMem_empty fd (DescriptorTables.existsCapioFd_iff.mp hmem)

theorem idle_of_returned {state : ThreadState} {th : ClientThread} (hi : Minds env tid state)
    (hth : state.returned = some th) : th.writeCache.currentSize ≤ 0 := by
  cases state with
  | runs p =>
    cases p with
    | done r =>
      obtain ⟨c, hidles⟩ := hi _ rfl
      cases c with
      | free | leaving => exact (hidles.2 th hth).2.1
      | _ => exact hidles.elim
    | _ => cases hth
  | _ => cases hth

theorem moves_minds {threads : Tid → ThreadState} {answers answers' : List Nat} {state state' : ThreadState}
    {queued : List Request} (h : Moves a threads tid answers state state' queued answers') (hi : Minds env tid state)
    (ha : Foreign env tid a) (hclean : Machine.startsClean threads a = true) : Minds env tid state' ∧ ∀ r ∈ queued, Harmless (handledBy env) tid r := by
  cases h with
  | join _ hstarts _ hr hown =>
    refine ⟨fun p hp => ?_, List.forall_mem_singleton.mpr ⟨hown, .inl hr⟩⟩
    cases hp
    exact ⟨.free, idles_done (hstarts hclean).2 trivial⟩
  | call hth cenv view t call hmade =>
    obtain ⟨hforeign, rfl⟩ := ha cenv view t call hmade
    refine ⟨fun p hp => ?_, fun _ hr => (List.not_mem_nil hr).elim⟩
    cases hp
    have hidles : Idles (handledBy env) tid _ (call.Passes cenv view) .free (call.run cenv view _ tid _) :=
      foreign_call (idle_of_returned hi hth) (fun fd _ => no_descriptors fd) hforeign
    exact ⟨.free, hidles.imp (fun _ => id) fun c r hr => ⟨hr.1, fun th hth =>
      ⟨(hr.2 th hth).1, (hr.2 th hth).2.1, trivial⟩⟩⟩
  | @send r next =>
    obtain ⟨c, hidles⟩ := hi _ rfl
    cases c with
    | free =>
      refine ⟨fun p hp => ?_, List.forall_mem_singleton.mpr hidles.1⟩
      cases hp
      exact ⟨_, hidles.2.2⟩
    | _ => exact hidles.elim
  | @read next v rest _ =>
    obtain ⟨c, hidles⟩ := hi _ rfl
    cases c with
    | waiting =>
      refine ⟨fun p hp => ?_, fun _ hr => (List.not_mem_nil hr).elim⟩
      cases hp
      exact ⟨.free, hidles v⟩
    | _ => exact hidles.elim
  | vanish hvanish =>
    refine ⟨fun p hp => ?_, fun _ hr => (List.not_mem_nil hr).elim⟩
    subst hp
    cases state with
    | runs p => cases p <;> cases hvanish
    | _ => cases hvanish

/-- Nothing that the threads have, have sent or are owed has to do with CAPIO. -/
structure Apart (env : Server.Env) (G : Tid → Prop) (ts : Machine.Trace) (m : Machine) : Prop where
  threads : ∀ u, G u → Minds env u (m.threads u)
  queue : ∀ r ∈ m.queue, G (sender r) → Harmless (handledBy env) (sender r) r
  quiet : ∀ u, G u → ¬ Awaiting u (Machine.serverTrace ts)
  tables : ∀ y ∈ ts, ∀ u r, G u → y.target.threads u = .runs (.done r) → r.tables = DescriptorTables.initFilesystem

/-- The tables of a thread that has returned. -/
theorem tables_of_minds {r : Return} (hi : Minds env tid (.runs (.done r))) : r.tables = DescriptorTables.initFilesystem := by
  obtain ⟨c, hidles⟩ := hi _ rfl
  cases c with
  | free | leaving => exact hidles.1
  | _ => exact hidles.elim

theorem apart_client (hi : Apart env G ts m) (hkeep : ∀ u, Keeping (Machine.serverTrace ts) m u)
    (ha : ∀ u, G u → Foreign env u a) (hclean : Machine.startsClean m.threads a = true) (h : m.clientStep a = some m') :
    (∀ u, G u → Minds env u (m'.threads u)) ∧ ∀ r ∈ m'.queue, G (sender r) → Harmless (handledBy env) (sender r) r := by
  obtain ⟨u, state, queued, answers, hmove, rfl⟩ := clientStep_moves h
  obtain ⟨c, hstands, hok⟩ := hkeep u
  obtain ⟨hown, _⟩ := moves_ok hmove hstands hok rfl rfl hclean
  constructor
  · intro v hv
    dsimp only
    by_cases hu : v = u
    · subst hu
      rw [Function.update_self]
      exact (moves_minds hmove (hi.threads v hv) (ha v hv) hclean).1
    · rw [Function.update_of_ne hu]
      exact hi.threads v hv
  · intro r hr hsender
    rcases List.mem_append.mp hr with hr | hr
    · exact hi.queue r hr hsender
    · rw [hown r hr] at hsender ⊢
      exact (moves_minds hmove (hi.threads u hsender) (ha u hsender) hclean).2 r hr

theorem apart_server {b : Server.Action} {replies : List Reply} (hi : Apart env G ts m) (hserved : Served env engine fs ts m)
    (h : m.serverStep b = some (m', replies)) (u : Tid) (hu : G u) :
    ¬ Awaiting u (Machine.serverTrace ts ++ [⟨m.system, ⟨b, replies⟩, m'.system⟩]) := by
  obtain ⟨queue, system, hstep, rfl, htaken⟩ := serverStep_cases h
  replace htaken := taken_sent hserved.readBack htaken
  intro hw
  rcases System.awaiting_snoc.mp hw with ⟨⟨r, hr, hb⟩, hout⟩ | ⟨hold, _⟩
  · rcases htaken with ⟨q, rfl, hq⟩ | ⟨hquiet, _⟩
    · cases hr
      obtain ⟨_, calls, hhandle, _⟩ := System.step_request hstep
      have hown : sender r = u := (blocks_iff.mp hb).2
      have hmem : r ∈ m.queue := hq ▸ List.mem_cons_self
      have hharmless : Harmless m.system.server.fileToBeHandled u r := by
        have henv : m.system.server.fileToBeHandled = handledBy env := by
          funext path
          rw [Server.CapioServer.fileToBeHandled, System.env_run hserved.ran]
        rw [henv, ← hown]
        exact hi.queue r hmem (hown ▸ hu)
      exact hout (answered_at_once hhandle hharmless hb)
    · exact hquiet r hr
  · exact hi.quiet u hu hold

theorem foreign_of_beside {pre post : Machine.Trace} {x : Transition Machine Machine.Event}
    (hb : BesideCapio env G (pre ++ x :: post)) (hi : Apart env G pre m) (u : Tid) (hu : G u) : Foreign env u x.label.action := by
  intro cenv view t call ha
  obtain ⟨hforeign, hstart | ⟨y, hy, v, r, hv, hr, rfl⟩⟩ := hb pre x post rfl u cenv view t call ha hu
  · exact ⟨hforeign, hstart⟩
  · exact ⟨hforeign, hi.tables y hy v r hv hr⟩

theorem apart_step {e : Machine.Event} (hi : Apart env G ts m) (hserved : Served env engine fs ts m)
    (ha : ∀ u, G u → Foreign env u e.action) (ho : Machine.Orderly ⟨m, e, m'⟩) (h : Machine.Step m e m') : Apart env G (ts ++ [⟨m, e, m'⟩]) m' := by
  obtain ⟨a, replies⟩ := e
  have hafter (hthreads : ∀ u, G u → Minds env u (m'.threads u)) (y : Transition Machine Machine.Event)
      (hy : y ∈ ts ++ [⟨m, ⟨a, replies⟩, m'⟩]) (u : Tid) (r : Return) (hu : G u)
      (hr : y.target.threads u = .runs (.done r)) : r.tables = DescriptorTables.initFilesystem := by
    rcases List.mem_append.mp hy with hy | hy
    · exact hi.tables y hy u r hu hr
    · obtain rfl := List.mem_singleton.mp hy
      exact tables_of_minds (hr ▸ hthreads u hu)
  cases a with
  | server b =>
    have hstep : m.serverStep b = some (m', replies) := h
    have hquiet := apart_server hi hserved hstep
    obtain ⟨queue, system, _, rfl, htaken⟩ := serverStep_cases hstep
    refine ⟨hi.threads, fun r hr => ?_, fun u hu => ?_, hafter hi.threads⟩
    · rcases htaken with ⟨q, _, _, hq, _⟩ | ⟨_, rfl⟩
      · exact hi.queue r (hq ▸ List.mem_cons_of_mem q hr)
      · exact hi.queue r hr
    · rw [serverTrace_snoc]
      exact hquiet u hu
  | _ =>
    obtain ⟨m'', hstep, he⟩ := Option.map_eq_some_iff.mp h
    cases he
    obtain ⟨hthreads, hqueue⟩ := apart_client hi hserved.keeping ha ho.starts hstep
    refine ⟨hthreads, hqueue, fun u hu => ?_, hafter hthreads⟩
    rw [serverTrace_snoc, List.append_nil]
    exact hi.quiet u hu

theorem apart_boot : Apart env G [] (Machine.boot env engine fs) := by
  refine ⟨fun u _ p hp => ?_, fun r hr => (List.not_mem_nil hr).elim, fun u _ hw => ?_, fun y hy => (List.not_mem_nil hy).elim⟩
  · cases hp
  · exact Run.since_nil.mp hw

theorem apart_run (h : Run Machine.Step (Machine.boot env engine fs) ts m) (ho : ∀ x ∈ ts, Machine.Orderly x)
    (hb : BesideCapio env G ts) : Apart env G ts m := by
  refine h.history_of Machine.Orderly (fun ts m => BesideCapio env G ts → Apart env G ts m) (fun _ => apart_boot) ?_ ho hb
  intro ts m e m' hrun horderly ih hstep hclean hb
  have hi : Apart env G ts m := by
    apply ih
    rintro pre x post rfl
    exact hb pre x (post ++ [⟨m, e, m'⟩]) (List.append_assoc ..)
  exact apart_step hi (served_run hrun horderly) (foreign_of_beside hb hi) hclean hstep

/-- Whatever else happens in an orderly run of the node, the library passes on the calls of a process beside CAPIO and
keeps its tables empty, and the server never has a question of such a thread between two steps: it
is still in the queue, or answered. -/
theorem foreign_undisturbed (h : Run Machine.Step (Machine.boot env engine fs) ts m) (ho : ∀ x ∈ ts, Machine.Orderly x) (hb : BesideCapio env G ts)
    (hg : G tid) :
    (∀ x ∈ ts, ∀ cenv view t call, x.label.action = .call tid cenv view t call → ∃ p, x.target.threads tid = .runs p ∧
      t = DescriptorTables.initFilesystem ∧ Idles (handledBy env) tid t (call.Passes cenv view) .free p) ∧
    (∀ r ∈ m.queue, sender r = tid → Harmless (handledBy env) tid r) ∧
    (∀ p, m.Holds tid p → (∃ i, p = .queue i) ∨ ∃ i, p = .answered i) ∧
    ((m.threads tid).asked = true → m.queue.filter (Machine.asks tid) ≠ [] ∨ m.answers tid ≠ []) := by
  have hi : Apart env G ts m := apart_run h ho hb
  have hserved : Served env engine fs ts m := served_run h ho
  refine ⟨fun x hx cenv view t call ha => ?_, fun r hr hown => ?_, fun p hp => ?_, fun hasked => ?_⟩
  · obtain ⟨pre, post, rfl, hpre, hstep, _⟩ := h.source_reached hx
    have hbefore : Apart env G pre x.source := by
      apply apart_run hpre (fun y hy => ho y (List.mem_append_left _ hy))
      rintro pre' y post' rfl
      exact hb pre' y (post' ++ x :: post) (by simp)
    obtain ⟨hforeign, rfl⟩ := foreign_of_beside hb hbefore tid hg cenv view t call ha
    obtain ⟨source, ⟨a, replies⟩, target⟩ := x
    dsimp only at ha hstep hbefore ⊢
    subst ha
    obtain ⟨m'', hclient, he⟩ := Option.map_eq_some_iff.mp hstep
    cases he
    obtain ⟨th, hth, he⟩ := Option.bind_eq_some_iff.mp hclient
    cases he
    refine ⟨call.run cenv view _ tid th, Function.update_self .., rfl, ?_⟩
    exact foreign_call (idle_of_returned (hbefore.threads tid hg) hth) (fun fd _ => no_descriptors fd) hforeign
  · rw [← hown]
    exact hi.queue r hr (hown ▸ hg)
  · rcases holds_cases hserved hp with ⟨i, hqueue, _⟩ | ⟨i, hanswered, _⟩ | hw
    · exact .inl ⟨i, hqueue⟩
    · exact .inr ⟨i, hanswered⟩
    · exact absurd hw (hi.quiet tid hg)
  · obtain ⟨c, hstands, hok⟩ := hserved.keeping tid
    rw [← asked_of_stands hstands] at hasked
    cases hok.asked hasked with
    | @queued pre r hq hasks _ _ _ =>
      left
      rw [questions_eq (Machine.serverTrace ts) m c tid, hq, List.filter_append, List.filter_cons_of_pos (by simpa using hasks)]
      exact List.append_ne_nil_of_right_ne_nil _ (List.cons_ne_nil _ _)
    | due _ hw _ => exact absurd hw (hi.quiet tid hg)
    | @answered v _ _ hone =>
      right
      have hanswers : m.answers tid = [v] := hone
      rw [hanswers]
      exact List.cons_ne_nil v []

end
/-- A call of thread 5 that finds no descriptors. -/
private def callOf5 (call : TableCall) : Action :=
  .call 5 ⟨"/c".toList, "/".toList⟩ emptyKernel DescriptorTables.initFilesystem call

/-- A thread asks for a file of its own, reads it, and asks for another. -/
def besideCapio : List Action :=
  [.init 5 none 8, .server (.request (.handshakeAnonymous 5 5)), .server .call, callOf5 (.access "/e/p".toList), .send 5,
    .server (.request (.consent 5 "/e/p".toList "access_handler".toList)), .read 5,
    callOf5 (.descriptor (.openFile "/e/p".toList 0 3)), callOf5 (.read 3 10), callOf5 (.access "/e/q".toList), .send 5]

theorem foreign_undisturbed_besideCapio : ∃ ts m,
    Run Machine.Step (Machine.boot ⟨"/c".toList, none⟩ ⟨∅⟩ ⟨fun _ => none⟩) ts m ∧ (m.threads 5).asked = true ∧
    ∀ p, m.Holds 5 p → (∃ i, p = .queue i) ∨ ∃ i, p = .answered i := by
  obtain ⟨ts, m, hrun, hactions, hends⟩ := execute_any Machine.step
    (Machine.boot ⟨"/c".toList, none⟩ ⟨∅⟩ ⟨fun _ => none⟩) besideCapio
    (fun ts m => decide (∀ x ∈ ts, Machine.Orderly x) && (m.threads 5).asked) (by decide)
  obtain ⟨horderly, hasked⟩ := Bool.and_eq_true_iff.mp hends
  have hb : BesideCapio ⟨"/c".toList, none⟩ (fun u => u = 5) ts := by
    rintro pre x post rfl u cenv view t call ha -
    have hmem : x.label.action ∈ besideCapio := by
      rw [← hactions]
      exact List.mem_map_of_mem (List.mem_append_right pre List.mem_cons_self)
    rw [ha] at hmem
    simp only [besideCapio, callOf5, List.mem_cons, Action.call.injEq, reduceCtorEq, false_or, or_false, List.not_mem_nil] at hmem
    rcases hmem with ⟨_, rfl, rfl, rfl, rfl⟩ | ⟨_, rfl, rfl, rfl, rfl⟩ | ⟨_, rfl, rfl, rfl, rfl⟩ | ⟨_, rfl, rfl, rfl, rfl⟩
    all_goals
      unfold NamesForeign
      exact ⟨by decide, .inl rfl⟩
  exact ⟨ts, m, hrun, hasked, (foreign_undisturbed hrun (of_decide_eq_true horderly) hb rfl).2.2.1⟩

end Capio.Node
