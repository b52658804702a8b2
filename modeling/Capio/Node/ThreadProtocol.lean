import Capio.Posix.Hook
import Capio.Server.ClientLookups

/-! What a thread of a client sends, and where it waits for an answer. -/
namespace Capio.Node
open Library Posix
open Server (sender)

def kind : Request → Kind
  | .handshakeNamed .. | .handshakeAnonymous .. => .joins
  | .exitGroup _ => .leaves
  | .consent .. | .openFile .. | .read .. => .asks
  | .close .. | .create .. | .rename .. | .write .. => .tells

/-- The cache holds the thread's id for the descriptor, and prints it for the thread. -/
def Sound (tid : Int) (th : ClientThread) : Prop :=
  0 < th.writeCache.currentSize → th.writeCache.currentFd = -1 ∨ th.writeCache.currentFd = tid

/-- A thread that has left is there no more. -/
def Ends (tid : Int) : Control → Return → Prop
  | .free, r => ∀ th, r.thread = some th → Sound tid th
  | .leaving, r => r.thread = none
  | _, _ => False

/-- The messages are the thread's own, each question is followed by its answer, and nothing
follows the message that the thread leaves. -/
def Keeps (tid : Int) (c : Control) (p : HandlerProgram) : Prop :=
  p.Conforms kind (fun r => sender r = tid) (Ends tid) c

/-- The requests that a handler other than that of `exit` makes. -/
def MayMake (tid : Int) : Request → Prop
  | .consent u _ _ | .close u _ | .create u _ _ | .openFile u _ _ | .rename u _ _ => u = tid
  | _ => False

section
variable {tid : Int} {th : ClientThread} {t : DescriptorTables} {env : ClientEnv} {view : KernelView}
  {fd : Int} {path : CString}

theorem keeps_throws : Keeps tid .free (ClientThread.throws t) := nofun

theorem flush_own (hs : Sound tid th) (u : Int) :
    (th.writeCache.flush u).1.currentFd = -1 ∧
    ∀ m ∈ (th.writeCache.flush u).2, sender m.request = tid ∧ kind m.request = .tells := by
  refine ⟨rfl, fun m hm => ?_⟩
  unfold WriteRequestCache.flush at hm
  split_ifs at hm with hsent
  · obtain rfl := List.mem_singleton.mp hm
    exact ⟨(hs hsent.2).resolve_left hsent.1, rfl⟩
  · cases hm

theorem keeps_sendWrites {k : ClientThread → HandlerProgram} {sent : WriteRequestCache × List SentMessage}
    (hsent : ∀ m ∈ sent.2, sender m.request = tid ∧ kind m.request = .tells)
    (hk : Keeps tid .free (k { th with writeCache := sent.1 })) : Keeps tid .free (th.sendWrites k sent) := by
  refine Program.conforms_sendAll ?_ hk
  rw [List.forall_mem_map]
  exact hsent

/-- The cache is flushed before the request goes out. -/
theorem keeps_announce {k : ClientThread → HandlerProgram} {r : Request} {u : Int} (hs : Sound tid th)
    (hr : sender r = tid) (hjoins : kind r ≠ .joins)
    (hk : ∀ c : WriteRequestCache, c.currentFd = -1 → Keeps tid (kind r).next (k { th with writeCache := c })) :
    Keeps tid .free (th.sendWrites k (th.writeCache.announce u r)) := by
  obtain ⟨hfd, hflush⟩ := flush_own hs (Posix.toInt u)
  unfold ClientThread.sendWrites WriteRequestCache.announce
  dsimp only
  rw [List.map_append, List.map_singleton, Program.sendAll_snoc]
  refine Program.conforms_sendAll ?_ ⟨hr, hjoins, hk _ hfd⟩
  rw [List.forall_mem_map]
  exact hflush

theorem keeps_request {k : ClientThread → HandlerProgram} {r : Request} (hs : Sound tid th) (hr : MayMake tid r)
    (hk : ∀ th, Sound tid th → Keeps tid .free (k th)) : Keeps tid .free (th.request k r) := by
  cases r with
  | consent u path sourceFunc => exact ⟨hr, nofun, fun _ => hk th hs⟩
  | create u fd path | rename u oldPath newPath => exact ⟨hr, nofun, hk th hs⟩
  | close u path => exact keeps_announce hs hr nofun fun c hc => hk _ fun _ => .inl hc
  | openFile u fd path =>
    exact keeps_announce (k := fun th => .await fun _ => k th) hs hr nofun fun c hc _ => hk _ fun _ => .inl hc
  | _ => cases hr

theorem keeps_requests {k : ClientThread → HandlerProgram} {rs : List Request} (hs : Sound tid th)
    (hrs : ∀ r ∈ rs, MayMake tid r) (hk : ∀ th, Sound tid th → Keeps tid .free (k th)) :
    Keeps tid .free (ClientThread.requests k rs th) := by
  induction rs generalizing th with
  | nil => exact hk th hs
  | cons r rs ih =>
    obtain ⟨hr, hrs⟩ := List.forall_mem_cons.mp hrs
    exact keeps_request hs hr fun th hs => ih hs hrs

/-- Every request of the handler is one that it may make. -/
def Makes (tid : Int) (o : Option Outcome) : Prop := ∀ o', o = some o' → ∀ r ∈ o'.sent, MayMake tid r

theorem keeps_outcome {o : Option Outcome} (hs : Sound tid th) (ho : Makes tid o) :
    Keeps tid .free (th.outcome t o) := by
  cases o with
  | none => exact keeps_throws
  | some o =>
    refine keeps_requests hs (ho o rfl) fun th hs th' hth => ?_
    cases hth
    exact hs

theorem makes_quiet (t : DescriptorTables) (result : Option Int) : Makes tid (some ⟨t, [], result⟩) := by
  intro o ho r hr
  cases ho
  cases hr

theorem makes_one {r : Request} (hr : MayMake tid r) (t : DescriptorTables) (result : Option Int) :
    Makes tid (some ⟨t, [r], result⟩) := by
  intro o ho q hq
  cases ho
  obtain rfl := List.mem_singleton.mp hq
  exact hr

theorem makes_bind {α : Type} {x : Option α} {f : α → Option Outcome} (h : ∀ a, Makes tid (f a)) :
    Makes tid (x.bind f) := by
  intro o ho
  obtain ⟨a, _, ha⟩ := Option.bind_eq_some_iff.mp ho
  exact h a o ha

theorem makes_askFor {sourceFunc : String} : Makes tid (askFor t tid sourceFunc fd) := by
  unfold askFor
  split_ifs
  · exact makes_bind fun path => makes_one (by rfl) t none
  · exact makes_quiet t none

theorem makes_capioFstat : Makes tid (capioFstat t tid fd) := by
  unfold capioFstat
  split_ifs
  · exact makes_bind fun path => makes_one (by rfl) t none
  · exact makes_quiet t none

theorem makes_capioLstat : Makes tid (capioLstat env t tid path) := by
  unfold capioLstat
  split_ifs
  · exact makes_quiet t none
  · exact makes_one (by rfl) t none
  · exact makes_quiet t none

theorem makes_capioLstatWrapper : Makes tid (capioLstatWrapper env view t tid path) := by
  unfold capioLstatWrapper
  dsimp only
  split_ifs
  · exact makes_quiet t none
  · exact makes_quiet t _
  · exact makes_capioLstat

theorem makes_capioFstatat {flags : BitVec 32} : Makes tid (capioFstatat env view t tid fd path flags) := by
  unfold capioFstatat
  dsimp only
  split_ifs
  · exact makes_quiet t none
  · exact makes_capioLstat
  · exact makes_capioFstat
  · exact makes_capioLstatWrapper
  · exact makes_quiet t _
  · exact makes_quiet t none
  · exact makes_capioLstat
  · exact makes_capioLstat

theorem makes_capioStatx {flags : BitVec 32} : Makes tid (capioStatx env t tid fd path flags) := by
  unfold capioStatx
  split_ifs
  · exact makes_quiet t none
  · exact makes_one (by rfl) t none
  · exact makes_quiet t none

theorem makes_accessHandler : Makes tid (accessHandler env view t tid path) := by
  unfold accessHandler
  dsimp only
  split_ifs
  · exact makes_quiet t none
  · exact makes_one (by rfl) t none
  · exact makes_one (by rfl) t none

theorem makes_faccessatHandler : Makes tid (faccessatHandler env view t tid fd path) := by
  unfold faccessatHandler
  dsimp only
  split_ifs
  all_goals first
    | exact makes_quiet t none
    | exact makes_one (by rfl) t none

theorem makes_chdirHandler : Makes tid (some ⟨t, (chdirHandler env view tid path).2, none⟩) := by
  unfold chdirHandler
  dsimp only
  split_ifs
  · exact makes_quiet t none
  · exact makes_one (by rfl) t none
  · exact makes_one (by rfl) t none

theorem makes_capioMkdirat : Makes tid (capioMkdirat env view t tid fd path) := by
  have hannounce (p : CString) : Makes tid (announceDirectory env t tid p) := by
    unfold announceDirectory
    split_ifs
    · exact makes_one (by rfl) t none
    · exact makes_quiet t none
  unfold capioMkdirat
  dsimp only
  split_ifs
  all_goals first
    | exact makes_quiet t none
    | exact hannounce _

theorem makes_openPath {create cloexec : Bool} : Makes tid (openPath env t tid path create cloexec fd) := by
  unfold openPath
  dsimp only
  split_ifs
  all_goals
    refine makes_bind fun t => ?_
    first
    | exact makes_one (by rfl) t _
    | exact makes_quiet t _

theorem makes_copyFd {res : Int} {registers cloexec : Bool} : Makes tid (copyFd view t fd res registers cloexec) := by
  unfold copyFd
  split_ifs
  · exact makes_quiet t _
  · exact makes_bind fun t => makes_quiet t _
  · exact makes_bind fun t => makes_quiet t _
  · exact makes_quiet t none

theorem makes_closeHandler : Makes tid (closeHandler t tid fd) := by
  unfold closeHandler
  split_ifs
  · exact makes_bind fun path => makes_bind fun t => makes_one (by rfl) t none
  · exact makes_quiet t none

theorem makes_renameHandler {newpath : CString} : Makes tid (renameHandler env view t tid path newpath) := by
  unfold renameHandler
  dsimp only
  split_ifs
  · exact makes_quiet t _
  all_goals
    refine makes_bind fun t => ?_
    first
    | exact makes_one (by rfl) t none
    | exact makes_quiet t none

theorem makes_unlinkPath : Makes tid (unlinkPath env t path) := by
  unfold unlinkPath
  dsimp only
  split_ifs <;> exact makes_bind fun t => makes_quiet t none

theorem makes_handle (call : SystemCall) : Makes tid (Process.handle env t ⟨tid, view, call⟩) := by
  cases call with
  | creat pathname fd | openFile pathname flags fd | openat dirfd pathname flags fd => exact makes_openPath
  | dup fd res | dup2 fd fd2 res => exact makes_copyFd
  | dup3 fd fd2 flags res =>
    change Makes tid (dup3Handler view t fd fd2 flags res)
    unfold dup3Handler
    split_ifs
    · exact makes_quiet t _
    · exact makes_copyFd
  | close fd => exact makes_closeHandler
  | rename oldpath newpath => exact makes_renameHandler
  | unlink pathname | unlinkat pathname => exact makes_unlinkPath

/-- The arguments of `write_request` stand in another order: the cache takes the thread for the
descriptor. -/
theorem writeRequest_own (hs : Sound tid th) (path : CString) (count u : Int) :
    Sound tid { th with writeCache := (th.writeCache.writeRequest path count tid u).1 } ∧
    ∀ m ∈ (th.writeCache.writeRequest path count tid u).2, sender m.request = tid ∧ kind m.request = .tells := by
  have hturn : (th.writeCache.turnTo path count tid).1.currentFd = tid ∧
      ∀ m ∈ (th.writeCache.turnTo path count tid).2, sender m.request = tid ∧ kind m.request = .tells := by
    refine ⟨(WriteRequestCache.turnTo_spec _ _ _ _).1, fun m hm => ?_⟩
    unfold WriteRequestCache.turnTo at hm
    split_ifs at hm
    · exact (flush_own hs count).2 m hm
    · cases hm
  unfold WriteRequestCache.writeRequest
  dsimp only
  generalize (th.writeCache.turnTo path count tid) = turned at hturn
  have hfull : Sound tid { th with writeCache := { turned.1 with currentSize := turned.1.currentSize + u } } :=
    fun _ => .inr hturn.1
  unfold WriteRequestCache.flushFull
  split_ifs
  · refine ⟨fun _ => .inl rfl, fun m hm => ?_⟩
    rcases List.mem_append.mp hm with hm | hm
    · exact hturn.2 m hm
    · exact (flush_own hfull count).2 m hm
  · refine ⟨hfull, fun m hm => ?_⟩
    rw [List.append_nil] at hm
    exact hturn.2 m hm

theorem readRequest_own {c : ReadRequestCache} {call : ReadCall} {m : ReadMessage}
    (h : (c.readRequest call).2 = some m) : m.tid = call.tid := by
  have hask {c : ReadRequestCache} {p : CString} (h : (c.ask p call).2 = some m) : m.tid = call.tid := by
    unfold ReadRequestCache.ask at h
    split_ifs at h
    cases h
    rfl
  unfold ReadRequestCache.readRequest at h
  split_ifs at h
  · exact hask h
  · exact hask h

theorem keeps_read {k : ClientThread → HandlerProgram} {endOfRead : Int} (hs : Sound tid th)
    (hk : ∀ th, Sound tid th → Keeps tid .free (k th)) :
    Keeps tid .free (th.cacheRequest k (.read path endOfRead tid fd)) := by
  unfold ClientThread.cacheRequest
  dsimp only
  split
  · exact hk _ hs
  · rename_i m hm
    exact ⟨readRequest_own hm, nofun, fun reply => hk _ hs⟩

theorem keeps_write {k : ClientThread → HandlerProgram} {count u : Int} (hs : Sound tid th)
    (hk : ∀ th, Sound tid th → Keeps tid .free (k th)) :
    Keeps tid .free (th.cacheRequest k (.write path count tid u)) := by
  obtain ⟨hafter, hown⟩ := writeRequest_own hs path count u
  exact keeps_sendWrites hown (hk _ hafter)

/-- What the handlers of the calls with an offset ask of the caches. -/
def AsksCache (tid : Int) (o : Option OffsetOutcome) : Prop :=
  ∀ t r, o = some (t, some r) →
    (∃ path endOfRead fd, r = .read path endOfRead tid fd) ∨ ∃ path count u, r = .write path count tid u

theorem keeps_offsetOutcome {o : Option OffsetOutcome} (hs : Sound tid th) (ho : AsksCache tid o) :
    Keeps tid .free (th.offsetOutcome t o) := by
  have hdone (t : DescriptorTables) (th : ClientThread) (hs : Sound tid th) :
      Keeps tid .free (.done ⟨some th, t, none⟩) := by
    intro th' hth
    cases hth
    exact hs
  match o with
  | none => exact keeps_throws
  | some (t, none) => exact hdone t th hs
  | some (t, some r) =>
    obtain ⟨path, endOfRead, fd, rfl⟩ | ⟨path, count, u, rfl⟩ := ho t r rfl
    · exact keeps_read hs (hdone t)
    · exact keeps_write hs (hdone t)

theorem asksCache_readUpTo {bytes : Int} : AsksCache tid (readUpTo t tid fd bytes) := by
  intro t' r hr
  unfold readUpTo at hr
  split_ifs at hr
  · obtain ⟨offset, _, hr⟩ := Option.bind_eq_some_iff.mp hr
    obtain ⟨path, _, hr⟩ := Option.bind_eq_some_iff.mp hr
    obtain ⟨t, _, hr⟩ := Option.bind_eq_some_iff.mp hr
    cases hr
    exact .inl ⟨_, _, _, rfl⟩
  · cases hr

theorem asksCache_capioWrite {count : Int} : AsksCache tid (capioWrite t tid fd count) := by
  intro t' r hr
  unfold capioWrite at hr
  split_ifs at hr
  · obtain ⟨path, _, hr⟩ := Option.bind_eq_some_iff.mp hr
    cases hr
    exact .inr ⟨_, _, _, rfl⟩
  · cases hr

theorem asksCache_lseekHandler {offset : Int} {whence : Whence} :
    AsksCache tid (lseekHandler t fd offset whence) := by
  intro t' r hr
  unfold lseekHandler at hr
  split_ifs at hr
  · obtain ⟨current, _, hr⟩ := Option.bind_eq_some_iff.mp hr
    obtain ⟨computed, _, hr⟩ := Option.bind_eq_some_iff.mp hr
    obtain ⟨t, _, hr⟩ := Option.bind_eq_some_iff.mp hr
    cases hr
  · obtain ⟨computed, _, hr⟩ := Option.bind_eq_some_iff.mp hr
    obtain ⟨t, _, hr⟩ := Option.bind_eq_some_iff.mp hr
    cases hr
  · cases hr

theorem keeps_deleteCaches (hs : Sound tid th) : Keeps tid .free (th.deleteCaches t tid) :=
  keeps_sendWrites (flush_own hs _).2 keeps_throws

/-- Nothing is left in the cache when the thread has said that it leaves. -/
theorem keeps_deleteCaches_leaving (h : th.writeCache.currentFd = -1) :
    Keeps tid .leaving (th.deleteCaches t tid) := by
  unfold ClientThread.deleteCaches ClientThread.sendWrites WriteRequestCache.flush
  rw [if_neg (fun hsent => hsent.1 h)]
  rfl

theorem keeps_exitHandler (hs : Sound tid th) : Keeps tid .free (th.exitHandler t tid) := by
  unfold ClientThread.exitHandler
  split_ifs
  · exact keeps_announce (k := fun th => th.deleteCaches t tid) hs rfl nofun fun c hc =>
      keeps_deleteCaches_leaving hc
  · exact keeps_deleteCaches hs

end

/-- Whatever the state of the process, each call of a thread sends messages of that thread
only, reads an answer behind each question and nowhere else, and sends nothing behind the
message that the thread leaves. -/
theorem calls_keep_protocol (env : ClientEnv) (view : KernelView) (t : DescriptorTables) (tid : Int)
    (th : ClientThread) (hs : Sound tid th) (call : TableCall) :
    Keeps tid .free (call.run env view t tid th) := by
  have hmakes {o : Option Outcome} (ho : Makes tid o) := keeps_outcome (t := t) hs ho
  have hreturns (result : Option Int) : Keeps tid .free (.done ⟨some th, t, result⟩) := by
    intro th' hth
    cases hth
    exact hs
  cases call with
  | descriptor call =>
    cases call with
    | close fd =>
      dsimp only [TableCall.run]
      split
      · unfold ClientThread.closeThrows
        split
        · exact keeps_throws
        · exact keeps_request hs (by rfl) fun _ _ => keeps_throws
      · rename_i o ho
        exact hmakes (ho ▸ makes_closeHandler)
    | _ => exact hmakes (makes_handle _)
  | read fd count | readv fd iovcnt => exact keeps_offsetOutcome hs asksCache_readUpTo
  | write fd count | writev fd iovcnt => exact keeps_offsetOutcome hs asksCache_capioWrite
  | lseek fd offset whence => exact keeps_offsetOutcome hs asksCache_lseekHandler
  | fstat fd => exact hmakes makes_capioFstat
  | fstatat dirfd pathname flags => exact hmakes makes_capioFstatat
  | lstat pathname | stat pathname => exact hmakes makes_capioLstatWrapper
  | statx dirfd pathname flags => exact hmakes makes_capioStatx
  | access pathname => exact hmakes makes_accessHandler
  | faccessat dirfd pathname => exact hmakes makes_faccessatHandler
  | chdir pathname => exact hmakes makes_chdirHandler
  | fchmod fd | fchown fd | fcntl fd | fgetxattr fd | getdents fd | ioctl fd | fstatfs fd =>
    exact hmakes makes_askFor
  | mkdir pathname | mkdirat dirfd pathname => exact hmakes makes_capioMkdirat
  | rmdir pathname | getcwd | notImplemented | notHandled => exact hmakes (makes_quiet _ _)
  | fork pid | execve => exact hreturns _
  | exit => exact keeps_exitHandler hs

/-- A thread with bytes of its own in the cache ends. -/
theorem calls_keep_protocol_exit :
    Keeps 7 .free (TableCall.exit.run ⟨"/c".toList, "/c".toList⟩ emptyKernel DescriptorTables.initFilesystem 7
      ⟨⟨7, 3, 8, "/c/f".toList⟩, .start, true⟩) :=
  calls_keep_protocol _ _ _ 7 _ (fun _ => .inr rfl) _

end Capio.Node
