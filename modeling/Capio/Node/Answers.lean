import Capio.Node.Liveness

/-! What an answer of the server is about: the last question of the thread, and for a `READ` the
file as the server saw it. -/
namespace Capio.Node
open Library
open Server (System Tid Reply CapioServer FileSystem)
open Server.System (Tracked MaySend blocks requests)

/-- The last question of the thread. -/
def lastQuestion (tid : Tid) (rs : List Request) : Option Request := (rs.filter (Machine.asks tid)).getLast?

/-- Who waits, or is about to be registered, waits for what it has asked last. -/
def Filed (rs : List Request) (s : System) : Prop :=
  ∀ tid path table, (Table.Waits s.server tid path table ∨ ∃ c ∈ s.pending, Table.Registers tid path c table) →
    ∃ r, lastQuestion tid rs = some r ∧ questionAt r = some (table, path)

/-- What the answer to a `READ` tells of a file that the server handles. A directory has the size of
a committed file. -/
def Tells (s : System) (path : CString) (v : Nat) : Prop :=
  s.server.fileToBeHandled path = true →
    v = ullongMax ∧ (s.server.isCommitted s.fs path = some true ∨ s.fs.isDirectory path = true) ∨
      Server.getFileSizeIfExists s.fs path = some v

section
variable {server server' : CapioServer} {fs fs' : FileSystem} {c : Server.Call} {calls : List Server.Call}
  {out : List Reply} {tid : Tid} {path : CString} {table : Table} {r : Request} {rs queued : List Request}

theorem asks_iff : Machine.asks tid r = true ↔ blocks r = some tid := by
  rw [Machine.asks, decide_eq_true_iff, blocks_iff]

theorem lastQuestion_snoc (tid : Tid) (rs : List Request) (r : Request) :
    lastQuestion tid (rs ++ [r]) = if Machine.asks tid r then some r else lastQuestion tid rs := by
  unfold lastQuestion
  rw [List.filter_append]
  cases ha : Machine.asks tid r <;> simp [ha]

theorem lastQuestion_append (h : queued.filter (Machine.asks tid) = []) :
    lastQuestion tid (rs ++ queued) = lastQuestion tid rs := by
  unfold lastQuestion
  rw [List.filter_append, h, List.append_nil]

/-- The call that registers a thread is left by the handler of its question. -/
theorem handle_registers (h : Server.handle server fs r = some (calls, out)) (hc : c ∈ calls)
    (hreg : table.Registers tid path c) : blocks r = some tid ∧ questionAt r = some (table, path) := by
  have hmay := Server.handle_mayCall h c hc
  cases table with
  | creation =>
    obtain rfl := hreg
    cases r with
    | openFile u fd p =>
      cases hmay
      exact ⟨rfl, rfl⟩
    | _ => simp [Server.mayCall, Server.setCommitted] at hmay
  | data =>
    obtain ⟨size, rfl⟩ := hreg
    cases r with
    | consent u p sourceFunc =>
      cases hmay
      exact ⟨rfl, rfl⟩
    | read p u fd endOfRead =>
      cases hmay.1
      exact ⟨rfl, rfl⟩
    | _ => simp [Server.mayCall, Server.setCommitted] at hmay

/-- Who waits after a call waited before, or is registered by it. -/
theorem waits_before (hrun : c.run server fs = some (server', fs', out)) (hw : table.Waits server' tid path) :
    table.Waits server tid path ∨ table.Registers tid path c := by
  cases table with
  | creation =>
    have hdelete {p : CString} (hw : tid ∈ (server.deleteFileAwaitingCreation p).waitingCreation path) :
        tid ∈ server.waitingCreation path := by
      rw [CapioServer.waitingCreation_delete] at hw
      split_ifs at hw
      · cases hw
      · exact hw
    rcases Server.Call.run_creation hrun with ⟨p, u, rfl, rfl⟩ | ⟨p, rfl, _, rfl⟩ | ⟨p, rfl, rfl⟩ | ⟨_, hsame⟩
    · change tid ∈ (server.addThreadAwaitingCreation p u).waitingCreation path at hw
      rw [CapioServer.waitingCreation_add] at hw
      split_ifs at hw with hp
      · subst hp
        refine (List.mem_append.mp hw).imp id fun hone => ?_
        rw [List.mem_singleton.mp hone]
        rfl
      · exact .inl hw
    · exact .inl (hdelete hw)
    · exact .inl (hdelete hw)
    · refine .inl ?_
      change tid ∈ server.waitingCreation path
      rw [← hsame path]
      exact hw
  | data =>
    obtain ⟨size, hsize⟩ := Option.isSome_iff_exists.mp hw
    rcases Server.Call.run_waitingData hrun hsize with hold | hadd
    · exact .inl (Option.isSome_iff_exists.mpr ⟨size, hold⟩)
    · exact .inr ⟨size, hadd⟩

theorem awaitedSize_tells {s : System} {v : Nat} (h : Server.CapioServer.awaitedSize s.fs path = some v) :
    Tells s path v := by
  intro _
  unfold Server.CapioServer.awaitedSize at h
  split_ifs at h with hdir
  · cases h
    exact .inl ⟨rfl, .inr hdir⟩
  · exact .inr h

end

section
variable {s t : System} {e : System.Event} {ts : System.Trace} {tid : Tid}

theorem requests_quiet (h : ∀ r, e.action ≠ .request r) : requests (ts ++ [⟨s, e, t⟩]) = requests ts := by
  rw [System.requests_snoc]
  split
  · exact absurd ‹_› (h _)
  · rw [List.append_nil]

theorem filed_step (hi : Filed (requests ts) s) (htracked : Tracked ts s) (hsend : MaySend ts e.action)
    (h : System.Step s e t) : Filed (requests (ts ++ [⟨s, e, t⟩])) t := by
  obtain ⟨a, out⟩ := e
  -- a call leaves who waits, but for the one that it registers
  have hcall {c : Server.Call} (hrun : c.run s.server s.fs = some (t.server, t.fs, out))
      (hc : ∀ {tid path} {table : Table}, table.Registers tid path c → c ∈ s.pending)
      (hp : ∀ d ∈ t.pending, d ∈ s.pending) : Filed (requests ts) t := by
    rintro tid path table (hw | ⟨d, hd, hreg⟩)
    · rcases waits_before hrun hw with hold | hreg
      · exact hi tid path table (.inl hold)
      · exact hi tid path table (.inr ⟨c, hc hreg, hreg⟩)
    · exact hi tid path table (.inr ⟨d, hp d hd, hreg⟩)
  cases a with
  | request r =>
    obtain ⟨hnil, calls, hd, rfl⟩ := System.step_request h
    rw [System.requests_snoc]
    rintro tid path table (hw | ⟨c, hc, hreg⟩)
    · dsimp only at hw ⊢
      rw [lastQuestion_snoc, if_neg]
      · exact hi tid path table (.inl hw)
      · intro hasks
        have hown := (blocks_iff.mp (asks_iff.mp hasks)).2
        refine (hsend r rfl).1 (hown ▸ htracked.waiting tid ?_)
        cases table with
        | creation => exact System.not_free.mpr ⟨path, .inl hw⟩
        | data => exact System.not_free.mpr ⟨path, .inr hw⟩
    · obtain ⟨hb, hq⟩ := handle_registers hd hc hreg
      dsimp only
      rw [lastQuestion_snoc, if_pos (asks_iff.mpr hb)]
      exact ⟨r, rfl, hq⟩
  | call =>
    obtain ⟨c, calls, server, fs, hp, hrun, rfl⟩ := System.step_call h
    rw [requests_quiet (e := ⟨.call, _⟩) fun _ => nofun]
    refine hcall hrun (fun _ => ?_) (fun d hd => ?_) <;> rw [hp]
    · exact List.mem_cons_self
    · exact List.mem_cons_of_mem _ hd
  | monitor =>
    rw [requests_quiet (e := ⟨.monitor, _⟩) fun _ => nofun]
    rcases System.step_monitor h with ⟨m, _, _, rfl, _⟩ | ⟨c, m, server, fs, hc, hrun, rfl⟩
    · exact hi
    · refine hcall hrun (fun hreg => ?_) (fun d hd => hd)
      rename_i table
      rcases System.monitorCall_cases hc with ⟨_, _, _, rfl, _⟩ | ⟨_, _, _, rfl, _⟩ | ⟨_, _, _, rfl, _⟩
      all_goals
        cases table with
        | creation => cases hreg
        | data =>
          obtain ⟨_, hreg⟩ := hreg
          cases hreg
  | environment fs =>
    cases h
    rw [requests_quiet (e := ⟨.environment fs, _⟩) fun _ => nofun]
    exact hi

/-- The server answers the last question of a thread. Its answer to a `READ` tells the size of the file, or
that it is committed. -/
theorem answers_question (hi : Filed (requests ts) s) (h : System.Step s e t) {reply : Reply} (hr : reply ∈ e.replies) :
    ∃ r, lastQuestion reply.tid (requests (ts ++ [⟨s, e, t⟩])) = some r ∧
      ∀ path u fd endOfRead, r = .read path u fd endOfRead → Tells s path reply.offset := by
  rcases System.step_cases h with ⟨c, hc, hrun⟩ | ⟨_, _, ⟨hout, _⟩ | ⟨r, ha, _, hd⟩⟩
  · rw [requests_quiet fun r ha => by rw [ha] at hc; cases hc]
    have hreplies : c.replies = true := by
      by_contra hn
      rw [(Server.Call.run_frame hrun).silent (Bool.eq_false_iff.mpr hn)] at hr
      cases hr
    cases c with
    | unlockThreadAwaitingCreation path =>
      rcases Server.Call.run_creation hrun with ⟨_, _, he, _⟩ | ⟨p, he, hout, _⟩ | ⟨_, he, _⟩ | ⟨he, _⟩ <;> cases he
      rw [hout] at hr
      obtain ⟨tid, htid, rfl⟩ := List.mem_map.mp hr
      obtain ⟨r, hlast, hq⟩ := hi tid path .creation (.inl htid)
      refine ⟨r, hlast, ?_⟩
      rintro p u fd endOfRead rfl
      cases hq
    | checkAndUnlockThreadAwaitingData path =>
      rcases Server.Call.run_data hrun with ⟨_, _, _, he, _⟩ | ⟨p, he, hscan⟩ | ⟨he, _⟩ <;> cases he
      obtain ⟨tid, size, hw, hbody⟩ := ((CapioServer.checkAndUnlock_spec hscan).released reply).mp hr
      obtain ⟨filesize, _, _, hsize, _, _, ⟨hv, _⟩ | ⟨hv, _⟩⟩ := CapioServer.unlockBody_spec hbody
      · cases hv
        obtain ⟨r, hlast, hq⟩ := hi tid path .data (.inl (Option.isSome_iff_exists.mpr ⟨size, hw⟩))
        refine ⟨r, hlast, ?_⟩
        rintro p u fd endOfRead rfl
        cases hq
        exact awaitedSize_tells hsize
      · cases hv
    | _ => cases hreplies
  · rw [hout] at hr
    cases hr
  · rw [System.requests_snoc, ha]
    dsimp only
    rcases System.handle_blocking hd with ⟨hout, _⟩ | ⟨reply', hout, hb⟩
    · rw [hout] at hr
      cases hr
    · rw [hout] at hr hd
      obtain rfl := List.mem_singleton.mp hr
      rw [lastQuestion_snoc, if_pos (asks_iff.mpr hb)]
      refine ⟨r, rfl, ?_⟩
      rintro path u fd endOfRead rfl hhandled
      rcases Server.readHandler_spec u fd path endOfRead hd with
        ⟨_, _, hp⟩ | ⟨_, committed, size, hcommitted, hsize, ⟨_, hone, _⟩ | ⟨_, hnone, _⟩⟩
      · rw [hhandled] at hp
        cases hp
      · cases hone
        cases committed with
        | true => exact .inl ⟨rfl, .inl hcommitted⟩
        | false => exact .inr hsize
      · cases hnone

end
end Capio.Node
