import Capio.Server.ClientLookups

/-! Where the question of a waiting thread is while it has no answer. -/
namespace Capio.Server.System
open Library CapioServer

variable {s t : System} {ts : Trace} {e : Event} {server : CapioServer} {fs : FileSystem} {calls : List Call}
  {out : List Reply} {tid : Tid} {r : Request}

/-- A handler answers the sender of a blocking request, or leaves a call that registers it. -/
theorem handle_blocking (h : handle server fs r = some (calls, out)) :
    (out = [] ∧ ∀ tid, blocks r = some tid → ∃ c ∈ calls, registers c = some tid) ∨
    ∃ reply, out = [reply] ∧ blocks r = some reply.tid := by
  cases r with
  | consent u path sourceFunc =>
    rcases consentToProceedHandler_spec u path sourceFunc h with ⟨_, rfl, _⟩ | ⟨rfl, rfl, _⟩
    · exact .inr ⟨_, rfl, rfl⟩
    · exact .inl ⟨rfl, fun tid hb => ⟨_, List.mem_singleton.mpr rfl, hb⟩⟩
  | openFile u fd path =>
    rcases openHandler_spec u fd path h with ⟨_, rfl, _⟩ | ⟨rfl, rfl, _⟩
    · exact .inr ⟨_, rfl, rfl⟩
    · exact .inl ⟨rfl, fun tid hb => ⟨_, List.mem_singleton.mpr rfl, hb⟩⟩
  | read path u fd endOfRead =>
    rcases readHandler_spec u fd path endOfRead h with ⟨_, rfl, _⟩ | ⟨_, _, _, _, _, ⟨_, rfl, _⟩ | ⟨rfl, rfl, _⟩⟩
    · exact .inr ⟨_, rfl, rfl⟩
    · exact .inr ⟨_, rfl, rfl⟩
    · exact .inl ⟨rfl, fun tid hb => ⟨_, List.mem_singleton.mpr rfl, hb⟩⟩
  | _ =>
    refine .inl ⟨?_, nofun⟩
    rw [List.eq_nil_iff_forall_not_mem]
    intro reply hreply
    have hnone := (handle_replies h hreply).1
    cases hnone

/-- Nobody is registered twice for the creation of a file. -/
def CreationOnce (s : System) : Prop := ∀ path, (s.server.waitingCreation path).Nodup

theorem creationOnce_step (hi : WaitsOnce s) (hn : CreationOnce s) (h : Step s e t) : CreationOnce t := by
  rcases step_cases h with ⟨c, hc, hrun⟩ | ⟨_, ht, _⟩
  · intro q
    rcases Call.run_creation hrun with ⟨path, tid, rfl, ht⟩ | ⟨path, _, _, ht⟩ | ⟨path, _, ht⟩ | ⟨_, ht⟩
    · have hfree := (hi.pending _ tid (callOf_registers hc rfl) rfl).2
      rw [ht, waitingCreation_add]
      split_ifs with hq
      · rw [List.nodup_append_comm]
        exact List.nodup_cons.mpr ⟨(hfree path).2, hn path⟩
      · exact hn q
    · rw [ht, waitingCreation_delete]
      split_ifs
      · exact List.nodup_nil
      · exact hn q
    · rw [ht, waitingCreation_delete]
      split_ifs
      · exact List.nodup_nil
      · exact hn q
    · rw [ht]
      exact hn q
  · intro q
    rw [ht]
    exact hn q

/-- A step answers nobody twice. -/
theorem replied_nodup (hn : CreationOnce s) (h : Step s e t) : (replied e).Nodup := by
  obtain ⟨a, out⟩ := e
  have hquiet (hout : out = []) : (replied ⟨a, out⟩).Nodup := by
    rw [replied, hout]
    exact List.nodup_nil
  rcases step_cases h with ⟨c, _, hrun⟩ | ⟨_, _, ⟨hout, _⟩ | ⟨r, _, _, hd⟩⟩
  · cases hr : c.replies with
    | false => exact hquiet ((Call.run_frame hrun).silent hr)
    | true =>
      cases c with
      | unlockThreadAwaitingCreation path =>
        rcases Call.run_creation hrun with ⟨_, _, he, _⟩ | ⟨p, he, hout, _⟩ | ⟨_, he, _⟩ | ⟨he, _⟩ <;> cases he
        dsimp only at hout
        rw [replied, hout, List.map_map]
        have hid : Reply.tid ∘ (fun tid : Tid => (⟨tid, 1⟩ : Reply)) = id := rfl
        rw [hid, List.map_id]
        exact hn path
      | checkAndUnlockThreadAwaitingData path =>
        rcases Call.run_data hrun with ⟨_, _, _, he, _⟩ | ⟨p, he, hscan⟩ | ⟨he, _⟩ <;> cases he
        exact List.nodup_iff_count_le_one.mpr (checkAndUnlock_spec hscan).once
      | _ => cases hr
  · exact hquiet hout
  · rcases handle_blocking hd with ⟨hout, _⟩ | ⟨reply, hout, _⟩
    · exact hquiet hout
    · dsimp only at hout
      rw [replied, hout]
      exact List.nodup_singleton _

/-- A step answers who waits, or asks with it. -/
theorem replied_due (hi : Tracked ts s) (h : Step s e t) (hr : tid ∈ replied e) :
    Awaiting tid ts ∨ ∃ r, e.action = .request r ∧ blocks r = some tid := by
  obtain ⟨reply, hreply, rfl⟩ := List.mem_map.mp hr
  rcases step_cases h with ⟨c, _, hrun⟩ | ⟨_, _, ⟨hout, _⟩ | ⟨r, ha, _, hd⟩⟩
  · exact .inl (hi.waiting _ (released_by_call hi.waits hi.creation hrun hreply).1)
  · rw [hout] at hreply
    cases hreply
  · exact .inr ⟨r, ha, (handle_replies hd hreply).1⟩

/-- The thread is registered for the path. -/
def WaitsAt (server : CapioServer) (tid : Tid) (path : CString) : Prop :=
  tid ∈ server.waitingCreation path ∨ (server.waitingData path tid).isSome

/-- The question is left for the request thread to register. -/
def Registering (s : System) (tid : Tid) : Prop := ∃ c ∈ s.pending, registers c = some tid

/-- The monitor has deleted the thread with the path it waited for. -/
def Dropped (tid : Tid) (x : Transition System Event) : Prop :=
  ∃ path, x.source.callOf x.label.action = some (.deleteFileAwaitingCreation path) ∧
    tid ∈ x.source.server.waitingCreation path

section
variable {server' : CapioServer} {fs' : FileSystem} {c : Call} {path : CString}

/-- A thread that is not answered stays registered, unless it is deleted. -/
theorem stays_creation (hrun : c.run server fs = some (server', fs', out)) (hout : ∀ reply ∈ out, reply.tid ≠ tid)
    (hw : tid ∈ server.waitingCreation path) :
    tid ∈ server'.waitingCreation path ∨ c = .deleteFileAwaitingCreation path := by
  rcases Call.run_creation hrun with ⟨p, u, rfl, ht⟩ | ⟨p, rfl, hreplies, ht⟩ | ⟨p, rfl, ht⟩ | ⟨_, ht⟩
  · rw [ht, waitingCreation_add]
    split_ifs with hp
    · exact .inl (List.mem_append_left _ (hp ▸ hw))
    · exact .inl hw
  · rw [ht, waitingCreation_delete]
    split_ifs with hp
    · subst hp
      refine absurd rfl (hout ⟨tid, 1⟩ ?_)
      rw [hreplies]
      exact List.mem_map_of_mem hw
    · exact .inl hw
  · rw [ht, waitingCreation_delete]
    split_ifs with hp
    · exact .inr (by rw [hp])
    · exact .inl hw
  · rw [ht]
    exact .inl hw

theorem stays_data (hrun : c.run server fs = some (server', fs', out)) (hout : ∀ reply ∈ out, reply.tid ≠ tid)
    (hw : (server.waitingData path tid).isSome) : (server'.waitingData path tid).isSome := by
  rcases Call.run_data hrun with ⟨p, u, size, rfl, ht⟩ | ⟨p, rfl, hscan⟩ | ⟨_, ht⟩
  · rw [ht, waitingData_add]
    split_ifs
    · rfl
    · exact hw
  · have hs := checkAndUnlock_spec hscan
    by_cases hp : path = p
    · subst hp
      obtain ⟨size, hsize⟩ := Option.isSome_iff_exists.mp hw
      obtain ⟨verdict, hverdict⟩ := Option.isSome_iff_exists.mp (hs.decided tid size hsize)
      cases verdict with
      | none => rw [(hs.kept tid size).mpr ⟨hsize, hverdict⟩]; rfl
      | some reply =>
        have htid : reply.tid = tid := by
          obtain ⟨_, _, _, _, _, _, ⟨hv, _⟩ | ⟨hv, _⟩⟩ := unlockBody_spec hverdict <;> cases hv
          rfl
        exact absurd htid (hout reply ((hs.released reply).mpr ⟨tid, size, hsize, hverdict⟩))
    · unfold waitingData at hw ⊢
      rwa [hs.others path hp]
  · unfold waitingData at hw ⊢
    rwa [ht]

theorem registers_waitsAt (hrun : c.run server fs = some (server', fs', out)) (hr : registers c = some tid) :
    ∃ path, WaitsAt server' tid path := by
  cases c with
  | addThreadAwaitingCreation path u =>
    cases hr
    cases hrun
    refine ⟨path, .inl ?_⟩
    rw [waitingCreation_add, if_pos rfl]
    exact List.mem_append_right _ (List.mem_singleton.mpr rfl)
  | addThreadAwaitingData path u size =>
    cases hr
    cases hrun
    refine ⟨path, .inr ?_⟩
    rw [waitingData_add, if_pos ⟨rfl, rfl⟩]
    rfl
  | _ => cases hr

end

/-- Where the question of a thread is that the server has taken and not answered. -/
def Held (s : System) (tid : Tid) : Prop := Registering s tid ∨ ∃ path, WaitsAt s.server tid path

theorem held_call {c : Call} (hc : s.callOf e.action = some c)
    (hrun : c.run s.server s.fs = some (t.server, t.fs, e.replies)) (hout : tid ∉ replied e)
    (hp : ∀ d ∈ s.pending, d ∈ t.pending ∨ d = c) (hheld : Held s tid) : Held t tid ∨ Dropped tid ⟨s, e, t⟩ := by
  have hsilent : ∀ reply ∈ e.replies, reply.tid ≠ tid :=
    fun reply hreply htid => hout (List.mem_map.mpr ⟨reply, hreply, htid⟩)
  rcases hheld with ⟨d, hd, hr⟩ | ⟨path, hw | hw⟩
  · rcases hp d hd with hstill | rfl
    · exact .inl (.inl ⟨d, hstill, hr⟩)
    · exact .inl (.inr (registers_waitsAt hrun hr))
  · rcases stays_creation hrun hsilent hw with hw' | rfl
    · exact .inl (.inr ⟨path, .inl hw'⟩)
    · exact .inr ⟨path, hc, hw⟩
  · exact .inl (.inr ⟨path, .inr (stays_data hrun hsilent hw)⟩)

/-- A question that is not answered by a step is held after it, unless the step drops it. -/
theorem held_step (h : Step s e t) (hw : Awaiting tid (ts ++ [⟨s, e, t⟩]))
    (hheld : Awaiting tid ts → Held s tid) : Held t tid ∨ Dropped tid ⟨s, e, t⟩ := by
  obtain ⟨action, out⟩ := e
  have hcases := awaiting_snoc.mp hw
  cases action with
  | request r =>
    obtain ⟨hnil, calls, hd, rfl⟩ := step_request h
    rcases hcases with ⟨⟨r', ha, hb⟩, hout⟩ | ⟨hold, _⟩
    · cases ha
      rcases handle_blocking hd with ⟨_, hcalls⟩ | ⟨reply, hone, hb'⟩
      · exact .inl (.inl (hcalls tid hb))
      · rw [hb] at hb'
        refine absurd ?_ hout
        dsimp only at hone
        rw [Option.some.inj hb', replied, hone]
        exact List.mem_singleton.mpr rfl
    · rcases hheld hold with ⟨c, hc, _⟩ | hwaits
      · rw [hnil] at hc
        cases hc
      · exact .inl (.inr hwaits)
  | call =>
    obtain ⟨c, calls, server, fs, hp, hrun, rfl⟩ := step_call h
    obtain ⟨hold, hout⟩ := hcases.resolve_left (by rintro ⟨⟨_, ha, _⟩, _⟩; cases ha)
    refine held_call (by rw [callOf, hp]; rfl) hrun hout ?_ (hheld hold)
    intro d hd
    rw [hp] at hd
    exact (List.mem_cons.mp hd).symm
  | monitor =>
    obtain ⟨hold, hout⟩ := hcases.resolve_left (by rintro ⟨⟨_, ha, _⟩, _⟩; cases ha)
    rcases step_monitor h with ⟨m, _, _, rfl, _⟩ | ⟨c, m, server, fs, hc, hrun, rfl⟩
    · exact .inl (hheld hold)
    · exact held_call (by rw [callOf, hc]; rfl) hrun hout (fun d hd => .inl hd) (hheld hold)
  | environment fs =>
    obtain ⟨hold, _⟩ := hcases.resolve_left (by rintro ⟨⟨_, ha, _⟩, _⟩; cases ha)
    cases h
    exact .inl (hheld hold)

/-- A question without an answer is held by the server, or was dropped by the monitor. -/
theorem held_run {env : Env} {engine : CapioCLEngine} (h : Run Step (boot env engine fs) ts s)
    (hw : Awaiting tid ts) : Held s tid ∨ ∃ x ∈ ts, Dropped tid x := by
  induction h with
  | nil => exact absurd (Run.since_nil.mp hw) not_false
  | @snoc ts t e u hrun hstep ih =>
    by_cases hdropped : ∃ x ∈ ts, Dropped tid x
    · obtain ⟨x, hx, hdrop⟩ := hdropped
      exact .inr ⟨x, List.mem_append_left _ hx, hdrop⟩
    · rcases held_step hstep hw (fun hold => (ih hold).resolve_right hdropped) with hnow | hdrop
      · exact .inl hnow
      · exact .inr ⟨_, List.mem_append_right _ (List.mem_singleton.mpr rfl), hdrop⟩

section
variable {env : Env} {engine : CapioCLEngine} {a : Action}

/-- The settings of a server do not change. -/
theorem env_run (h : Run Step (boot env engine fs) ts s) : s.server.env = env := by
  refine h.invariant (fun s => s.server.env = env) rfl fun s e t hi hstep => ?_
  rcases step_cases hstep with ⟨c, _, hrun⟩ | ⟨_, hsame, _⟩
  · rw [(Call.run_frame hrun).env]
    exact hi
  · rw [hsame]
    exact hi

theorem registered_waiting (h : Run Step (boot env engine fs) ts s) (hd : Disciplined ts)
    (hw : ∃ path, WaitsAt s.server tid path) : Registered s.server.clientManager tid := by
  have hi := tracked_run h hd
  obtain ⟨hconnected, hstill⟩ := hi.awaiting tid (hi.waiting tid (not_free.mpr hw))
  exact registered_of_connected h hconnected hstill

/-- A call before which the server stands finds the threads it looks up. -/
theorem call_finds {c : Call} (h : Run Step (boot env engine fs) ts s) (hd : Disciplined ts)
    (hc : s.callOf a = some c) (hl : looksUp s.server c tid) : Registered s.server.clientManager tid := by
  cases c with
  | unlockThreadAwaitingCreation path => exact registered_waiting h hd ⟨path, .inl hl⟩
  | checkAndUnlockThreadAwaitingData path => exact registered_waiting h hd ⟨path, .inr hl⟩
  | addProducer path u =>
    obtain rfl := hl
    cases a with
    | call =>
      obtain ⟨hconnected, hstill⟩ := (tracked_run h hd).producing path tid (List.mem_of_head? hc)
      exact registered_of_connected h hconnected fun d hd => by rw [hstill d hd]; exact nofun
    | monitor =>
      obtain ⟨m, hm⟩ := callOf_monitor hc
      cases (monitorCall_frame hm).2.1
    | _ => cases hc
  | _ => cases hl

theorem lookups_found (h : Run Step (boot env engine fs) ts s) (hd : Disciplined ts) (hsend : MaySend ts a) :
    LookupsFind s a := by
  constructor
  · intro r hr hnil hhand
    have hconnected := (hsend r hr).2.resolve_left (by rw [hhand]; exact Bool.false_ne_true)
    exact registered_of_connected h hconnected (by rw [hnil]; exact nofun)
  · exact fun c hc tid hl => call_finds h hd hc hl

end
end Capio.Server.System
