import Capio.Library.Fairness
import Capio.Server.DeferredUnlock
import Capio.Server.OpenQuestions
import Mathlib.Data.Prod.Lex
import Mathlib.Order.WellFounded

/-! Whom the monitor answers in the end, in runs without an end in which it is never kept from
its next step for good. -/
namespace Capio.Server.System
open Library CapioServer

variable {s t : System} {out : List Reply} {path : CString} {tid : Tid} {a : Action}

/-- Where a step of the monitor leads, with the call that it runs. -/
inductive Scans (s t : System) (out : List Reply) : Prop
  | start (hs : s.monitor = .start)
    (ht : t = { s with monitor := .creation s.server.fileManager.threadAwaitingFileCreation.keys }) (hout : out = [])
  | openers (hs : s.monitor = .creation []) (ht : t = { s with monitor := .data s.server.fileManager.threadAwaitingData.keys }) (hout : out = [])
  | missing {file : CString} {files : List CString} (hs : s.monitor = .creation (file :: files))
    (hfile : s.fs.fileExists file = false) (ht : t = { s with monitor := .creation files }) (hout : out = [])
  | created {file : CString} {files : List CString} (hs : s.monitor = .creation (file :: files))
    (hfile : s.fs.fileExists file = true) (ht : t = { s with monitor := .creationUnlock file files }) (hout : out = [])
  | unlock {file : CString} {files : List CString} (hs : s.monitor = .creationUnlock file files)
    (hcall : (Call.unlockThreadAwaitingCreation file).run s.server s.fs = some (t.server, t.fs, out))
    (ht : t.monitor = .creationDelete file files)
  | delete {file : CString} {files : List CString} (hs : s.monitor = .creationDelete file files)
    (hcall : (Call.deleteFileAwaitingCreation file).run s.server s.fs = some (t.server, t.fs, out))
    (ht : t.monitor = .creation files)
  | done (hs : s.monitor = .data []) (ht : t = { s with monitor := .start }) (hout : out = [])
  | absent {file : CString} {files : List CString} (hs : s.monitor = .data (file :: files))
    (hfile : s.fs.fileExists file = false) (ht : t = { s with monitor := .data files }) (hout : out = [])
  | present {file : CString} {files : List CString} (hs : s.monitor = .data (file :: files))
    (hfile : s.fs.fileExists file = true) (ht : t = { s with monitor := .dataCheck file files }) (hout : out = [])
  | check {file : CString} {files : List CString} (hs : s.monitor = .dataCheck file files)
    (hcall : (Call.checkAndUnlockThreadAwaitingData file).run s.server s.fs = some (t.server, t.fs, out))
    (ht : t.monitor = .data files)

theorem runCall_moves {c : Call} {m : Monitor} (h : ({ s with monitor := m } : System).runCall c = some (t, out)) :
    c.run s.server s.fs = some (t.server, t.fs, out) ∧ t.monitor = m := by
  obtain ⟨⟨server, fs, replies⟩, hrun, he⟩ := Option.bind_eq_some_iff.mp h
  cases he
  exact ⟨hrun, rfl⟩

theorem scans_of_step (h : s.step .monitor = some (t, out)) : Scans s t out := by
  simp only [step, monitorStep] at h
  split at h
  · cases h
    exact .start ‹_› rfl rfl
  · cases h
    exact .openers ‹_› rfl rfl
  · split_ifs at h with hfile <;> cases h
    · exact .created ‹_› hfile rfl rfl
    · exact .missing ‹_› (Bool.eq_false_iff.mpr hfile) rfl rfl
  · obtain ⟨hcall, ht⟩ := runCall_moves h
    exact .unlock ‹_› hcall ht
  · obtain ⟨hcall, ht⟩ := runCall_moves h
    exact .delete ‹_› hcall ht
  · cases h
    exact .done ‹_› rfl rfl
  · split_ifs at h with hfile <;> cases h
    · exact .present ‹_› hfile rfl rfl
    · exact .absent ‹_› (Bool.eq_false_iff.mpr hfile) rfl rfl
  · obtain ⟨hcall, ht⟩ := runCall_moves h
    exact .check ‹_› hcall ht

/-- Only the monitor moves the monitor. -/
theorem monitor_stands (h : s.step a = some (t, out)) (ha : a ≠ .monitor) : t.monitor = s.monitor := by
  cases a with
  | request r =>
    obtain ⟨_, calls, _, rfl⟩ := step_request h
    rfl
  | call =>
    obtain ⟨c, calls, server, fs, _, _, rfl⟩ := step_call h
    rfl
  | monitor => exact absurd rfl ha
  | environment fs =>
    cases h
    rfl

/-- How far the monitor is from its next look at the openers of a path: whether it comes to them
in this round, and what it has left in the list before it. -/
def openerRank (path : CString) : Monitor → Nat ×ₗ Nat
  | .start => toLex (1, 0)
  | .creation files => toLex (if path ∈ files then 0 else 3, 3 * files.length)
  | .creationUnlock file files => toLex (if path ∈ file :: files then 0 else 3, 3 * files.length + 2)
  | .creationDelete _ files => toLex (if path ∈ files then 0 else 3, 3 * files.length + 1)
  | .data files => toLex (2, 2 * files.length)
  | .dataCheck _ files => toLex (2, 2 * files.length + 1)

/-- How far the monitor is from its next look at the readers of a path. -/
def readerRank (path : CString) : Monitor → Nat ×ₗ Nat
  | .start => toLex (2, 0)
  | .creation files => toLex (1, 3 * files.length)
  | .creationUnlock _ files => toLex (1, 3 * files.length + 2)
  | .creationDelete _ files => toLex (1, 3 * files.length + 1)
  | .data files => toLex (if path ∈ files then 0 else 3, 2 * files.length)
  | .dataCheck file files => toLex (if path ∈ file :: files then 0 else 3, 2 * files.length + 1)

theorem toLex_lt {a b c d : Nat} (h : a < c ∨ a = c ∧ b < d) : toLex (a, b) < toLex (c, d) :=
  Prod.Lex.toLex_lt_toLex.mpr h

theorem creation_key {server : CapioServer} (hw : tid ∈ server.waitingCreation path) :
    path ∈ server.fileManager.threadAwaitingFileCreation.keys := by
  unfold waitingCreation at hw
  cases hl : server.fileManager.threadAwaitingFileCreation.lookup path with
  | none =>
    rw [hl] at hw
    cases hw
  | some tids => exact AList.mem_keys.mp (AList.lookup_isSome.mp (by rw [hl]; rfl))

theorem data_key {server : CapioServer} (hw : (server.waitingData path tid).isSome) :
    path ∈ server.fileManager.threadAwaitingData.keys := by
  obtain ⟨size, hsize⟩ := Option.isSome_iff_exists.mp hw
  obtain ⟨threads, hl, _⟩ := Option.bind_eq_some_iff.mp hsize
  exact AList.mem_keys.mp (AList.lookup_isSome.mp (by rw [hl]; rfl))

/-- The rank falls at each step of the monitor at which the openers of the path are not answered. -/
theorem openerRank_falls (h : Scans s t out) (hw : tid ∈ s.server.waitingCreation path)
    (hfile : s.fs.fileExists path = true) (hout : ∀ reply ∈ out, reply.tid ≠ tid) :
    openerRank path t.monitor < openerRank path s.monitor := by
  cases h with
  | start hs ht _ =>
    rw [hs, ht]
    refine toLex_lt (.inl ?_)
    rw [if_pos (creation_key hw)]
    exact Nat.one_pos
  | openers hs ht _ =>
    rw [hs, ht]
    refine toLex_lt (.inl ?_)
    rw [if_neg List.not_mem_nil]
    decide
  | @missing file files hs hmissing ht _ =>
    rw [hs, ht]
    have hne : path ≠ file := by
      rintro rfl
      rw [hfile] at hmissing
      cases hmissing
    refine toLex_lt (.inr ⟨?_, by rw [List.length_cons]; omega⟩)
    simp only [List.mem_cons, hne, false_or]
  | @created file files hs _ ht _ =>
    rw [hs, ht]
    exact toLex_lt (.inr ⟨rfl, by rw [List.length_cons]; omega⟩)
  | @unlock file files hs hcall ht =>
    rw [hs, ht]
    have hne : path ≠ file := by
      rintro rfl
      rcases Call.run_creation hcall with ⟨_, _, he, _⟩ | ⟨p, he, hreplies, _⟩ | ⟨_, he, _⟩ | ⟨he, _⟩ <;> cases he
      refine hout ⟨tid, 1⟩ ?_ rfl
      rw [hreplies]
      exact List.mem_map_of_mem hw
    refine toLex_lt (.inr ⟨?_, by omega⟩)
    simp only [List.mem_cons, hne, false_or]
  | delete hs _ ht =>
    rw [hs, ht]
    exact toLex_lt (.inr ⟨rfl, by omega⟩)
  | done hs ht _ =>
    rw [hs, ht]
    exact toLex_lt (.inl (by decide))
  | absent hs _ ht _ | present hs _ ht _ =>
    rw [hs, ht]
    exact toLex_lt (.inr ⟨rfl, by rw [List.length_cons]; omega⟩)
  | check hs _ ht =>
    rw [hs, ht]
    exact toLex_lt (.inr ⟨rfl, by omega⟩)

/-- The check of a path answers a thread whose lock condition holds. -/
theorem check_answers {server server' : CapioServer} {fs fs' : FileSystem} (hw : (server.waitingData path tid).isSome)
    (hlock : server.LockCondition fs path tid)
    (hcall : (Call.checkAndUnlockThreadAwaitingData path).run server fs = some (server', fs', out)) :
    ∃ reply ∈ out, reply.tid = tid := by
  rcases Call.run_data hcall with ⟨_, _, _, he, _⟩ | ⟨p, he, hscan⟩ | ⟨he, _⟩ <;> cases he
  have hs := checkAndUnlock_spec hscan
  obtain ⟨size, hsize⟩ := Option.isSome_iff_exists.mp hw
  obtain ⟨verdict, hverdict⟩ := Option.isSome_iff_exists.mp (hs.decided tid size hsize)
  obtain ⟨_, ⟨_, _, filesize, _, rfl⟩ | ⟨hnot, _⟩⟩ := unlockBody_eq_some_iff.mp hverdict
  · exact ⟨⟨tid, filesize⟩, (hs.released _).mpr ⟨tid, size, hsize, hverdict⟩, rfl⟩
  · exact absurd hlock hnot

/-- The rank falls at each step of the monitor at which the reader is not answered. -/
theorem readerRank_falls (h : Scans s t out) (hw : (s.server.waitingData path tid).isSome)
    (hfile : s.fs.fileExists path = true) (hlock : s.server.LockCondition s.fs path tid)
    (hout : ∀ reply ∈ out, reply.tid ≠ tid) : readerRank path t.monitor < readerRank path s.monitor := by
  cases h with
  | start hs ht _ =>
    rw [hs, ht]
    exact toLex_lt (.inl (by decide))
  | openers hs ht _ =>
    rw [hs, ht]
    refine toLex_lt (.inl ?_)
    rw [if_pos (data_key hw)]
    exact Nat.one_pos
  | missing hs _ ht _ | created hs _ ht _ =>
    rw [hs, ht]
    exact toLex_lt (.inr ⟨rfl, by rw [List.length_cons]; omega⟩)
  | unlock hs _ ht | delete hs _ ht =>
    rw [hs, ht]
    exact toLex_lt (.inr ⟨rfl, by omega⟩)
  | done hs ht _ =>
    rw [hs, ht]
    refine toLex_lt (.inl ?_)
    rw [if_neg List.not_mem_nil]
    decide
  | @absent file files hs habsent ht _ =>
    rw [hs, ht]
    have hne : path ≠ file := by
      rintro rfl
      rw [hfile] at habsent
      cases habsent
    refine toLex_lt (.inr ⟨?_, by rw [List.length_cons]; omega⟩)
    simp only [List.mem_cons, hne, false_or]
  | @present file files hs _ ht _ =>
    rw [hs, ht]
    exact toLex_lt (.inr ⟨rfl, by rw [List.length_cons]; omega⟩)
  | @check file files hs hcall ht =>
    rw [hs, ht]
    have hne : path ≠ file := by
      rintro rfl
      obtain ⟨reply, hreply, htid⟩ := check_answers hw hlock hcall
      exact hout reply hreply htid
    refine toLex_lt (.inr ⟨?_, by omega⟩)
    simp only [List.mem_cons, hne, false_or]

variable {e : Event}

theorem silent_of_replied (h : tid ∉ replied e) : ∀ reply ∈ e.replies, reply.tid ≠ tid :=
  fun reply hreply htid => h (List.mem_map.mpr ⟨reply, hreply, htid⟩)

theorem opener_stays (h : Step s e t) (hout : tid ∉ replied e) (hw : tid ∈ s.server.waitingCreation path) :
    tid ∈ t.server.waitingCreation path ∨ Dropped tid ⟨s, e, t⟩ := by
  rcases step_cases h with ⟨c, hc, hrun⟩ | ⟨_, ht, _⟩
  · rcases stays_creation hrun (silent_of_replied hout) hw with hstays | rfl
    · exact .inl hstays
    · exact .inr ⟨path, hc, hw⟩
  · rw [ht]
    exact .inl hw

theorem reader_stays (h : Step s e t) (hout : tid ∉ replied e) (hw : (s.server.waitingData path tid).isSome) :
    (t.server.waitingData path tid).isSome := by
  rcases step_cases h with ⟨c, _, hrun⟩ | ⟨_, ht, _⟩
  · exact stays_data hrun (silent_of_replied hout) hw
  · rw [ht]
    exact hw

/-- A rank of the monitor that falls at its own steps is not raised by the others. -/
theorem rank_step (rank : Monitor → Nat ×ₗ Nat) (h : Step s e t)
    (hfalls : e.action = .monitor → rank t.monitor < rank s.monitor) :
    rank t.monitor ≤ rank s.monitor ∧ (e.action = .monitor → rank t.monitor < rank s.monitor) := by
  refine ⟨?_, hfalls⟩
  by_cases ha : e.action = .monitor
  · exact (hfalls ha).le
  · rw [monitor_stands h ha]

theorem scans_of_monitor (h : Step s e t) (ha : e.action = .monitor) : Scans s t e.replies := by
  have hstep : s.step e.action = some (t, e.replies) := h
  rw [ha] at hstep
  exact scans_of_step hstep

/-- The server in a run without an end of a whole that it is part of. -/
abbrev Service (s : System) := Unending (Stutters Step) s

/-- A step of the monitor. -/
def Monitors (x : Transition System (Option Event)) : Prop := ∃ e, x.label = some e ∧ e.action = .monitor

/-- The step answers the thread. -/
def Answers (tid : Tid) (x : Transition System (Option Event)) : Prop := ∃ e, x.label = some e ∧ tid ∈ replied e

/-- The step is one of the server that loses the thread. -/
def Loses (Lost : Transition System Event → Prop) (x : Transition System (Option Event)) : Prop :=
  ∃ e, x.label = some e ∧ Lost ⟨x.source, e, x.target⟩

section
variable {s : System} (r : Service s) {n : Nat}

/-- A step of the server, and one of another part. -/
theorem service_cases (m : Nat) : (∃ e, r.label m = some e ∧ Step (r.state m) e (r.state (m + 1))) ∨
    r.label m = none ∧ r.state (m + 1) = r.state m := by
  have hstep := r.steps m
  cases he : r.label m with
  | none =>
    rw [he] at hstep
    exact .inr ⟨rfl, hstep⟩
  | some e =>
    rw [he] at hstep
    exact .inl ⟨e, rfl, hstep⟩

/-- A step of the service at which a thread that waits is not answered leaves it waiting, or loses it. -/
theorem waits_step {Waits : System → Prop} {Lost : Transition System Event → Prop}
    (hstays : ∀ {s e t}, Step s e t → tid ∉ replied e → Waits s → Waits t ∨ Lost ⟨s, e, t⟩) {m : Nat}
    (hw : Waits (r.state m)) : (Answers tid (r.transition m) ∨ Loses Lost (r.transition m)) ∨
      Waits (r.state (m + 1)) := by
  rcases service_cases r m with ⟨e, he, hstep⟩ | ⟨_, hsame⟩
  · by_cases hout : tid ∈ replied e
    · exact .inl (.inl ⟨e, he, hout⟩)
    · exact (hstays hstep hout hw).symm.imp_left fun hlost => .inr ⟨e, he, hlost⟩
  · rw [hsame]
    exact .inr hw

/-- A thread that waits for something is answered in the end, if it is there from some time on and
brings the monitor nearer to the thread. -/
theorem waits_answered (Waits Ready : System → Prop) (Lost : Transition System Event → Prop) (hfair : r.Fair Monitors)
    (hstays : ∀ {s e t}, Step s e t → tid ∉ replied e → Waits s → Waits t ∨ Lost ⟨s, e, t⟩)
    {rank : Monitor → Nat ×ₗ Nat} (hfalls : ∀ {s t out}, Scans s t out → Waits s → Ready s → (∀ reply ∈ out, reply.tid ≠ tid) →
      rank t.monitor < rank s.monitor)
    (hw : Waits (r.state n)) (hready : ∃ k, ∀ m, k ≤ m → Ready (r.state m)) :
    ∃ m, n ≤ m ∧ (Answers tid (r.transition m) ∨ Loses Lost (r.transition m)) := by
  obtain ⟨k, hready⟩ := hready
  by_contra hnever
  have hwaits (m : Nat) (hm : n ≤ m) : Waits (r.state m) := by
    induction m, hm using Nat.le_induction with
    | base => exact hw
    | succ m hm ih => exact (waits_step r hstays ih).resolve_left fun hdone => hnever ⟨m, hm, hdone⟩
  have hmax : n ≤ max n k := le_max_left n k
  obtain ⟨m, hm, hdone⟩ := r.reaches hfair (n := max n k) (fun _ => True)
    (fun m => Answers tid (r.transition m) ∨ Loses Lost (r.transition m)) (fun s => rank s.monitor) trivial fun m hm _ => by
      rcases service_cases r m with ⟨e, he, hstep⟩ | ⟨he, hsame⟩
      · by_cases hout : tid ∈ replied e
        · exact .inl (.inl ⟨e, he, hout⟩)
        · have hfall := rank_step rank hstep fun ha => hfalls (scans_of_monitor hstep ha) (hwaits m (hmax.trans hm))
            (hready m ((le_max_right n k).trans hm)) (silent_of_replied hout)
          refine .inr ⟨trivial, hfall.1, ?_⟩
          rintro ⟨e', he', ha⟩
          obtain rfl : e = e' := Option.some.inj (he.symm.trans he')
          exact hfall.2 ha
      · rw [hsame]
        refine .inr ⟨trivial, le_rfl, ?_⟩
        rintro ⟨e, he', _⟩
        cases he.symm.trans he'
  exact hnever ⟨m, hmax.trans hm, hdone⟩

theorem opener_answered (hfair : r.Fair Monitors) (hw : tid ∈ (r.state n).server.waitingCreation path)
    (hfile : ∃ k, ∀ m, k ≤ m → (r.state m).fs.fileExists path = true) :
    ∃ m, n ≤ m ∧ (Answers tid (r.transition m) ∨ Loses (Dropped tid) (r.transition m)) :=
  waits_answered r (fun s => tid ∈ s.server.waitingCreation path) (fun s => s.fs.fileExists path = true) (Dropped tid)
    hfair opener_stays openerRank_falls hw hfile

theorem reader_answered (hfair : r.Fair Monitors) (hw : ((r.state n).server.waitingData path tid).isSome)
    (hlock : ∃ k, ∀ m, k ≤ m → (r.state m).fs.fileExists path = true ∧
      (r.state m).server.LockCondition (r.state m).fs path tid) : ∃ m, n ≤ m ∧ Answers tid (r.transition m) := by
  obtain ⟨m, hm, hanswered | ⟨_, _, hlost⟩⟩ := waits_answered r
    (fun s => (s.server.waitingData path tid).isSome)
    (fun s => s.fs.fileExists path = true ∧ s.server.LockCondition s.fs path tid) (fun _ => False) hfair
    (fun hstep hout hw => .inl (reader_stays hstep hout hw))
    (fun hscans hw hready hout => readerRank_falls hscans hw hready.1 hready.2 hout) hw hlock
  · exact ⟨m, hm, hanswered⟩
  · exact hlost.elim

end

/-- Whatever else goes on, a thread that waits for a file to be there is answered in the end, if the
file is there from some time on, unless the monitor drops it. A thread that waits for data is answered in
the end, if from some time on the file is there and the lock condition holds. -/
theorem waiting_threads_answered (s : System) (r : Service s) (hfair : r.Fair Monitors) (path : CString)
    (tid : Tid) (n : Nat) :
    (tid ∈ (r.state n).server.waitingCreation path →
      (∃ k, ∀ m, k ≤ m → (r.state m).fs.fileExists path = true) →
        ∃ m, n ≤ m ∧ (Answers tid (r.transition m) ∨ Loses (Dropped tid) (r.transition m))) ∧
    (((r.state n).server.waitingData path tid).isSome →
      (∃ k, ∀ m, k ≤ m → (r.state m).fs.fileExists path = true ∧
        (r.state m).server.LockCondition (r.state m).fs path tid) → ∃ m, n ≤ m ∧ Answers tid (r.transition m)) :=
  ⟨opener_answered r hfair, reader_answered r hfair⟩

/-- The monitor has no file left to check for a reader. -/
def Monitor.NoReaders : Monitor → Prop
  | .data (_ :: _) | .dataCheck _ _ => False
  | _ => True

/-- The openers are connected, and nobody waits for data. -/
structure OnlyOpeners (s : System) : Prop where
  connected : ∀ path tid, tid ∈ s.server.waitingCreation path → tid ∈ s.server.clientManager.bufsResponse
  data : s.server.fileManager.threadAwaitingData = ∅
  monitor : Monitor.NoReaders s.monitor

theorem replies_of_connected {cm : ClientManager} {tids : List Tid} (h : ∀ tid ∈ tids, tid ∈ cm.bufsResponse) :
    ∃ replies, tids.mapM (fun tid => cm.replyToClient tid 1) = some replies := by
  induction tids with
  | nil => exact ⟨[], rfl⟩
  | cons tid tids ih =>
    obtain ⟨htid, hrest⟩ := List.forall_mem_cons.mp h
    obtain ⟨replies, hreplies⟩ := ih hrest
    rw [List.mapM_cons, ClientManager.replyToClient, if_pos htid, hreplies]
    exact ⟨_, rfl⟩

theorem onlyOpeners_delete (hi : OnlyOpeners s) (path : CString) {m : Monitor}
    (hm : Monitor.NoReaders m) :
    OnlyOpeners ⟨s.server.deleteFileAwaitingCreation path, s.fs, s.pending, m⟩ := by
  refine ⟨fun q tid hw => ?_, hi.data, hm⟩
  dsimp only at hw
  rw [waitingCreation_delete] at hw
  split_ifs at hw
  · cases hw
  · exact hi.connected q tid hw

theorem unlock_of_connected {server : CapioServer}
    (h : ∀ tid ∈ server.waitingCreation path, tid ∈ server.clientManager.bufsResponse) :
    ∃ replies, server.unlockThreadAwaitingCreation path = some (server.deleteFileAwaitingCreation path, replies) := by
  unfold waitingCreation at h
  unfold unlockThreadAwaitingCreation deleteFileAwaitingCreation
  dsimp only
  cases hl : server.fileManager.threadAwaitingFileCreation.lookup path with
  | none => exact ⟨[], rfl⟩
  | some tids =>
    rw [hl, Option.getD_some] at h
    obtain ⟨replies, hreplies⟩ := replies_of_connected h
    refine ⟨replies, ?_⟩
    dsimp only
    rw [hreplies]
    rfl

theorem onlyOpeners_goes (hi : OnlyOpeners s) :
    ∃ t out, s.step .monitor = some (t, out) ∧ t.fs = s.fs ∧ OnlyOpeners t := by
  have hquiet (m : Monitor) (hm : Monitor.NoReaders m)
      (hstep : s.step .monitor = some ({ s with monitor := m }, [])) :
      ∃ t out, s.step .monitor = some (t, out) ∧ t.fs = s.fs ∧ OnlyOpeners t :=
    ⟨_, _, hstep, rfl, hi.connected, hi.data, hm⟩
  cases hm : s.monitor with
  | start =>
    refine hquiet (.creation s.server.fileManager.threadAwaitingFileCreation.keys) trivial ?_
    simp only [step, monitorStep, hm]
  | creation files =>
    cases files with
    | nil =>
      refine hquiet (.data []) trivial ?_
      simp only [step, monitorStep, hm, hi.data]
      rfl
    | cons file files =>
      cases hfile : s.fs.fileExists file with
      | true =>
        refine hquiet (.creationUnlock file files) trivial ?_
        simp only [step, monitorStep, hm, hfile, if_true]
      | false =>
        refine hquiet (.creation files) trivial ?_
        simp only [step, monitorStep, hm, hfile]
        rfl
  | creationUnlock file files =>
    obtain ⟨replies, hreplies⟩ := unlock_of_connected (hi.connected file)
    refine ⟨⟨s.server.deleteFileAwaitingCreation file, s.fs, s.pending, .creationDelete file files⟩, replies, ?_, rfl,
      onlyOpeners_delete hi file trivial⟩
    simp only [step, monitorStep, hm, runCall, Call.run, hreplies]
    rfl
  | creationDelete file files =>
    refine ⟨⟨s.server.deleteFileAwaitingCreation file, s.fs, s.pending, .creation files⟩, [], ?_, rfl,
      onlyOpeners_delete hi file trivial⟩
    simp only [step, monitorStep, hm]
    rfl
  | data files =>
    cases files with
    | nil =>
      refine hquiet .start trivial ?_
      simp only [step, monitorStep, hm]
    | cons file files => exact (hm ▸ hi.monitor : Monitor.NoReaders (.data (file :: files))).elim
  | dataCheck file files => exact (hm ▸ hi.monitor : Monitor.NoReaders (.dataCheck file files)).elim

/-- A connected thread waits for a file that is there. -/
def openerWaits : System :=
  let server : CapioServer := { emptyWorkflow.server with
    clientManager := ClientManager.initial.registerNewClient 1 capioDefaultAppName }
  { emptyWorkflow with
    server := server.addThreadAwaitingCreation "/c/f".toList 1
    fs := ⟨fun p => if p = "/c/f".toList then some (.file []) else none⟩ }

theorem onlyOpeners_openerWaits : OnlyOpeners openerWaits := by
  refine ⟨fun q tid hw => ?_, rfl, trivial⟩
  have hcases := waitingCreation_add { emptyWorkflow.server with
    clientManager := ClientManager.initial.registerNewClient 1 capioDefaultAppName } "/c/f".toList q 1
  change tid ∈ CapioServer.waitingCreation (CapioServer.addThreadAwaitingCreation _ _ _) q at hw
  rw [hcases] at hw
  split_ifs at hw
  · obtain rfl := List.mem_singleton.mp hw
    decide
  · cases hw

theorem waiting_threads_answered_openerWaits : ∃ r : Service openerWaits,
    ∃ m, Answers 1 (r.transition m) ∨ Loses (Dropped 1) (r.transition m) := by
  have hgoes (s : System) (hi : OnlyOpeners s ∧ s.fs = openerWaits.fs) : ∃ (e : Option Event) (t : System),
      (∃ e', e = some e' ∧ e'.action = .monitor) ∧ Stutters Step s e t ∧ OnlyOpeners t ∧ t.fs = openerWaits.fs := by
    obtain ⟨t, out, hstep, hsame, hafter⟩ := onlyOpeners_goes hi.1
    exact ⟨some ⟨.monitor, out⟩, t, ⟨_, rfl, rfl⟩, hstep, hafter, hsame.trans hi.2⟩
  obtain ⟨r, hr⟩ := Unending.exists_of _ _ hgoes ⟨onlyOpeners_openerWaits, rfl⟩
  have hopen : 1 ∈ (r.state 0).server.waitingCreation "/c/f".toList := by
    rw [r.starts]
    decide
  have hfile (m : Nat) : (r.state m).fs.fileExists "/c/f".toList = true := by
    rw [(hr m).1.2]
    decide
  obtain ⟨m, _, hm⟩ := (waiting_threads_answered openerWaits r (fun n => ⟨n, le_rfl, (hr n).2⟩) "/c/f".toList 1 0).1
    hopen ⟨0, fun m _ => hfile m⟩
  exact ⟨r, m, hm⟩

end Capio.Server.System
