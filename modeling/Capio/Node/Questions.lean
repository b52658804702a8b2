import Capio.Node.Lanes

/-! The questions of the threads of a node: each is in one place until it is answered. -/
namespace Capio.Node
open Library Posix
open Server (System Tid Reply sender)
open Server.System (Awaiting Disciplined Dropped Held NotALookup)

/-- Where a question or its answer can be. -/
inductive Place where
  | queue (i : Nat)
  | pending (i : Nat)
  | creation (path : CString) (i : Nat)
  | data (path : CString)
  | answered (i : Nat)

namespace Machine

def asks (tid : Tid) (r : Request) : Bool := kind r = .asks ∧ sender r = tid

/-- The question of the thread is there. -/
def Holds (m : Machine) (tid : Tid) : Place → Prop
  | .queue i => ∃ r, m.queue[i]? = some r ∧ asks tid r = true
  | .pending i => ∃ c, m.system.pending[i]? = some c ∧ Server.System.registers c = some tid
  | .creation path i => (m.system.server.waitingCreation path)[i]? = some tid
  | .data path => (m.system.server.waitingData path tid).isSome
  | .answered i => i < (m.answers tid).length

end Machine

section
variable {env : Server.Env} {engine : Server.CapioCLEngine} {fs : Server.FileSystem} {ts : Machine.Trace}
  {m m' : Machine} {tid : Tid}

theorem asked_of_stands {state : ThreadState} {c : Control} (h : Stands tid state c) : c.asked = state.asked := by
  cases state with
  | gone | killed | left =>
    obtain rfl := h
    rfl
  | runs p => cases p <;> cases c <;> first | rfl | cases h

/-- A list with one element of a kind has it at one index. -/
theorem index_unique {α : Type} {P : α → Bool} {l : List α} (h : (l.filter P).length ≤ 1) {i j : Nat} {a b : α}
    (hi : l[i]? = some a) (hj : l[j]? = some b) (ha : P a = true) (hb : P b = true) : i = j := by
  induction l generalizing i j with
  | nil => cases hi
  | cons x l ih =>
    have hfirst {y : α} {k : Nat} (hx : P x = true) (hk : l[k]? = some y) (hy : P y = true) : False := by
      have hmem : y ∈ l.filter P := List.mem_filter.mpr ⟨List.mem_of_getElem? hk, hy⟩
      have hpos := List.length_pos_of_mem hmem
      rw [List.filter_cons_of_pos hx, List.length_cons] at h
      omega
    have hrest : (l.filter P).length ≤ 1 :=
      Nat.le_trans (List.Sublist.length_le (List.Sublist.filter P (List.sublist_cons_self x l))) h
    cases i with
    | zero =>
      obtain rfl := Option.some.inj hi
      cases j with
      | zero => rfl
      | succ j => exact (hfirst ha hj hb).elim
    | succ i =>
      cases j with
      | zero =>
        obtain rfl := Option.some.inj hj
        exact (hfirst hb hi ha).elim
      | succ j => rw [ih hrest hi hj]

/-- The questions of a thread in the queue, by its lane. -/
theorem questions_eq (ts : System.Trace) (m : Machine) (c : Control) (tid : Tid) : m.queue.filter (Machine.asks tid) =
    (lane ts m c tid).queued.filter (fun r => kind r = .asks) := by
  dsimp only [lane]
  rw [List.filter_filter]
  congr 1
  funext r
  simp [Machine.asks]

theorem no_questions {l : List Request} (h : ∀ r ∈ l, kind r ≠ .asks) : l.filter (fun r => kind r = .asks) = [] := by
  rw [List.filter_eq_nil_iff]
  exact fun r hr hasks => h r hr (of_decide_eq_true hasks)

/-- A question that the server holds is due. -/
theorem holds_cases {p : Place} (hi : Served env engine fs ts m) (h : m.Holds tid p) :
    (∃ i, p = .queue i ∧ m.queue.filter (Machine.asks tid) ≠ []) ∨
    (∃ i, p = .answered i ∧ m.answers tid ≠ []) ∨ Awaiting tid (Machine.serverTrace ts) := by
  have htracked := System.tracked_run hi.ran hi.disciplined
  cases p with
  | queue i =>
    obtain ⟨r, hr, hasks⟩ := h
    exact .inl ⟨i, rfl, List.ne_nil_of_mem (List.mem_filter.mpr ⟨List.mem_of_getElem? hr, hasks⟩)⟩
  | pending i =>
    obtain ⟨c, hc, hr⟩ := h
    exact .inr (.inr (htracked.registering c tid (List.mem_of_getElem? hc) hr))
  | creation path i =>
    exact .inr (.inr (htracked.waiting tid (System.not_free.mpr ⟨path, .inl (List.mem_of_getElem? h)⟩)))
  | data path => exact .inr (.inr (htracked.waiting tid (System.not_free.mpr ⟨path, .inr h⟩)))
  | answered i => exact .inr (.inl ⟨i, rfl, List.ne_nil_of_length_pos (Nat.zero_lt_of_lt h)⟩)

/-- What the server holds of a thread, it holds once. -/
theorem held_unique {p q : Place} (hi : Served env engine fs ts m) (hp : m.Holds tid p) (hq : m.Holds tid q)
    (hqueue : m.queue.filter (Machine.asks tid) = []) (hnone : m.answers tid = []) : p = q := by
  have htracked := System.tracked_run hi.ran hi.disciplined
  have hwaits := htracked.waits
  have hregistering {i : Nat} (h : m.Holds tid (.pending i)) :
      Server.System.Free m.system.server tid ∧ i = 0 := by
    obtain ⟨c, hc, hr⟩ := h
    obtain ⟨hone, hfree⟩ := hwaits.pending c tid (List.mem_of_getElem? hc) hr
    rw [hone] at hc
    cases i with
    | zero => exact ⟨hfree, rfl⟩
    | succ i => cases hc
  have hbusy {r : Place} {path : CString} (hr : r = .data path ∨ ∃ i, r = .creation path i) (h : m.Holds tid r) :
      ¬ Server.System.Free m.system.server tid := by
    refine System.not_free.mpr ⟨path, ?_⟩
    rcases hr with rfl | ⟨i, rfl⟩
    · exact .inr h
    · exact .inl (List.mem_of_getElem? h)
  have hqueued {i : Nat} : ¬ m.Holds tid (.queue i) := by
    rintro ⟨r, hr, hasks⟩
    have hmem : r ∈ m.queue.filter (Machine.asks tid) := List.mem_filter.mpr ⟨List.mem_of_getElem? hr, hasks⟩
    rw [hqueue] at hmem
    cases hmem
  have hanswered {i : Nat} : ¬ m.Holds tid (.answered i) := by
    intro h
    rw [Machine.Holds, hnone] at h
    exact Nat.not_lt_zero i h
  cases p with
  | queue i => exact absurd hp hqueued
  | answered i => exact absurd hp hanswered
  | pending i =>
    cases q with
    | queue j => exact absurd hq hqueued
    | answered j => exact absurd hq hanswered
    | pending j => rw [(hregistering hp).2, (hregistering hq).2]
    | creation path j => exact absurd (hregistering hp).1 (hbusy (.inr ⟨j, rfl⟩) hq)
    | data path => exact absurd (hregistering hp).1 (hbusy (.inl rfl) hq)
  | creation path i =>
    cases q with
    | queue j => exact absurd hq hqueued
    | answered j => exact absurd hq hanswered
    | pending j => exact absurd (hregistering hq).1 (hbusy (.inr ⟨i, rfl⟩) hp)
    | creation path' j =>
      obtain rfl := htracked.creation tid path path' (List.mem_of_getElem? hp) (List.mem_of_getElem? hq)
      have hlt := (List.getElem?_eq_some_iff.mp hp).1
      rw [(List.getElem?_inj hlt (hi.creationOnce path)).mp (hp.trans hq.symm)]
    | data path' => exact absurd (List.mem_of_getElem? hp) (hwaits.apart tid path' path hq)
  | data path =>
    cases q with
    | queue j => exact absurd hq hqueued
    | answered j => exact absurd hq hanswered
    | pending j => exact absurd (hregistering hq).1 (hbusy (.inl rfl) hp)
    | creation path' j => exact absurd (List.mem_of_getElem? hq) (hwaits.apart tid path path' hp)
    | data path' => rw [hwaits.once tid path path' hp hq]

theorem place_of_held (h : Held m.system tid) : ∃ p, m.Holds tid p := by
  rcases h with ⟨c, hc, hr⟩ | ⟨path, hw | hw⟩
  · obtain ⟨i, hi⟩ := List.getElem?_of_mem hc
    exact ⟨.pending i, c, hi, hr⟩
  · obtain ⟨i, hi⟩ := List.getElem?_of_mem hw
    exact ⟨.creation path i, hi⟩
  · exact ⟨.data path, hw⟩

/-- In every orderly run of a node, a thread that waits for an answer has its question in one place only,
in the queue, in the hands of the server or answered, unless the monitor has dropped it. The other
threads have none anywhere. -/
theorem question_in_one_place (h : Run Machine.Step (Machine.boot env engine fs) ts m) (ho : ∀ x ∈ ts, Machine.Orderly x)
    (tid : Tid) :
    (∀ p q, m.Holds tid p → m.Holds tid q → p = q) ∧
    ((∃ p, m.Holds tid p) → (m.threads tid).asked = true) ∧
    ((m.threads tid).asked = true →
      (∃ p, m.Holds tid p) ∨ ∃ x ∈ Machine.serverTrace ts, Dropped tid x) := by
  have hi := served_run h ho
  obtain ⟨c, hstands, hok⟩ := hi.keeping tid
  have hquestions := questions_eq (Machine.serverTrace ts) m c tid
  rw [← asked_of_stands hstands]
  cases hc : c.asked with
  | false =>
    obtain ⟨hqueued, hdue, hnone⟩ := hok.others hc
    rw [no_questions hqueued] at hquestions
    have hnowhere (p : Place) : ¬ m.Holds tid p := by
      intro hp
      rcases holds_cases hi hp with ⟨i, _, hne⟩ | ⟨i, _, hne⟩ | hw
      · exact hne hquestions
      · exact hne hnone
      · exact hdue hw
    exact ⟨fun p q hp => absurd hp (hnowhere p), fun ⟨p, hp⟩ => absurd hp (hnowhere p), nofun⟩
  | true =>
    refine and_left_comm.mp ⟨fun _ => rfl, ?_⟩
    cases hok.asked hc with
    | @queued pre r hq hasks hpre hdue hnone =>
      rw [hq, List.filter_append, no_questions hpre, List.nil_append,
        List.filter_cons_of_pos (by simpa using hasks), List.filter_nil] at hquestions
      have hplace {p : Place} (hp : m.Holds tid p) : ∃ i, p = .queue i := by
        rcases holds_cases hi hp with ⟨i, rfl, _⟩ | ⟨i, _, hne⟩ | hw
        · exact ⟨i, rfl⟩
        · exact absurd hnone hne
        · exact absurd hw hdue
      constructor
      · intro p q hp hq
        obtain ⟨i, rfl⟩ := hplace hp
        obtain ⟨j, rfl⟩ := hplace hq
        obtain ⟨a, ha, hasksa⟩ := hp
        obtain ⟨b, hb, hasksb⟩ := hq
        rw [index_unique (by rw [hquestions, List.length_singleton]) ha hb hasksa hasksb]
      · have hmem : r ∈ m.queue.filter (Machine.asks tid) := by
          rw [hquestions]
          exact List.mem_singleton.mpr rfl
        obtain ⟨hr, hasksr⟩ := List.mem_filter.mp hmem
        obtain ⟨i, hget⟩ := List.getElem?_of_mem hr
        exact fun _ => .inl ⟨.queue i, r, hget, hasksr⟩
    | due hq hdue hnone =>
      rw [hq, List.filter_nil] at hquestions
      refine ⟨fun p q hp hq => held_unique hi hp hq hquestions hnone, fun _ => ?_⟩
      exact (System.held_run hi.ran hdue).imp_left place_of_held
    | @answered v hq hdue hone =>
      rw [hq, List.filter_nil] at hquestions
      have hlength : (m.answers tid).length = 1 := by
        have hanswers : m.answers tid = [v] := hone
        rw [hanswers, List.length_singleton]
      have hplace {p : Place} (hp : m.Holds tid p) : p = .answered 0 := by
        rcases holds_cases hi hp with ⟨i, _, hne⟩ | ⟨i, rfl, _⟩ | hw
        · exact absurd hquestions hne
        · have hlt : i < (m.answers tid).length := hp
          obtain rfl : i = 0 := by omega
          rfl
        · exact absurd hw hdue
      refine ⟨fun p q hp hq => (hplace hp).trans (hplace hq).symm, fun _ => .inl ⟨.answered 0, ?_⟩⟩
      rw [Machine.Holds, hlength]
      exact Nat.one_pos

theorem one_answer (hi : Served env engine fs ts m) (hne : m.answers tid ≠ []) :
    (m.threads tid).asked = true ∧ (m.answers tid).length = 1 := by
  obtain ⟨c, hstands, hok⟩ := hi.keeping tid
  obtain ⟨hasked, _, _, v, hv⟩ := hok.one_answer hne
  refine ⟨(asked_of_stands hstands).symm.trans hasked, ?_⟩
  have hanswers : m.answers tid = [v] := hv
  rw [hanswers, List.length_singleton]

/-- A step of the server adds nothing to the queue. -/
theorem orderly_server {b : Server.Action} {replies : List Reply} (hi : Served env engine fs ts m)
    (h : m.serverStep b = some (m', replies)) : Machine.Orderly ⟨m, ⟨.server b, replies⟩, m'⟩ := by
  obtain ⟨queue, system, _, rfl, htaken⟩ := serverStep_cases h
  refine ⟨rfl, fun r hr => hi.readBack r ?_⟩
  rcases htaken with ⟨q, _, _, hq, _⟩ | ⟨_, rfl⟩
  · rw [hq]
    exact List.mem_cons_of_mem q hr
  · exact hr

/-- In every orderly run of a node, the server is a server of disciplined clients. An answer that nobody has
read is the only one of its thread, which waits for it or was killed waiting. What the server answers
goes into empty buffers, and no step of it fails in a lookup of a client. -/
theorem node_keeps_exchange (h : Run Machine.Step (Machine.boot env engine fs) ts m)
    (ho : ∀ x ∈ ts, Machine.Orderly x) :
    (Run System.Step (System.boot env engine fs) (Machine.serverTrace ts) m.system ∧
      Disciplined (Machine.serverTrace ts)) ∧
    (∀ tid, m.answers tid ≠ [] → (m.threads tid).asked = true ∧ (m.answers tid).length = 1) ∧
    ∀ b, (∀ m' replies, m.serverStep b = some (m', replies) →
        ∀ reply ∈ replies, m.answers reply.tid = [] ∧ (m.threads reply.tid).asked = true) ∧
      (m.serverStep b = none → Machine.takeFrom m.queue b = none ∨ NotALookup m.system b) := by
  have hi := served_run h ho
  refine ⟨⟨hi.ran, hi.disciplined⟩, fun tid hne => one_answer hi hne, fun b => ⟨fun m' replies hstep => ?_, ?_⟩⟩
  · have hafter := served_step hi (orderly_server hi hstep) hstep
    obtain ⟨queue, system, hserver, rfl, _⟩ := serverStep_cases hstep
    intro reply hreply
    have hserver : System.Step m.system ⟨b, replies⟩ system := hserver
    obtain ⟨v, hv⟩ := deliver_once m.answers (System.replied_nodup hi.creationOnce hserver)
      (List.mem_map_of_mem hreply)
    have hne : Machine.deliver m.answers replies reply.tid ≠ [] := by
      rw [hv]
      exact List.append_ne_nil_of_right_ne_nil _ (List.cons_ne_nil _ _)
    obtain ⟨hasked, hone⟩ := one_answer hafter hne
    dsimp only at hone
    rw [hv, List.length_append, List.length_singleton] at hone
    exact ⟨List.eq_nil_of_length_eq_zero (by omega), hasked⟩
  · intro hnone
    cases htaken : Machine.takeFrom m.queue b with
    | none => exact .inl rfl
    | some queue =>
      have hfails : m.system.step b = none := by
        unfold Machine.serverStep at hnone
        rw [htaken] at hnone
        cases hstep : m.system.step b with
        | none => rfl
        | some result =>
          rw [Option.bind_eq_bind, Option.bind_some, hstep] at hnone
          cases hnone
      refine .inr (System.step_fails (System.lookups_found hi.ran hi.disciplined ?_) hfails)
      intro r hr
      subst hr
      rw [Machine.takeFrom] at htaken
      split_ifs at htaken with hhead
      obtain ⟨q, hq, hread⟩ := Option.bind_eq_some_iff.mp hhead
      have hsent := hi.readBack q (List.mem_of_mem_head? hq)
      obtain rfl := Option.some.inj (hsent.symm.trans hread)
      exact maySend_head hi.keeping (List.cons_head?_tail hq).symm q rfl

end

/-- A thread opens a file that nobody has made, and the server keeps it waiting. -/
def openMissing : List Action :=
  [.init 1 none 8, .server (.request (.handshakeAnonymous 1 1)), .server .call,
    .call 1 ⟨"/c".toList, "/c".toList⟩ emptyKernel DescriptorTables.initFilesystem
      (.descriptor (.openFile "/c/f".toList 0 3)),
    .send 1, .server (.request (.openFile 1 (-1) "/c/f".toList)), .server .call]

theorem openMissing_runs : ∃ ts m,
    Run Machine.Step (Machine.boot ⟨"/c".toList, none⟩ ⟨∅⟩ ⟨fun _ => none⟩) ts m ∧ (∀ x ∈ ts, Machine.Orderly x) ∧
    m.Holds 1 (.creation "/c/f".toList 0) := by
  obtain ⟨ts, m, hrun, _, hends⟩ := execute_any Machine.step
    (Machine.boot ⟨"/c".toList, none⟩ ⟨∅⟩ ⟨fun _ => none⟩) openMissing
    (fun ts m => decide (∀ x ∈ ts, Machine.Orderly x) &&
      (m.system.server.waitingCreation "/c/f".toList)[0]? == some 1) (by decide)
  obtain ⟨horderly, hwaiting⟩ := Bool.and_eq_true_iff.mp hends
  exact ⟨ts, m, hrun, of_decide_eq_true horderly, beq_iff_eq.mp hwaiting⟩

theorem question_in_one_place_openMissing : ∃ ts m,
    Run Machine.Step (Machine.boot ⟨"/c".toList, none⟩ ⟨∅⟩ ⟨fun _ => none⟩) ts m ∧
    (m.threads 1).asked = true ∧ ∀ p, m.Holds 1 p ↔ p = .creation "/c/f".toList 0 := by
  obtain ⟨ts, m, hrun, horderly, hwaiting⟩ := openMissing_runs
  obtain ⟨hunique, hasked, _⟩ := question_in_one_place hrun horderly 1
  refine ⟨ts, m, hrun, hasked ⟨_, hwaiting⟩, fun p => ⟨fun hp => hunique p _ hp hwaiting, ?_⟩⟩
  rintro rfl
  exact hwaiting

theorem node_keeps_exchange_openMissing : ∃ ts m,
    Run Machine.Step (Machine.boot ⟨"/c".toList, none⟩ ⟨∅⟩ ⟨fun _ => none⟩) ts m ∧
    m.Holds 1 (.creation "/c/f".toList 0) ∧ Disciplined (Machine.serverTrace ts) := by
  obtain ⟨ts, m, hrun, horderly, hwaiting⟩ := openMissing_runs
  exact ⟨ts, m, hrun, hwaiting, (node_keeps_exchange hrun horderly).1.2⟩

end Capio.Node
