import Capio.Server.CommitEvaluation
import Capio.Server.WaitingTables

/-! Which of the threads waiting for data of a path one scan releases, against those that are ready
for it. The scan holds the size against the number of the thread, not against its expected size. -/
namespace Capio.Server.CapioServer
open Library

/-- The path holds the expected bytes; a directory holds any number of them. -/
def HasBytes (fs : FileSystem) (path : CString) (expected : Nat) : Prop :=
  fs.isDirectory path = true ∨ ∃ size, getFileSizeIfExists fs path = some size ∧ expected ≤ size

/-- A waiting thread that may go on. -/
def Ready (server : CapioServer) (fs : FileSystem) (path : CString) (tid : Tid) (expected : Nat) :
    Prop :=
  Evaluation.Answers server.env server.clEngine fs path true ∨ server.isProducer path tid = some true ∨
    server.clEngine.getFireRule path = capioFileModeNoUpdate ∧ HasBytes fs path expected

/-- The ready threads of the path are answered once and leave, all others stay as they are. -/
structure ReleasesReady (server : CapioServer) (fs : FileSystem) (path : CString)
    (server' : CapioServer) (replies : List Reply) : Prop where
  ready : ∀ tid expected, server.waitingData path tid = some expected →
    server.Ready fs path tid expected →
    server'.waitingData path tid = none ∧ (replies.map Reply.tid).count tid = 1
  kept : ∀ tid expected, server.waitingData path tid = some expected →
    ¬ server.Ready fs path tid expected →
    server'.waitingData path tid = some expected ∧ tid ∉ replies.map Reply.tid
  nobodyElse : ∀ tid, server.waitingData path tid = none →
    server'.waitingData path tid = none ∧ tid ∉ replies.map Reply.tid
  others : ∀ q, q ≠ path → ∀ tid, server'.waitingData q tid = server.waitingData q tid

def UnlocksReady (server : CapioServer) (fs : FileSystem) (path : CString) : Prop :=
  ∃ depth server' fs' replies,
    Evaluation.checkAndUnlockThreadAwaitingData depth server fs path = some (server', fs', replies) ∧
      server.ReleasesReady fs path server' replies

/-- The threads that wait for data of the path, in the order of the loop. -/
def waiters (server : CapioServer) (path : CString) : List (Σ _ : Tid, Nat) :=
  (server.fileManager.threadAwaitingData.lookup path).elim [] AList.entries

/-- The file system after so many evaluations of `isCommitted` of the path. -/
def afterEvaluations (server : CapioServer) (depth : Nat) (path : CString) (count : Nat)
    (fs : FileSystem) : Option FileSystem :=
  UnorderedMap.stateAfter (fun fs => (Evaluation.isCommitted depth server fs path).map Prod.snd) count fs

/-- `lock_condition` of the loop, with the answer of `isCommitted`. -/
def LocksWith (server : CapioServer) (committed : Bool) (fs : FileSystem) (path : CString) (tid : Tid) :
    Prop :=
  committed = true ∨ server.isProducer path tid = some true ∨
    server.clEngine.getFireRule path = capioFileModeNoUpdate ∧
      ∃ size, awaitedSize fs path = some size ∧ size ≤ unsignedTid tid

/-- A thread that the scan treats as it should, when it comes to it with these files: nothing throws,
and where it is no producer, the evaluation at that moment and the comparison with its number say
what the evaluation at the start and its expected size say. -/
structure ComparedAlike (server : CapioServer) (depth : Nat) (fs gs : FileSystem) (path : CString)
    (tid : Tid) (expected : Nat) : Prop where
  decided : Evaluation.isCommitted depth server gs path ≠ none ∧ server.isProducer path tid ≠ none
  connected : server.Ready fs path tid expected → tid ∈ server.clientManager.bufsResponse
  alike : server.isProducer path tid = some false →
    (((∃ hs, Evaluation.isCommitted depth server gs path = some (true, hs)) ∨
        server.clEngine.getFireRule path = capioFileModeNoUpdate ∧
          (∃ size, awaitedSize gs path = some size ∧ size ≤ unsignedTid tid)) ↔
      (Evaluation.Answers server.env server.clEngine fs path true ∨
        server.clEngine.getFireRule path = capioFileModeNoUpdate ∧ HasBytes fs path expected))

variable {server server' : CapioServer} {fs fs' gs hs : FileSystem} {path : CString} {tid : Tid}
  {expected depth : Nat} {replies : List Reply}

/-! ### The loop with a pure commit state -/

/-- `lock_condition` of the loop. -/
def LockCondition (server : CapioServer) (fs : FileSystem) (path : CString) (tid : Tid) : Prop :=
  server.isCommitted fs path = some true ∨ server.isProducer path tid = some true ∨
    server.clEngine.getFireRule path = capioFileModeNoUpdate ∧
      ∃ size, awaitedSize fs path = some size ∧ size ≤ unsignedTid tid

/-- What the loop body decides on a thread. -/
theorem unlockBody_eq_some_iff {verdict : Option Reply} :
    server.unlockBody fs path tid expected = some verdict ↔
      (server.isCommitted fs path ≠ none ∧ server.isProducer path tid ≠ none) ∧
        ((server.LockCondition fs path tid ∧ tid ∈ server.clientManager.bufsResponse ∧
            ∃ size, awaitedSize fs path = some size ∧ verdict = some ⟨tid, size⟩) ∨
          ¬ server.LockCondition fs path tid ∧ verdict = none) := by
  obtain ⟨size, hsize⟩ := exists_awaitedSize fs path
  unfold unlockBody LockCondition ClientManager.replyToClient
  rw [hsize]
  cases server.isCommitted fs path with
  | none => simp
  | some committed =>
    cases server.isProducer path tid with
    | none => simp
    | some producer =>
      simp only [Option.bind_eq_bind, Option.bind_some, Bool.or_eq_true, Bool.and_eq_true,
        decide_eq_true_eq, Option.some.injEq, exists_eq_left', ne_eq, reduceCtorEq,
        not_false_eq_true, true_and, or_assoc, and_comm (a := size ≤ unsignedTid tid)]
      split_ifs with hlock hmem
      · rw [Option.bind_some, Option.some.injEq, eq_comm]
        simp only [hlock, hmem, true_and, not_true_eq_false, false_and, or_false]
      · simp [hlock, hmem]
      · rw [Option.some.injEq, eq_comm]
        simp only [hlock, false_and, not_false_eq_true, true_and, false_or]

theorem unlockBody_keep_iff : server.unlockBody fs path tid expected = some none ↔
    (server.isCommitted fs path ≠ none ∧ server.isProducer path tid ≠ none) ∧
      ¬ server.LockCondition fs path tid := by
  rw [unlockBody_eq_some_iff]
  simp only [reduceCtorEq, and_false, exists_false, false_or, and_true]

/-! ### The loop and its evaluations -/

theorem evaluated_eq_some_iff {verdict : Option Reply} :
    Evaluation.unlockBody depth server path gs tid expected = some (verdict, hs) ↔
      ∃ committed, Evaluation.isCommitted depth server gs path = some (committed, hs) ∧
        server.isProducer path tid ≠ none ∧
        ((server.LocksWith committed gs path tid ∧ tid ∈ server.clientManager.bufsResponse ∧
            ∃ size, awaitedSize hs path = some size ∧ verdict = some ⟨tid, size⟩) ∨
          ¬ server.LocksWith committed gs path tid ∧ verdict = none) := by
  obtain ⟨size, hsize⟩ := exists_awaitedSize gs path
  unfold Evaluation.unlockBody LocksWith ClientManager.replyToClient
  rw [hsize]
  cases heval : Evaluation.isCommitted depth server gs path with
  | none => simp
  | some r =>
    obtain ⟨committed, left⟩ := r
    obtain ⟨offset, hoffset⟩ := exists_awaitedSize left path
    cases server.isProducer path tid with
    | none => simp
    | some producer =>
      simp only [Option.bind_eq_bind, Option.bind_some, Bool.or_eq_true, Bool.and_eq_true,
        decide_eq_true_eq, Option.some.injEq, exists_eq_left', ne_eq, reduceCtorEq,
        not_false_eq_true, true_and, or_assoc, and_comm (a := size ≤ unsignedTid tid), hoffset,
        Prod.mk.injEq]
      constructor
      · intro h
        split_ifs at h with hlock hmem
        · simp only [Option.bind_some, Option.some.injEq, Prod.mk.injEq] at h
          obtain ⟨rfl, rfl⟩ := h
          exact ⟨committed, ⟨rfl, rfl⟩, .inl ⟨hlock, hmem, offset, hoffset, rfl⟩⟩
        · cases h
        · simp only [Option.some.injEq, Prod.mk.injEq] at h
          obtain ⟨rfl, rfl⟩ := h
          exact ⟨committed, ⟨rfl, rfl⟩, .inr ⟨hlock, rfl⟩⟩
      · rintro ⟨_, ⟨rfl, rfl⟩, ⟨hlock, hmem, offset', hoffset', rfl⟩ | ⟨hlock, rfl⟩⟩
        · obtain rfl := Option.some.inj (hoffset.symm.trans hoffset')
          rw [if_pos hlock, if_pos hmem]
          rfl
        · rw [if_neg hlock]

theorem mem_waiters {w : Σ _ : Tid, Nat} : w ∈ server.waiters path ↔ server.waitingData path w.1 = some w.2 := by
  unfold waiters waitingData
  cases server.fileManager.threadAwaitingData.lookup path with
  | none => simp
  | some threads => exact AList.mem_lookup_iff.symm

private theorem evaluated_next (gs : FileSystem) (tid : Tid) (expected : Nat) (verdict : Option Reply)
    (hs : FileSystem) (h : Evaluation.unlockBody depth server path gs tid expected = some (verdict, hs)) :
    (Evaluation.isCommitted depth server gs path).map Prod.snd = some hs := by
  obtain ⟨committed, heval, _⟩ := evaluated_eq_some_iff.mp h
  rw [heval]
  rfl

/-- Every waiting thread has its turn, with the files that the evaluations before have left. -/
theorem evaluatedScan_turns
    (h : Evaluation.checkAndUnlockThreadAwaitingData depth server fs path = some (server', fs', replies)) :
    ∃ turn : Tid → FileSystem,
      (∀ i w, (server.waiters path)[i]? = some w →
        server.afterEvaluations depth path i fs = some (turn w.1)) ∧
      ScannedBy (fun tid expected =>
          (Evaluation.unlockBody depth server path (turn tid) tid expected).map Prod.fst)
        server path server' replies := by
  unfold Evaluation.checkAndUnlockThreadAwaitingData at h
  cases hl : server.fileManager.threadAwaitingData.lookup path with
  | none =>
    simp only [hl] at h
    cases h
    exact ⟨fun _ => fs, by simp [waiters, hl], scannedBy_nobody _ hl⟩
  | some threads =>
    simp only [hl] at h
    obtain ⟨⟨kept, out, left⟩, hsweep, he⟩ := Option.bind_eq_some_iff.mp h
    cases he
    obtain ⟨turn, hturn, hdrain⟩ := UnorderedMap.sweep_turns evaluated_next hsweep
    refine ⟨turn, ?_, scannedBy_of_drain ?_ hl hdrain⟩
    · intro i w hw
      rw [waiters, hl] at hw
      exact hturn i w hw
    · intro tid expected reply hb
      obtain ⟨⟨verdict, hs⟩, hb, rfl⟩ := Option.map_eq_some_iff.mp hb
      obtain ⟨_, _, _, ⟨_, _, _, _, hv⟩ | ⟨_, hv⟩⟩ := evaluated_eq_some_iff.mp hb
      · cases hv
        rfl
      · cases hv

/-- The scan returns when every turn does. -/
theorem evaluatedScan_returns
    (h : ∀ i w, (server.waiters path)[i]? = some w → ∃ gs, server.afterEvaluations depth path i fs = some gs ∧
      Evaluation.unlockBody depth server path gs w.1 w.2 ≠ none) :
    ∃ result, Evaluation.checkAndUnlockThreadAwaitingData depth server fs path = some result := by
  unfold Evaluation.checkAndUnlockThreadAwaitingData
  cases hl : server.fileManager.threadAwaitingData.lookup path with
  | none =>
    simp only [hl]
    exact ⟨_, rfl⟩
  | some threads =>
    simp only [hl]
    rw [waiters, hl] at h
    obtain ⟨⟨kept, out, left⟩, hsweep⟩ := UnorderedMap.sweep_returns evaluated_next h
    rw [hsweep]
    exact ⟨_, rfl⟩

/-! ### Readiness -/

/-- The lock condition at its turn is readiness at the start, for a thread that is treated as it should be. -/
theorem locksWith_iff_ready (h : server.ComparedAlike depth fs gs path tid expected) {committed : Bool}
    (heval : Evaluation.isCommitted depth server gs path = some (committed, hs)) :
    server.LocksWith committed gs path tid ↔ server.Ready fs path tid expected := by
  obtain ⟨producer, hproducer⟩ := Option.ne_none_iff_exists'.mp h.decided.2
  have halike := h.alike
  unfold LocksWith Ready
  rw [hproducer] at halike ⊢
  cases producer with
  | true => simp
  | false =>
    simp only [Option.some.injEq, Bool.false_eq_true, false_or] at halike ⊢
    rw [← halike trivial, heval]
    simp

/-- What the body decides on a thread that is treated as it should be. -/
theorem evaluated_of_comparedAlike (h : server.ComparedAlike depth fs gs path tid expected) :
    ∃ hs, (server.Ready fs path tid expected →
        ∃ size, Evaluation.unlockBody depth server path gs tid expected = some (some ⟨tid, size⟩, hs)) ∧
      (¬ server.Ready fs path tid expected →
        Evaluation.unlockBody depth server path gs tid expected = some (none, hs)) := by
  obtain ⟨⟨committed, hs⟩, heval⟩ := Option.ne_none_iff_exists'.mp h.decided.1
  have hlock := locksWith_iff_ready h heval
  obtain ⟨size, hsize⟩ := exists_awaitedSize hs path
  refine ⟨hs, fun hr => ⟨size, ?_⟩, fun hr => ?_⟩
  · exact evaluated_eq_some_iff.mpr
      ⟨committed, heval, h.decided.2, .inl ⟨hlock.mpr hr, h.connected hr, size, hsize, rfl⟩⟩
  · exact evaluated_eq_some_iff.mpr ⟨committed, heval, h.decided.2, .inr ⟨mt hlock.mp hr, rfl⟩⟩

theorem unlocksReady_of_comparedAlike
    (h : ∀ i w, (server.waiters path)[i]? = some w → ∃ gs, server.afterEvaluations depth path i fs = some gs ∧
      server.ComparedAlike depth fs gs path w.1 w.2) : server.UnlocksReady fs path := by
  obtain ⟨⟨server', fs', replies⟩, hscan⟩ := evaluatedScan_returns fun i w hw => by
    obtain ⟨gs, hgs, halike⟩ := h i w hw
    refine ⟨gs, hgs, ?_⟩
    obtain ⟨hs, hrelease, hkeep⟩ := evaluated_of_comparedAlike halike
    by_cases hr : server.Ready fs path w.1 w.2
    · obtain ⟨size, hb⟩ := hrelease hr
      simp [hb]
    · simp [hkeep hr]
  obtain ⟨turn, hturn, hs⟩ := evaluatedScan_turns hscan
  have hbody {tid : Tid} {expected : Nat} (hw : server.waitingData path tid = some expected) :
      server.ComparedAlike depth fs (turn tid) path tid expected := by
    obtain ⟨i, hi⟩ := List.mem_iff_getElem?.mp (mem_waiters.mpr hw : (⟨tid, expected⟩ : Σ _ : Tid, Nat) ∈ _)
    obtain ⟨gs, hgs, halike⟩ := h i _ hi
    obtain rfl := Option.some.inj (hgs.symm.trans (hturn i _ hi))
    exact halike
  have hrelease {tid : Tid} {expected : Nat} (hw : server.waitingData path tid = some expected)
      (hr : server.Ready fs path tid expected) : ∃ size,
        (Evaluation.unlockBody depth server path (turn tid) tid expected).map Prod.fst = some (some ⟨tid, size⟩) := by
    obtain ⟨_, hyes, _⟩ := evaluated_of_comparedAlike (hbody hw)
    obtain ⟨size, hb⟩ := hyes hr
    exact ⟨size, by rw [hb]; rfl⟩
  have hkeep {tid : Tid} {expected : Nat} (hw : server.waitingData path tid = some expected)
      (hr : ¬ server.Ready fs path tid expected) :
      (Evaluation.unlockBody depth server path (turn tid) tid expected).map Prod.fst = some none := by
    obtain ⟨_, _, hno⟩ := evaluated_of_comparedAlike (hbody hw)
    rw [hno hr]
    rfl
  have hanswered {tid : Tid} (ht : tid ∈ replies.map Reply.tid) :
      ∃ expected, server.waitingData path tid = some expected ∧ server.Ready fs path tid expected := by
    obtain ⟨reply, hr, rfl⟩ := List.mem_map.mp ht
    obtain ⟨u, expected, hw, hb⟩ := (hs.released reply).mp hr
    have hready : server.Ready fs path u expected := by
      by_contra hnot
      rw [hkeep hw hnot] at hb
      cases hb
    obtain ⟨size, hb'⟩ := hrelease hw hready
    rw [hb', Option.some.injEq, Option.some.injEq] at hb
    exact ⟨expected, hb ▸ hw, hb ▸ hready⟩
  refine ⟨depth, server', fs', replies, hscan, ?_⟩
  constructor
  case ready =>
    intro tid expected hw hr
    obtain ⟨size, hb⟩ := hrelease hw hr
    constructor
    · refine Option.eq_none_iff_forall_ne_some.mpr fun n hn => ?_
      obtain ⟨hw', hb'⟩ := (hs.kept tid n).mp hn
      obtain rfl : expected = n := Option.some.inj (hw.symm.trans hw')
      rw [hb] at hb'
      cases hb'
    · have hmem : tid ∈ replies.map Reply.tid :=
        List.mem_map.mpr ⟨⟨tid, size⟩, (hs.released _).mpr ⟨tid, expected, hw, hb⟩, rfl⟩
      have hpos := List.count_pos_iff.mpr hmem
      have hone := hs.once tid
      omega
  case kept =>
    intro tid expected hw hr
    refine ⟨(hs.kept tid expected).mpr ⟨hw, hkeep hw hr⟩, fun ht => ?_⟩
    obtain ⟨n, hw', hr'⟩ := hanswered ht
    obtain rfl : expected = n := Option.some.inj (hw.symm.trans hw')
    exact hr hr'
  case nobodyElse =>
    intro tid hnone
    constructor
    · refine Option.eq_none_iff_forall_ne_some.mpr fun n hn => ?_
      rw [((hs.kept tid n).mp hn).1] at hnone
      cases hnone
    · intro ht
      obtain ⟨n, hw, _⟩ := hanswered ht
      rw [hw] at hnone
      cases hnone
  case others =>
    intro q hq tid
    unfold waitingData
    rw [hs.others q hq]

/-- A released thread was ready, and a thread that stays was not. -/
theorem comparedAlike_of_releases (hall : server.ReleasesReady fs path server' replies) {turn : Tid → FileSystem}
    (hs : ScannedBy (fun tid expected =>
      (Evaluation.unlockBody depth server path (turn tid) tid expected).map Prod.fst) server path server' replies)
    (hw : server.waitingData path tid = some expected) :
    server.ComparedAlike depth fs (turn tid) path tid expected := by
  obtain ⟨⟨verdict, left⟩, hb⟩ := Option.isSome_iff_exists.mp
    ((Option.isSome_map ..).symm.trans (hs.decided tid expected hw))
  obtain ⟨committed, heval, hproducer, hdecision⟩ := evaluated_eq_some_iff.mp hb
  have hready : server.Ready fs path tid expected →
      server.LocksWith committed (turn tid) path tid ∧ tid ∈ server.clientManager.bufsResponse := by
    intro hr
    rcases hdecision with ⟨hlock, hmem, _⟩ | ⟨_, rfl⟩
    · exact ⟨hlock, hmem⟩
    · have hstay := (hs.kept tid expected).mpr ⟨hw, by rw [hb]; rfl⟩
      rw [(hall.ready tid expected hw hr).1] at hstay
      cases hstay
  have hlock : server.LocksWith committed (turn tid) path tid → server.Ready fs path tid expected := by
    intro hl
    by_contra hr
    have hstay := ((hs.kept tid expected).mp (hall.kept tid expected hw hr).1).2
    rcases hdecision with ⟨_, _, size, _, rfl⟩ | ⟨hnot, _⟩
    · rw [hb] at hstay
      cases hstay
    · exact hnot hl
  refine ⟨⟨by simp [heval], hproducer⟩, fun hr => (hready hr).2, fun hno => ?_⟩
  have hsame : server.LocksWith committed (turn tid) path tid ↔ server.Ready fs path tid expected :=
    ⟨hlock, fun hr => (hready hr).1⟩
  unfold LocksWith Ready at hsame
  simpa [hno, heval] using hsame

/-- The scan releases exactly the ready threads when it treats each of them, in its turn, as it should. -/
theorem unlocks_ready_iff (server : CapioServer) (fs : FileSystem) (path : CString) :
    server.UnlocksReady fs path ↔ ∃ depth, ∀ i w, (server.waiters path)[i]? = some w →
      ∃ gs, server.afterEvaluations depth path i fs = some gs ∧
        server.ComparedAlike depth fs gs path w.1 w.2 := by
  constructor
  · rintro ⟨depth, server', fs', replies, hscan, hall⟩
    obtain ⟨turn, hturn, hs⟩ := evaluatedScan_turns hscan
    refine ⟨depth, fun i w hw => ⟨turn w.1, hturn i w hw, comparedAlike_of_releases hall hs ?_⟩⟩
    exact mem_waiters.mp (List.mem_of_getElem? hw)
  · rintro ⟨depth, h⟩
    exact unlocksReady_of_comparedAlike h

/-- Thread 7 waits for ten bytes of a file of three that may be read while it is written. -/
def earlyWaiter : CapioServer where
  env := ⟨"/c".toList, none⟩
  clientManager := ClientManager.initial.registerNewClient 7 "app".toList
  clEngine := ⟨AList.insert "/c/f".toList
    { producers := [], consumers := [], commitRule := capioFileCommittedOnTermination,
      fireRule := capioFileModeNoUpdate, permanent := false, exclude := false, isFile := true,
      commitOnCloseNumber := -1, directoryFileCount := -1, fileDependencies := [] } ∅⟩
  fileManager := ⟨∅, AList.insert "/c/f".toList (AList.insert 7 10 ∅) ∅⟩

/-- The file of three bytes in the directory of the workflow. -/
def shortFile : FileSystem :=
  ⟨fun p => if p = "/c".toList then some (.directory ["f".toList])
    else if p = "/c/f".toList then some (.file "abc".toList) else none⟩

/-- The thread is released although seven bytes are missing. -/
theorem early_waiter_released : ¬ ∀ (server : CapioServer) (fs : FileSystem) (path : CString),
    server.UnlocksReady fs path := by
  intro h
  obtain ⟨depth, server', fs', replies, hscan, hall⟩ := h earlyWaiter shortFile "/c/f".toList
  obtain ⟨turn, hturn, hs⟩ := evaluatedScan_turns hscan
  have halike := comparedAlike_of_releases hall hs
    (show earlyWaiter.waitingData "/c/f".toList 7 = some 10 by decide)
  have hfirst : turn 7 = shortFile := (Option.some.inj (hturn 0 ⟨7, 10⟩ (by decide))).symm
  rw [hfirst] at halike
  obtain ⟨r, heval, hanswer⟩ : ∃ r, Evaluation.isCommittedWithin earlyWaiter.env earlyWaiter.clEngine 1
      shortFile "/c/f".toList = some r ∧ r.1 = false :=
    Option.map_eq_some_iff.mp (by decide +kernel)
  rcases (halike.alike (by decide)).mp (.inr ⟨by decide, 3, by decide, by decide⟩) with hc | ⟨_, hdir | ⟨size, hsize, hle⟩⟩
  · rw [Evaluation.answers_iff heval, hanswer] at hc
    cases hc
  · exact absurd hdir (by decide)
  · have hthree : getFileSizeIfExists shortFile "/c/f".toList = some 3 := by decide
    rw [hthree, Option.some.injEq] at hsize
    omega

end Capio.Server.CapioServer
