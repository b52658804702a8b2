import Capio.Server.DeferredUnlock

/-! The answer to a `READ` that its handler gives at once, against the one that a scan gives to
the same thread waiting in the same state. -/
namespace Capio.Server
open Library CapioServer FileSystem

variable {server : CapioServer} {fs fs' gs : FileSystem} {path : CString} {tid fd : Tid}
  {endOfRead depth v : Nat} {committed : Bool}

/-- The same server with this thread waiting and nobody else. -/
def CapioServer.waitingAlone (server : CapioServer) (path : CString) (tid : Tid) (endOfRead : Nat) :
    CapioServer :=
  server.withFileManager { server.fileManager with
    threadAwaitingData := AList.insert path (AList.insert tid endOfRead ∅) ∅ }

def AnswersAtOnce (server : CapioServer) (fs : FileSystem) (path : CString) (tid fd : Tid)
    (endOfRead v : Nat) : Prop :=
  ∃ depth fs', Evaluation.readHandler depth server fs path tid fd endOfRead =
    some (([], [⟨tid, v⟩]), fs')

def AnswersLater (server : CapioServer) (fs : FileSystem) (path : CString) (tid : Tid)
    (endOfRead v : Nat) : Prop :=
  ∃ depth server' fs', Evaluation.checkAndUnlockThreadAwaitingData depth
    (server.waitingAlone path tid endOfRead) fs path = some (server', fs', [⟨tid, v⟩])

/-- Both give the same answers, and the handler does not throw where the scan answers. -/
def AnswersAgree (server : CapioServer) (fs : FileSystem) (path : CString) (tid fd : Tid)
    (endOfRead : Nat) : Prop :=
  (∀ v, AnswersAtOnce server fs path tid fd endOfRead v ↔
      AnswersLater server fs path tid endOfRead v) ∧
    ∀ v, AnswersLater server fs path tid endOfRead v →
      ∃ depth, Evaluation.readHandler depth server fs path tid fd endOfRead ≠ none

/-- `isCommitted` of the path, as the server evaluates it. -/
def CapioServer.Evaluates (server : CapioServer) (fs : FileSystem) (path : CString) (committed : Bool)
    (gs : FileSystem) : Prop :=
  Evaluation.Evaluates server.env server.clEngine fs path committed gs

/-- With this answer of `isCommitted`, the scan of the path answers the thread, if it is connected. -/
def ScanAnswers (server : CapioServer) (fs : FileSystem) (path : CString) (tid : Tid) (committed : Bool) :
    Prop :=
  server.isProducer path tid ≠ none ∧ server.LocksWith committed fs path tid

/-- What has to hold of a file that is not a directory and has this size. -/
structure FileAlike (server : CapioServer) (path : CString) (tid : Tid) (endOfRead : Nat)
    (committed : Bool) (size : Nat) : Prop where
  told : committed = true → size = ullongMax ∧ server.isProducer path tid ≠ none
  enough : committed = false → endOfRead ≤ size →
    server.isProducer path tid = some true ∨ server.isProducer path tid = some false ∧
      server.clEngine.getFireRule path = capioFileModeNoUpdate ∧ size ≤ unsignedTid tid
  short : committed = false → size < endOfRead → server.isProducer path tid = some false →
    ¬ (server.clEngine.getFireRule path = capioFileModeNoUpdate ∧ size ≤ unsignedTid tid)

/-- The states in which the two answers are the same: `isCommitted` is evaluated once, and the file
is looked at again with the directories that the evaluation has made. -/
structure ReadsAlike (server : CapioServer) (fs : FileSystem) (path : CString) (tid : Tid)
    (endOfRead : Nat) : Prop where
  unhandled : server.fileToBeHandled path = false → ∃ committed gs, server.Evaluates fs path committed gs ∧
    ScanAnswers server fs path tid committed ∧ awaitedSize gs path = some 1
  directory : server.fileToBeHandled path = true → ∀ committed gs, server.Evaluates fs path committed gs →
    gs.isDirectory path = true → ¬ ScanAnswers server fs path tid committed
  file : server.fileToBeHandled path = true → ∀ committed gs, server.Evaluates fs path committed gs →
    gs.isDirectory path = false → ∀ size, getFileSizeIfExists gs path = some size →
    FileAlike server path tid endOfRead committed size

theorem answersLater_iff : AnswersLater server fs path tid endOfRead v ↔
    ∃ committed gs, server.Evaluates fs path committed gs ∧ ScanAnswers server fs path tid committed ∧
      tid ∈ server.clientManager.bufsResponse ∧ awaitedSize gs path = some v := by
  have hwaiters : (server.waitingAlone path tid endOfRead).waiters path = [⟨tid, endOfRead⟩] := by
    unfold waiters waitingAlone
    rw [withFileManager_fileManager, AList.lookup_insert]
    rfl
  have hwaiting (u : Tid) (n : Nat) :
      (server.waitingAlone path tid endOfRead).waitingData path u = some n ↔ u = tid ∧ n = endOfRead := by
    rw [← mem_waiters (w := ⟨u, n⟩), hwaiters, List.mem_singleton]
    constructor
    · intro h
      cases h
      exact ⟨rfl, rfl⟩
    · rintro ⟨rfl, rfl⟩
      rfl
  constructor
  · rintro ⟨depth, server', fs', hscan⟩
    obtain ⟨turn, hturn, hs⟩ := evaluatedScan_turns hscan
    have hfirst : turn tid = fs :=
      (Option.some.inj (hturn 0 ⟨tid, endOfRead⟩ (by rw [hwaiters]; rfl))).symm
    obtain ⟨u, n, hw, hb⟩ := (hs.released ⟨tid, v⟩).mp (List.mem_singleton.mpr rfl)
    obtain ⟨rfl, rfl⟩ := (hwaiting u n).mp hw
    rw [hfirst] at hb
    obtain ⟨⟨verdict, gs⟩, hb, rfl⟩ := Option.map_eq_some_iff.mp hb
    obtain ⟨committed, heval, hproducer, ⟨hlock, hmem, size, hsize, hv⟩ | ⟨_, hv⟩⟩ := evaluated_eq_some_iff.mp hb
    · cases hv
      exact ⟨committed, gs, ⟨depth, heval⟩, ⟨hproducer, hlock⟩, hmem, hsize⟩
    · cases hv
  · rintro ⟨committed, gs, ⟨depth, heval⟩, ⟨hproducer, hlock⟩, hmem, hsize⟩
    have hb : Evaluation.unlockBody depth (server.waitingAlone path tid endOfRead) path fs tid endOfRead =
        some (some ⟨tid, v⟩, gs) :=
      evaluated_eq_some_iff.mpr ⟨committed, heval, hproducer, .inl ⟨hlock, hmem, v, hsize, rfl⟩⟩
    have hreturns : ∃ result, Evaluation.checkAndUnlockThreadAwaitingData depth
        (server.waitingAlone path tid endOfRead) fs path = some result := by
      apply evaluatedScan_returns
      intro i w hw
      rw [hwaiters] at hw
      obtain ⟨rfl, rfl⟩ : i = 0 ∧ w = ⟨tid, endOfRead⟩ := by
        cases i with
        | zero => exact ⟨rfl, (Option.some.inj hw).symm⟩
        | succ i => cases hw
      exact ⟨fs, rfl, by rw [hb]; simp⟩
    obtain ⟨⟨server', fs', replies⟩, hscan⟩ := hreturns
    obtain ⟨turn, hturn, hs⟩ := evaluatedScan_turns hscan
    have hfirst : turn tid = fs :=
      (Option.some.inj (hturn 0 ⟨tid, endOfRead⟩ (by rw [hwaiters]; rfl))).symm
    have hmem' (reply : Reply) : reply ∈ replies ↔ reply = ⟨tid, v⟩ := by
      rw [hs.released]
      constructor
      · rintro ⟨u, n, hw, hr⟩
        obtain ⟨rfl, rfl⟩ := (hwaiting u n).mp hw
        rw [hfirst, hb] at hr
        exact (Option.some.inj (Option.some.inj hr)).symm
      · rintro rfl
        exact ⟨tid, endOfRead, (hwaiting tid endOfRead).mpr ⟨rfl, rfl⟩, by rw [hfirst, hb]; rfl⟩
    -- one reply, since no thread is answered twice
    have hall := List.eq_replicate_of_mem fun reply hr => (hmem' reply).mp hr
    have hone := hs.once tid
    have hpos := List.length_pos_of_mem ((hmem' ⟨tid, v⟩).mpr rfl)
    rw [hall, List.map_replicate, List.count_replicate_self] at hone
    have hlength : replies.length = 1 := by omega
    rw [hlength] at hall
    exact ⟨depth, server', fs', by rw [hscan, hall]; rfl⟩

theorem readHandler_answer_iff :
    (∃ gs, Evaluation.readHandler depth server fs path tid fd endOfRead = some (([], [⟨tid, v⟩]), gs)) ↔
    tid ∈ server.clientManager.bufsResponse ∧
      ((server.fileToBeHandled path = false ∧ v = 1) ∨
        server.fileToBeHandled path = true ∧
          ∃ committed gs, Evaluation.isCommitted depth server fs path = some (committed, gs) ∧
            ∃ size, getFileSizeIfExists gs path = some size ∧
            v = (if committed then ullongMax else size) ∧
            (endOfRead ≤ size ∨ committed = true ∨ server.isProducer path tid = some true)) := by
  unfold Evaluation.readHandler ClientManager.replyToClient
  cases server.fileToBeHandled path with
  | false =>
    by_cases hmem : tid ∈ server.clientManager.bufsResponse
    · simp [hmem, eq_comm]
    · simp [hmem]
  | true =>
    cases Evaluation.isCommitted depth server fs path with
    | none => simp
    | some r =>
      obtain ⟨committed, gs⟩ := r
      have hone {P : Bool → FileSystem → Prop} :
          (∃ c hs, some (committed, gs) = some (c, hs) ∧ P c hs) ↔ P committed gs := by
        constructor
        · rintro ⟨c, hs, he, hp⟩
          cases he
          exact hp
        · exact fun hp => ⟨committed, gs, rfl, hp⟩
      rw [hone]
      cases hsize : getFileSizeIfExists gs path with
      | none => simp [hsize]
      | some size =>
        have hnow : (endOfRead ≤ size ∨ committed = true ∨ server.isProducer path tid = some true) ↔
            (endOfRead ≤ size ∨ committed = true) ∨ server.isProducer path tid = some true :=
          or_assoc.symm
        simp only [hnow, hsize, not_true_eq_false, if_false, Option.bind_eq_bind, Option.bind_some,
          Option.some.injEq, exists_eq_left', true_and, reduceCtorEq, false_and, false_or]
        generalize (if committed = true then ullongMax else size) = answer
        by_cases hmem : tid ∈ server.clientManager.bufsResponse
        · by_cases hyes : endOfRead ≤ size ∨ committed = true
          · simp only [hyes, hmem, if_true, Option.bind_some, true_or, true_and, and_true]
            simp [eq_comm]
          · cases server.isProducer path tid with
            | none => simp [hyes]
            | some producer => cases producer <;> simp [hyes, hmem, eq_comm]
        · by_cases hyes : endOfRead ≤ size ∨ committed = true
          · simp [hyes, hmem]
          · cases server.isProducer path tid with
            | none => simp [hyes]
            | some producer => cases producer <;> simp [hyes, hmem]

theorem answersAtOnce_iff : AnswersAtOnce server fs path tid fd endOfRead v ↔
    tid ∈ server.clientManager.bufsResponse ∧
      ((server.fileToBeHandled path = false ∧ v = 1) ∨
        server.fileToBeHandled path = true ∧ ∃ committed gs, server.Evaluates fs path committed gs ∧
          ∃ size, getFileSizeIfExists gs path = some size ∧
          v = (if committed then ullongMax else size) ∧
          (endOfRead ≤ size ∨ committed = true ∨ server.isProducer path tid = some true)) := by
  unfold AnswersAtOnce
  simp only [readHandler_answer_iff]
  constructor
  · rintro ⟨depth, hmem, hnot | ⟨hhandled, committed, gs, heval, hrest⟩⟩
    · exact ⟨hmem, .inl hnot⟩
    · exact ⟨hmem, .inr ⟨hhandled, committed, gs, ⟨depth, heval⟩, hrest⟩⟩
  · rintro ⟨hmem, hnot | ⟨hhandled, committed, gs, ⟨depth, heval⟩, hrest⟩⟩
    · exact ⟨0, hmem, .inl hnot⟩
    · exact ⟨depth, hmem, .inr ⟨hhandled, committed, gs, heval, hrest⟩⟩

/-- Directories made in the evaluation do not change what the scan measures, unless the path is one. -/
theorem awaitedSize_grown {made : CString → Prop} (h : Grows made fs gs) (hdir : gs.isDirectory path = false) :
    awaitedSize fs path = awaitedSize gs path := by
  have hnode : gs.node path = fs.node path := by
    cases hn : fs.node path with
    | none =>
      refine (h.missing path hn).resolve_right fun hm => ?_
      rw [hm.2] at hdir
      cases hdir
    | some n =>
      cases n with
      | file content => exact h.file path content hn
      | directory entries =>
        rw [h.isDirectory (isDirectory_iff.mpr ⟨entries, hn⟩)] at hdir
        cases hdir
  exact awaitedSize_congr hnode.symm

/-- A file: what the handler answers, if it does, against its size from the scan. -/
private theorem fileAlike_iff {size : Nat} (hsize : awaitedSize fs path = some size) :
    (∀ v, v = (if committed then ullongMax else size) ∧
        (endOfRead ≤ size ∨ committed = true ∨ server.isProducer path tid = some true) ↔
      ScanAnswers server fs path tid committed ∧ size = v) ↔
    FileAlike server path tid endOfRead committed size := by
  unfold ScanAnswers LocksWith
  rw [hsize]
  simp only [Option.some.injEq, exists_eq_left']
  cases committed with
  | true =>
    constructor
    · intro h
      obtain ⟨⟨hproducer, _⟩, hmax⟩ := (h ullongMax).mp ⟨rfl, .inr (.inl rfl)⟩
      exact ⟨fun _ => ⟨hmax, hproducer⟩, by simp, by simp⟩
    · intro h v
      obtain ⟨hmax, hproducer⟩ := h.told rfl
      simp [hproducer, hmax, eq_comm]
  | false =>
    cases hproducer : server.isProducer path tid with
    | none =>
      constructor
      · intro h
        refine ⟨by simp, fun _ hle => ?_, by simp [hproducer]⟩
        exact absurd rfl ((h size).mp ⟨rfl, .inl hle⟩).1.1
      · intro h v
        have hshort : ¬ endOfRead ≤ size := by
          intro hle
          rcases h.enough rfl hle with hp | ⟨hp, _⟩ <;> rw [hproducer] at hp <;> cases hp
        simp [hshort]
    | some producer =>
      cases producer with
      | true =>
        refine iff_of_true (fun v => by simp [eq_comm]) ⟨?_, ?_, ?_⟩
        · simp
        · exact fun _ _ => .inl hproducer
        · simp [hproducer]
      | false =>
        constructor
        · intro h
          refine ⟨by simp, fun _ hle => ?_, fun _ hlt _ hlock => ?_⟩
          · have hscan := ((h size).mp ⟨rfl, .inl hle⟩).1.2
            simpa [hproducer] using hscan
          · have hnow := ((h size).mpr ⟨⟨by simp, .inr (.inr hlock)⟩, rfl⟩).2
            simp only [Bool.false_eq_true, or_false, Option.some.injEq] at hnow
            omega
        · intro h v
          by_cases hle : endOfRead ≤ size
          · have hlock := h.enough rfl hle
            simp only [hproducer, Option.some.injEq, Bool.false_eq_true, true_and, false_or] at hlock
            simp [hle, hlock, eq_comm]
          · have hlock := h.short rfl (by omega) hproducer
            simp [hle, hlock]

theorem answersAgree_of_connected (hmem : tid ∈ server.clientManager.bufsResponse) :
    (∀ v, AnswersAtOnce server fs path tid fd endOfRead v ↔
      AnswersLater server fs path tid endOfRead v) ↔ ReadsAlike server fs path tid endOfRead := by
  simp only [answersAtOnce_iff, answersLater_iff, hmem, true_and]
  cases hhandled : server.fileToBeHandled path with
  | false =>
    simp only [true_and, Bool.false_eq_true, false_and, or_false]
    constructor
    · intro h
      exact ⟨fun _ => (h 1).mp rfl, by simp [hhandled], by simp [hhandled]⟩
    · intro h v
      obtain ⟨committed, gs, heval, hscan, hone⟩ := h.unhandled hhandled
      constructor
      · rintro rfl
        exact ⟨committed, gs, heval, hscan, hone⟩
      · rintro ⟨committed', gs', heval', _, hsize⟩
        obtain ⟨_, rfl⟩ := heval.unique heval'
        exact (Option.some.inj (hone.symm.trans hsize)).symm
  | true =>
    simp only [reduceCtorEq, false_and, true_and, false_or]
    by_cases heval : ∃ committed gs, server.Evaluates fs path committed gs
    · obtain ⟨committed, gs, heval⟩ := heval
      -- the one evaluation
      have hone {P : Bool → FileSystem → Prop} :
          (∃ c hs, server.Evaluates fs path c hs ∧ P c hs) ↔ P committed gs := by
        constructor
        · rintro ⟨c, hs, hc, hp⟩
          obtain ⟨rfl, rfl⟩ := heval.unique hc
          exact hp
        · exact fun hp => ⟨committed, gs, heval, hp⟩
      have hall {P : Bool → FileSystem → Prop} :
          (∀ c hs, server.Evaluates fs path c hs → P c hs) ↔ P committed gs := by
        constructor
        · exact fun h => h committed gs heval
        · intro hp c hs hc
          obtain ⟨rfl, rfl⟩ := heval.unique hc
          exact hp
      have hreads : ReadsAlike server fs path tid endOfRead ↔
          (gs.isDirectory path = true → ¬ ScanAnswers server fs path tid committed) ∧
          (gs.isDirectory path = false → ∀ size, getFileSizeIfExists gs path = some size →
            FileAlike server path tid endOfRead committed size) := by
        constructor
        · exact fun h => ⟨h.directory hhandled committed gs heval, h.file hhandled committed gs heval⟩
        · rintro ⟨hd, hf⟩
          exact ⟨by simp [hhandled], fun _ => hall.mpr hd, fun _ => hall.mpr hf⟩
      simp only [hone, hreads]
      cases hdir : gs.isDirectory path with
      | true =>
        have hthrows : getFileSizeIfExists gs path = none := by
          obtain ⟨entries, hn⟩ := isDirectory_iff.mp hdir
          unfold getFileSizeIfExists fileExists fileSize
          rw [hn]
          rfl
        have hunbounded : awaitedSize gs path = some ullongMax := if_pos hdir
        simp only [hthrows, hunbounded, reduceCtorEq, false_and, exists_false, false_iff, forall_true_left,
          false_imp_iff, and_true, not_and, Option.some.injEq]
        exact ⟨fun h hscan => h ullongMax hscan rfl, fun h _ hscan => absurd hscan h⟩
      | false =>
        have hsame : awaitedSize gs path = getFileSizeIfExists gs path := by
          rw [awaitedSize, hdir]
          rfl
        obtain ⟨size, hsize⟩ := exists_awaitedSize gs path
        have hfile : getFileSizeIfExists gs path = some size := hsame ▸ hsize
        have hbefore : awaitedSize fs path = some size := (awaitedSize_grown heval.grows hdir).trans hsize
        simp only [hfile, hsize, Option.some.injEq, exists_eq_left', forall_eq', reduceCtorEq, false_imp_iff,
          true_and, forall_true_left]
        exact fileAlike_iff hbefore
    · have hnone {P : Bool → FileSystem → Prop} : ¬ ∃ c hs, server.Evaluates fs path c hs ∧ P c hs := by
        rintro ⟨c, hs, hc, _⟩
        exact heval ⟨c, hs, hc⟩
      refine iff_of_true (fun v => iff_of_false hnone hnone) ⟨by simp [hhandled], ?_, ?_⟩
      · exact fun _ c hs hc => absurd ⟨c, hs, hc⟩ heval
      · exact fun _ c hs hc => absurd ⟨c, hs, hc⟩ heval

/-- The handler and the scan answer a client alike in these states and in no others. -/
theorem read_answers_agree_iff (server : CapioServer) (fs : FileSystem) (path : CString)
    (tid fd : Tid) (endOfRead : Nat) : AnswersAgree server fs path tid fd endOfRead ↔
      (tid ∈ server.clientManager.bufsResponse → ReadsAlike server fs path tid endOfRead) := by
  by_cases hmem : tid ∈ server.clientManager.bufsResponse
  · rw [forall_prop_of_true hmem, ← answersAgree_of_connected hmem]
    refine and_iff_left_of_imp fun h v hlater => ?_
    obtain ⟨depth, fs', hnow⟩ := (h v).mpr hlater
    exact ⟨depth, by rw [hnow]; simp⟩
  · -- nobody can be answered
    refine iff_of_true ⟨fun v => ?_, fun v hlater => ?_⟩ (fun h => absurd h hmem)
    · rw [answersAtOnce_iff, answersLater_iff]
      simp [hmem]
    · obtain ⟨_, _, _, _, hconnected, _⟩ := answersLater_iff.mp hlater
      exact absurd hconnected hmem

/-- A committed file of three bytes, and its token below the directory of the workflow. -/
def committedFile : FileSystem :=
  ⟨fun p => if p = "/c/f".toList ∨ p = "/c/.capio_metadata/c/f.capio".toList
    then some (.file "abc".toList)
    else if p = "/c".toList then some (.directory ["f".toList, ".capio_metadata".toList])
    else if p = "/c/.capio_metadata".toList then some (.directory ["c".toList])
    else if p = "/c/.capio_metadata/c".toList then some (.directory ["f.capio".toList])
    else none⟩

/-- The handler tells the client that the file is committed, the scan tells it the size. -/
theorem committed_file_told_size : ¬ ∀ (server : CapioServer) (fs : FileSystem) (path : CString)
    (tid fd : Tid) (endOfRead : Nat), AnswersAgree server fs path tid fd endOfRead := by
  intro h
  have hmem : 7 ∈ earlyWaiter.clientManager.bufsResponse := by decide
  have halike := (answersAgree_of_connected hmem).mp
    (h earlyWaiter committedFile "/c/f".toList 7 3 10).1
  obtain ⟨⟨committed, gs⟩, heval, hanswer⟩ : ∃ r, Evaluation.isCommittedWithin earlyWaiter.env earlyWaiter.clEngine 1
      committedFile "/c/f".toList = some r ∧ (r.1, r.2.isDirectory "/c/f".toList,
        getFileSizeIfExists r.2 "/c/f".toList) = (true, false, some 3) :=
    Option.map_eq_some_iff.mp (by decide +kernel)
  obtain ⟨rfl, hdir, hsize⟩ : committed = true ∧ gs.isDirectory "/c/f".toList = false ∧
      getFileSizeIfExists gs "/c/f".toList = some 3 := by simpa using hanswer
  have hmax := ((halike.file (by decide) true gs ⟨1, heval⟩ hdir 3 hsize).told rfl).1
  exact absurd hmax (by decide)

end Capio.Server
