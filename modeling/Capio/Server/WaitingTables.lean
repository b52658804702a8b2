import Capio.Server.Decisions
import Capio.Server.System

/-! What each call does to the two tables of waiting threads, to the client
tables and to the location table. -/
namespace Capio.Server
open Library

namespace CapioServer

/-- The registrations for the creation of a path, oldest first. -/
def waitingCreation (server : CapioServer) (path : CString) : List Tid :=
  (server.fileManager.threadAwaitingFileCreation.lookup path).getD []

/-- The expected size a thread is registered with for the data of a path. -/
def waitingData (server : CapioServer) (path : CString) (tid : Tid) : Option Nat :=
  (server.fileManager.threadAwaitingData.lookup path).bind (fun threads => threads.lookup tid)

/-- A path is a key of the data table exactly when a thread waits for it. -/
def DataKeysNonempty (server : CapioServer) : Prop :=
  ∀ path threads, server.fileManager.threadAwaitingData.lookup path = some threads → threads.keys ≠ []

@[simp] theorem withFileManager_fileManager (server : CapioServer) (fm : CapioFileManager) :
    (server.withFileManager fm).fileManager = fm := rfl

theorem waitingCreation_add (server : CapioServer) (path q : CString) (tid : Tid) :
    (server.addThreadAwaitingCreation path tid).waitingCreation q =
      if q = path then server.waitingCreation path ++ [tid] else server.waitingCreation q := by
  unfold waitingCreation addThreadAwaitingCreation
  simp only [withFileManager_fileManager, UnorderedMap.lookup_insert_eq, UnorderedMap.lookup_emplace]
  split_ifs <;> simp

theorem waitingCreation_delete (server : CapioServer) (path q : CString) :
    (server.deleteFileAwaitingCreation path).waitingCreation q =
      if q = path then [] else server.waitingCreation q := by
  unfold waitingCreation deleteFileAwaitingCreation
  simp only [withFileManager_fileManager, UnorderedMap.lookup_erase_eq]
  split_ifs <;> simp

private theorem reply_values {cm : ClientManager} {offset : Nat} {tids : List Tid} {replies : List Reply}
    (h : tids.mapM (fun tid => cm.replyToClient tid offset) = some replies) :
    replies = tids.map (fun tid => ⟨tid, offset⟩) := by
  induction tids generalizing replies with
  | nil => simpa using h.symm
  | cons tid tids ih =>
    simp only [List.mapM_cons, Option.bind_eq_bind, Option.bind_eq_some_iff] at h
    obtain ⟨reply, hr, rest, hrest, he⟩ := h
    cases he
    rw [ih hrest, ClientManager.reply_spec hr]
    rfl

/-- Unlocking a path replies to each registration once and empties its entry. -/
theorem unlock_spec {server server' : CapioServer} {path : CString} {replies : List Reply}
    (h : server.unlockThreadAwaitingCreation path = some (server', replies)) :
    replies = (server.waitingCreation path).map (fun tid => ⟨tid, 1⟩) ∧
      server' = server.deleteFileAwaitingCreation path := by
  unfold unlockThreadAwaitingCreation at h
  unfold waitingCreation
  cases hl : server.fileManager.threadAwaitingFileCreation.lookup path with
  | none =>
    simp only [hl, Option.bind_eq_bind, Option.bind_some] at h
    cases h
    exact ⟨rfl, rfl⟩
  | some tids =>
    simp only [hl, Option.bind_eq_bind, Option.bind_eq_some_iff] at h
    obtain ⟨out, hout, he⟩ := h
    cases he
    exact ⟨reply_values hout, rfl⟩

theorem waitingData_add (server : CapioServer) (path q : CString) (tid u : Tid) (size : Nat) :
    (server.addThreadAwaitingData path tid size).waitingData q u =
      if q = path ∧ u = tid then some ((server.waitingData path tid).getD size)
      else server.waitingData q u := by
  unfold waitingData addThreadAwaitingData
  simp only [withFileManager_fileManager, UnorderedMap.lookup_insert_eq, UnorderedMap.lookup_emplace]
  by_cases hq : q = path
  · subst hq
    cases hl : server.fileManager.threadAwaitingData.lookup q with
    | none =>
      by_cases hu : u = tid
      · simp [UnorderedMap.lookup_emplace, hu]
      · simp [UnorderedMap.lookup_emplace, hu]
    | some threads =>
      by_cases hu : u = tid
      · simp [UnorderedMap.lookup_emplace, hu]
      · simp [UnorderedMap.lookup_emplace, hu]
  · simp [hq]

theorem dataKeys_add {server : CapioServer} (h : server.DataKeysNonempty) (path : CString) (tid : Tid)
    (size : Nat) : (server.addThreadAwaitingData path tid size).DataKeysNonempty := by
  intro q threads hl
  unfold addThreadAwaitingData at hl
  simp only [withFileManager_fileManager, UnorderedMap.lookup_insert_eq] at hl
  split_ifs at hl with hq
  · cases hl
    intro hk
    have hm : tid ∈ UnorderedMap.emplace
        (((UnorderedMap.emplace server.fileManager.threadAwaitingData path ∅).lookup path).getD ∅) tid size :=
      (UnorderedMap.mem_emplace _ _ _ _).mpr (.inl rfl)
    rw [AList.mem_keys, hk] at hm
    cases hm
  · rw [UnorderedMap.lookup_emplace, if_neg hq] at hl
    exact h q threads hl

theorem dataKeys_iff {server : CapioServer} (h : server.DataKeysNonempty) (path : CString) :
    path ∈ server.fileManager.threadAwaitingData ↔ ∃ tid size, server.waitingData path tid = some size := by
  constructor
  · intro hm
    obtain ⟨threads, hl⟩ := Option.isSome_iff_exists.mp (AList.lookup_isSome.mpr hm)
    obtain ⟨tid, ht⟩ := List.exists_mem_of_ne_nil _ (h path threads hl)
    obtain ⟨size, hs⟩ := Option.isSome_iff_exists.mp (AList.lookup_isSome.mpr (AList.mem_keys.mpr ht))
    exact ⟨tid, size, by rw [waitingData, hl, Option.bind_some, hs]⟩
  · rintro ⟨tid, size, hw⟩
    obtain ⟨threads, hl, _⟩ := Option.bind_eq_some_iff.mp hw
    exact AList.lookup_isSome.mp (by rw [hl]; rfl)

theorem exists_awaitedSize (fs : FileSystem) (path : CString) :
    ∃ size, awaitedSize fs path = some size := by
  unfold awaitedSize getFileSizeIfExists FileSystem.isDirectory FileSystem.fileExists
    FileSystem.fileSize
  cases fs.node path with
  | none => exact ⟨0, rfl⟩
  | some n =>
    cases n with
    | file content => exact ⟨content.length, rfl⟩
    | directory entries => exact ⟨ullongMax, rfl⟩

theorem awaitedSize_congr {fs fs' : FileSystem} {path : CString} (h : fs.node path = fs'.node path) :
    awaitedSize fs path = awaitedSize fs' path := by
  simp only [awaitedSize, getFileSizeIfExists, FileSystem.isDirectory, FileSystem.fileExists,
    FileSystem.fileSize, h]
  rfl

/-- The decision of the loop body on one waiting thread. -/
theorem unlockBody_spec {server : CapioServer} {fs : FileSystem} {path : CString} {tid : Tid} {size : Nat}
    {verdict : Option Reply} (h : server.unlockBody fs path tid size = some verdict) :
    ∃ filesize committed producer, awaitedSize fs path = some filesize ∧
      server.isCommitted fs path = some committed ∧ server.isProducer path tid = some producer ∧
      (verdict = some ⟨tid, filesize⟩ ∧ (committed = true ∨ producer = true ∨
          filesize ≤ unsignedTid tid ∧ server.clEngine.getFireRule path = capioFileModeNoUpdate) ∨
        verdict = none ∧ committed = false ∧ producer = false ∧
          ¬ (filesize ≤ unsignedTid tid ∧ server.clEngine.getFireRule path = capioFileModeNoUpdate)) := by
  simp only [unlockBody, Option.bind_eq_bind, Option.bind_eq_some_iff] at h
  obtain ⟨filesize, hsize, committed, hcommitted, producer, hproducer, h⟩ := h
  refine ⟨filesize, committed, producer, hsize, hcommitted, hproducer, ?_⟩
  split_ifs at h with hlock
  · obtain ⟨reply, hr, he⟩ := Option.bind_eq_some_iff.mp h
    cases he
    rw [ClientManager.reply_spec hr]
    exact .inl ⟨rfl, by simpa [or_assoc] using hlock⟩
  · cases h
    exact .inr ⟨rfl, by simpa [and_assoc] using hlock⟩

/-- Scanning a path: what the loop body released is replied to and leaves, every
other entry of every path stays. -/
structure ScannedBy (body : Tid → Nat → Option (Option Reply)) (server : CapioServer) (path : CString)
    (server' : CapioServer) (replies : List Reply) : Prop where
  decided : ∀ tid size, server.waitingData path tid = some size → (body tid size).isSome
  kept : ∀ tid size, server'.waitingData path tid = some size ↔
    server.waitingData path tid = some size ∧ body tid size = some none
  released : ∀ reply, reply ∈ replies ↔ ∃ tid size, server.waitingData path tid = some size ∧
    body tid size = some (some reply)
  once : ∀ tid, (replies.map Reply.tid).count tid ≤ 1
  others : ∀ q, q ≠ path → server'.fileManager.threadAwaitingData.lookup q =
    server.fileManager.threadAwaitingData.lookup q
  same : server' = server.withFileManager { server.fileManager with
    threadAwaitingData := server'.fileManager.threadAwaitingData }

private theorem keys_eq_nil_lookup {threads : UnorderedMap Tid Nat} (h : threads.keys = []) (tid : Tid) :
    threads.lookup tid = none := by
  rw [AList.lookup_eq_none, AList.mem_keys, h]
  exact List.not_mem_nil

/-- The table of the threads waiting for data when those of the path have been walked. -/
def tableAfter (server : CapioServer) (path : CString) (kept : UnorderedMap Tid Nat) :
    UnorderedMap CString (UnorderedMap Tid Nat) :=
  let table := server.fileManager.threadAwaitingData.insert path kept
  if kept.keys = [] then table.erase path else table

theorem lookup_tableAfter (server : CapioServer) (path q : CString) (kept : UnorderedMap Tid Nat) :
    (server.tableAfter path kept).lookup q =
      if q = path then (if kept.keys = [] then none else some kept)
      else server.fileManager.threadAwaitingData.lookup q := by
  unfold tableAfter
  dsimp only
  split_ifs with hk hq hq
  · rw [UnorderedMap.lookup_erase_eq, if_pos hq]
  · rw [UnorderedMap.lookup_erase_eq, if_neg hq, UnorderedMap.lookup_insert_eq, if_neg hq]
  · rw [UnorderedMap.lookup_insert_eq, if_pos hq]
  · rw [UnorderedMap.lookup_insert_eq, if_neg hq]

/-- The scan of a path nobody waits for. -/
theorem scannedBy_nobody (body : Tid → Nat → Option (Option Reply)) {server : CapioServer} {path : CString}
    (hl : server.fileManager.threadAwaitingData.lookup path = none) : ScannedBy body server path server [] := by
  constructor <;> simp [waitingData, hl, withFileManager]

/-- The scan of a path somebody waits for, whatever the body that answers each thread. -/
theorem scannedBy_of_drain {body : Tid → Nat → Option (Option Reply)} {server : CapioServer} {path : CString}
    {threads kept : UnorderedMap Tid Nat} {replies : List Reply}
    (hbody : ∀ tid size reply, body tid size = some (some reply) → reply.tid = tid)
    (hl : server.fileManager.threadAwaitingData.lookup path = some threads)
    (hd : UnorderedMap.drain body threads = some (kept, replies)) :
    ScannedBy body server path (server.withFileManager { server.fileManager with
      threadAwaitingData := server.tableAfter path kept }) replies := by
  have hwait (tid : Tid) : server.waitingData path tid = threads.lookup tid := by simp [waitingData, hl]
  have hwait' (tid : Tid) : (server.withFileManager { server.fileManager with
      threadAwaitingData := server.tableAfter path kept }).waitingData path tid = kept.lookup tid := by
    unfold waitingData
    rw [withFileManager_fileManager, lookup_tableAfter, if_pos rfl]
    split_ifs with hk
    · simpa using (keys_eq_nil_lookup hk tid).symm
    · rfl
  constructor
  case decided =>
    intro tid size hw
    exact UnorderedMap.drain_isSome hd tid size (hwait tid ▸ hw)
  case kept =>
    intro tid size
    rw [hwait, hwait']
    exact UnorderedMap.drain_lookup hd tid size
  case released =>
    intro reply
    simp only [hwait]
    exact UnorderedMap.drain_output hd reply
  case once => exact UnorderedMap.drain_output_once hd Reply.tid hbody
  case others =>
    intro q hq
    rw [withFileManager_fileManager, lookup_tableAfter, if_neg hq]
  case same => rfl

private theorem scan_found {server server' : CapioServer} {fs : FileSystem} {path : CString}
    {replies : List Reply} {threads : UnorderedMap Tid Nat}
    (hl : server.fileManager.threadAwaitingData.lookup path = some threads)
    (h : server.checkAndUnlockThreadAwaitingData fs path = some (server', replies)) :
    ∃ kept, UnorderedMap.drain (server.unlockBody fs path) threads = some (kept, replies) ∧
      server' = server.withFileManager { server.fileManager with
        threadAwaitingData := server.tableAfter path kept } := by
  unfold checkAndUnlockThreadAwaitingData at h
  simp only [hl, Option.bind_eq_bind, Option.bind_eq_some_iff] at h
  obtain ⟨⟨kept, out⟩, hd, he⟩ := h
  cases he
  exact ⟨kept, hd, rfl⟩

theorem checkAndUnlock_spec {server server' : CapioServer} {fs : FileSystem} {path : CString}
    {replies : List Reply} (h : server.checkAndUnlockThreadAwaitingData fs path = some (server', replies)) :
    ScannedBy (server.unlockBody fs path) server path server' replies := by
  cases hl : server.fileManager.threadAwaitingData.lookup path with
  | none =>
    have he : some (server, []) = some (server', replies) := by
      simpa only [checkAndUnlockThreadAwaitingData, hl] using h
    cases he
    exact scannedBy_nobody _ hl
  | some threads =>
    obtain ⟨kept, hd, rfl⟩ := scan_found hl h
    refine scannedBy_of_drain (fun tid size reply hb => ?_) hl hd
    obtain ⟨_, _, _, _, _, _, ⟨hv, _⟩ | ⟨hv, _⟩⟩ := unlockBody_spec hb
    · cases hv
      rfl
    · cases hv

theorem dataKeys_scan {server server' : CapioServer} {fs : FileSystem} {path : CString}
    {replies : List Reply} (hn : server.DataKeysNonempty)
    (h : server.checkAndUnlockThreadAwaitingData fs path = some (server', replies)) :
    server'.DataKeysNonempty := by
  cases hl : server.fileManager.threadAwaitingData.lookup path with
  | none =>
    have he : some (server, []) = some (server', replies) := by
      simpa only [checkAndUnlockThreadAwaitingData, hl] using h
    cases he
    exact hn
  | some threads =>
    obtain ⟨kept, _, rfl⟩ := scan_found hl h
    intro q inner hq
    rw [withFileManager_fileManager, lookup_tableAfter] at hq
    split_ifs at hq with he hk
    · cases hq; exact hk
    · exact hn q inner hq

end CapioServer

namespace Call

def touchesClients : Call → Bool
  | registerNewClient _ _ | removeClient _ => true
  | _ => false

def touchesLocations : Call → Bool
  | addProducer _ _ => true
  | _ => false

def touchesFiles : Call → Bool
  | createToken _ | increaseCloseCount _ => true
  | _ => false

def touchesCreation : Call → Bool
  | addThreadAwaitingCreation _ _ | unlockThreadAwaitingCreation _ | deleteFileAwaitingCreation _ => true
  | _ => false

def touchesData : Call → Bool
  | addThreadAwaitingData _ _ _ | checkAndUnlockThreadAwaitingData _ => true
  | _ => false

def replies : Call → Bool
  | unlockThreadAwaitingCreation _ | checkAndUnlockThreadAwaitingData _ => true
  | _ => false

/-- What a call leaves as it was. -/
structure Framed (c : Call) (server : CapioServer) (fs : FileSystem) (server' : CapioServer)
    (fs' : FileSystem) (out : List Reply) : Prop where
  env : server'.env = server.env
  clients : c.touchesClients = false → server'.clientManager = server.clientManager
  locations : c.touchesLocations = false → server'.clEngine = server.clEngine
  files : c.touchesFiles = false → fs' = fs
  creation : c.touchesCreation = false →
    server'.fileManager.threadAwaitingFileCreation = server.fileManager.threadAwaitingFileCreation
  data : c.touchesData = false →
    server'.fileManager.threadAwaitingData = server.fileManager.threadAwaitingData
  silent : c.replies = false → out = []

variable {server server' : CapioServer} {fs fs' : FileSystem} {c : Call} {out : List Reply}

theorem run_frame (h : c.run server fs = some (server', fs', out)) :
    Framed c server fs server' fs' out := by
  cases c with
  | unlockThreadAwaitingCreation path =>
    obtain ⟨⟨s, replies⟩, hu, he⟩ := Option.bind_eq_some_iff.mp h
    cases he
    rw [(CapioServer.unlock_spec hu).2]
    constructor <;> intros <;> first | rfl | contradiction
  | checkAndUnlockThreadAwaitingData path =>
    obtain ⟨⟨s, replies⟩, hu, he⟩ := Option.bind_eq_some_iff.mp h
    cases he
    rw [(CapioServer.checkAndUnlock_spec hu).same]
    constructor <;> intros <;> first | rfl | contradiction
  | addProducer path tid =>
    obtain ⟨s, hu, he⟩ := Option.bind_eq_some_iff.mp h
    cases he
    obtain ⟨name, _, hu⟩ := Option.bind_eq_some_iff.mp hu
    obtain ⟨engine, _, he⟩ := Option.bind_eq_some_iff.mp hu
    cases he
    constructor <;> intros <;> first | rfl | contradiction
  | increaseCloseCount path =>
    obtain ⟨s, hu, he⟩ := Option.bind_eq_some_iff.mp h
    cases he
    constructor <;> intros <;> first | rfl | contradiction
  | _ =>
    cases h
    constructor <;> intros <;> first | rfl | contradiction

/-- What a call does to the registrations for the creation of files. -/
theorem run_creation (h : c.run server fs = some (server', fs', out)) :
    (∃ path tid, c = .addThreadAwaitingCreation path tid ∧
      server' = server.addThreadAwaitingCreation path tid) ∨
    (∃ path, c = .unlockThreadAwaitingCreation path ∧
      out = (server.waitingCreation path).map (fun tid => ⟨tid, 1⟩) ∧
      server' = server.deleteFileAwaitingCreation path) ∨
    (∃ path, c = .deleteFileAwaitingCreation path ∧
      server' = server.deleteFileAwaitingCreation path) ∨
    (c.touchesCreation = false ∧ ∀ q, server'.waitingCreation q = server.waitingCreation q) := by
  cases c with
  | addThreadAwaitingCreation path tid =>
    cases h
    exact .inl ⟨path, tid, rfl, rfl⟩
  | unlockThreadAwaitingCreation path =>
    obtain ⟨⟨s, replies⟩, hu, he⟩ := Option.bind_eq_some_iff.mp h
    cases he
    exact .inr (.inl ⟨path, rfl, CapioServer.unlock_spec hu⟩)
  | deleteFileAwaitingCreation path =>
    cases h
    exact .inr (.inr (.inl ⟨path, rfl, rfl⟩))
  | _ =>
    refine .inr (.inr (.inr ⟨rfl, ?_⟩))
    intro q
    unfold CapioServer.waitingCreation
    rw [(run_frame h).creation rfl]

/-- What a call does to the threads waiting for data. -/
theorem run_data (h : c.run server fs = some (server', fs', out)) :
    (∃ path tid size, c = .addThreadAwaitingData path tid size ∧
      server' = server.addThreadAwaitingData path tid size) ∨
    (∃ path, c = .checkAndUnlockThreadAwaitingData path ∧
      server.checkAndUnlockThreadAwaitingData fs path = some (server', out)) ∨
    (c.touchesData = false ∧
      server'.fileManager.threadAwaitingData = server.fileManager.threadAwaitingData) := by
  cases c with
  | addThreadAwaitingData path tid size =>
    cases h
    exact .inl ⟨path, tid, size, rfl, rfl⟩
  | checkAndUnlockThreadAwaitingData path =>
    obtain ⟨⟨s, replies⟩, hu, he⟩ := Option.bind_eq_some_iff.mp h
    cases he
    exact .inr (.inl ⟨path, rfl, hu⟩)
  | _ => exact .inr (.inr ⟨rfl, (run_frame h).data rfl⟩)

/-- A registration that is there after a call was there before or was made by it. -/
theorem run_waitingData (h : c.run server fs = some (server', fs', out)) {path : CString} {tid : Tid}
    {size : Nat} (hw : server'.waitingData path tid = some size) :
    server.waitingData path tid = some size ∨ c = .addThreadAwaitingData path tid size := by
  rcases run_data h with ⟨p, u, n, rfl, rfl⟩ | ⟨p, rfl, hscan⟩ | ⟨_, hsame⟩
  · rw [CapioServer.waitingData_add] at hw
    split_ifs at hw with he
    · obtain ⟨rfl, rfl⟩ := he
      cases hold : server.waitingData path tid with
      | none =>
        simp only [hold, Option.getD_none, Option.some.injEq] at hw
        exact .inr (by rw [hw])
      | some m =>
        simp only [hold, Option.getD_some] at hw
        exact .inl hw
    · exact .inl hw
  · have hs := CapioServer.checkAndUnlock_spec hscan
    by_cases hp : path = p
    · subst hp
      exact .inl ((hs.kept tid size).mp hw).1
    · unfold CapioServer.waitingData at hw ⊢
      exact .inl (hs.others path hp ▸ hw)
  · unfold CapioServer.waitingData at hw ⊢
    exact .inl (hsame ▸ hw)

theorem run_waitingCreation (h : c.run server fs = some (server', fs', out)) {path : CString} {tid : Tid}
    (hw : tid ∈ server'.waitingCreation path) :
    tid ∈ server.waitingCreation path ∨ c = .addThreadAwaitingCreation path tid := by
  have hdelete {p : CString} (ht : server' = server.deleteFileAwaitingCreation p) :
      tid ∈ server.waitingCreation path := by
    rw [ht, CapioServer.waitingCreation_delete] at hw
    split_ifs at hw
    · cases hw
    · exact hw
  rcases run_creation h with ⟨p, u, rfl, ht⟩ | ⟨p, _, _, ht⟩ | ⟨p, _, ht⟩ | ⟨_, ht⟩
  · rw [ht, CapioServer.waitingCreation_add] at hw
    split_ifs at hw with hp
    · rcases List.mem_append.mp hw with hold | hnew
      · exact .inl (hp ▸ hold)
      · obtain rfl := List.mem_singleton.mp hnew
        exact .inr (by rw [hp])
    · exact .inl hw
  · exact .inl (hdelete ht)
  · exact .inl (hdelete ht)
  · exact .inl (ht path ▸ hw)

end Call

/-- The monitor changes the tables of waiting threads and nothing else. -/
theorem System.monitorCall_frame {s : System} {c : Call} {m : Monitor}
    (h : s.monitorCall = some (c, m)) :
    c.touchesClients = false ∧ c.touchesLocations = false ∧ c.touchesFiles = false := by
  apply monitorCall_kind (fun c =>
    c.touchesClients = false ∧ c.touchesLocations = false ∧ c.touchesFiles = false) h
  · exact fun _ => ⟨rfl, rfl, rfl⟩
  · exact fun _ => ⟨rfl, rfl, rfl⟩
  · exact fun _ => ⟨rfl, rfl, rfl⟩

end Capio.Server
