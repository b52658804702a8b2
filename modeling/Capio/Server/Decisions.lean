import Capio.Server.Handlers

/-! What each request handler can decide, one lemma for each handler. -/
namespace Capio.Server
open Library

variable {server : CapioServer} {fs : FileSystem} {calls : List Call} {replies : List Reply}

theorem ClientManager.reply_spec {cm : ClientManager} {tid : Tid} {offset : Nat} {reply : Reply}
    (h : cm.replyToClient tid offset = some reply) : reply = ⟨tid, offset⟩ := by
  unfold replyToClient at h
  split_ifs at h
  cases h
  rfl

private theorem answer_spec {cm : ClientManager} {tid : Tid} {offset : Nat}
    (h : (do let reply ← cm.replyToClient tid offset; pure (([] : List Call), [reply])) =
      some (calls, replies)) : calls = [] ∧ replies = [⟨tid, offset⟩] := by
  obtain ⟨reply, hr, he⟩ := Option.bind_eq_some_iff.mp h
  cases he
  exact ⟨rfl, by rw [ClientManager.reply_spec hr]⟩

theorem closeHandler_spec (tid : Tid) (path : CString)
    (h : closeHandler server tid path = some (calls, replies)) :
    replies = [] ∧ (calls = [] ∨
      calls = setCommitted path ++ [.increaseCloseCount path] ∧ server.fileToBeHandled path ∧
        server.clEngine.getCommitRule path = capioFileCommittedOnClose ∧
        server.isProducer path tid = some true) := by
  unfold closeHandler at h
  split_ifs at h with hp hc
  · obtain ⟨producer, hi, h⟩ := Option.bind_eq_some_iff.mp h
    split_ifs at h with hb
    · cases h
      exact ⟨rfl, .inr ⟨rfl, hp, hc, by rw [hi, hb]⟩⟩
    · cases h
      exact ⟨rfl, .inl rfl⟩
  · cases h
    exact ⟨rfl, .inl rfl⟩
  · cases h
    exact ⟨rfl, .inl rfl⟩

theorem consentToProceedHandler_spec (tid : Tid) (path sourceFunc : CString)
    (h : consentToProceedHandler server fs tid path sourceFunc = some (calls, replies)) :
    (calls = [] ∧ replies = [⟨tid, 1⟩] ∧ (server.fileToBeHandled path = false ∨
      server.isProducer path tid = some true ∨ fs.fileExists path = true ∧
        (server.isCommitted fs path = some true ∨
          server.clEngine.getFireRule path = capioFileModeNoUpdate))) ∨
    (calls = [.addThreadAwaitingData path tid 0] ∧ replies = [] ∧
      server.fileToBeHandled path = true ∧ server.isProducer path tid = some false) := by
  unfold consentToProceedHandler at h
  split_ifs at h with hp
  · obtain ⟨producer, hi, h⟩ := Option.bind_eq_some_iff.mp h
    split_ifs at h with hb
    · obtain ⟨rfl, rfl⟩ := answer_spec h
      exact .inl ⟨rfl, rfl, .inr (.inl (by rw [hi, hb]))⟩
    · obtain ⟨committed, hc, h⟩ := Option.bind_eq_some_iff.mp h
      dsimp only at h
      split_ifs at h with ha
      · obtain ⟨rfl, rfl⟩ := answer_spec h
        refine .inl ⟨rfl, rfl, .inr (.inr ?_)⟩
        simp only [Bool.and_eq_true, Bool.or_eq_true, decide_eq_true_eq] at ha
        obtain ⟨he, hcom | hfire⟩ := ha
        · exact ⟨he, .inl (by rw [hc, hcom])⟩
        · exact ⟨he, .inr hfire⟩
      · cases h
        exact .inr ⟨rfl, rfl, hp, by rw [hi, Bool.eq_false_iff.mpr hb]⟩
  · obtain ⟨rfl, rfl⟩ := answer_spec h
    exact .inl ⟨rfl, rfl, .inl (Bool.eq_false_iff.mpr hp)⟩

theorem openHandler_spec (tid fd : Tid) (path : CString)
    (h : openHandler server fs tid fd path = some (calls, replies)) :
    (calls = [] ∧ replies = [⟨tid, 1⟩] ∧
      (fs.fileExists path = true ∨ server.isProducer path tid = some true)) ∨
    (calls = [.addThreadAwaitingCreation path tid] ∧ replies = [] ∧ fs.fileExists path = false ∧
      server.isProducer path tid = some false) := by
  unfold openHandler at h
  split_ifs at h with he
  · obtain ⟨rfl, rfl⟩ := answer_spec h
    exact .inl ⟨rfl, rfl, .inl he⟩
  · obtain ⟨producer, hi, h⟩ := Option.bind_eq_some_iff.mp h
    split_ifs at h with hb
    · obtain ⟨rfl, rfl⟩ := answer_spec h
      exact .inl ⟨rfl, rfl, .inr (by rw [hi, hb])⟩
    · cases h
      exact .inr ⟨rfl, rfl, Bool.eq_false_iff.mpr he, by rw [hi, Bool.eq_false_iff.mpr hb]⟩

theorem readHandler_spec (tid fd : Tid) (path : CString) (endOfRead : Nat)
    (h : readHandler server fs path tid fd endOfRead = some (calls, replies)) :
    (calls = [] ∧ replies = [⟨tid, 1⟩] ∧ server.fileToBeHandled path = false) ∨
    (server.fileToBeHandled path = true ∧ ∃ committed size,
      server.isCommitted fs path = some committed ∧ getFileSizeIfExists fs path = some size ∧
      (calls = [] ∧ replies = [⟨tid, if committed then ullongMax else size⟩] ∧
          (endOfRead ≤ size ∨ committed = true ∨ server.isProducer path tid = some true) ∨
        calls = [.addThreadAwaitingData path tid endOfRead] ∧ replies = [] ∧ committed = false ∧
          size < endOfRead ∧ server.isProducer path tid = some false)) := by
  unfold readHandler at h
  split_ifs at h with hp
  · refine .inr ⟨hp, ?_⟩
    obtain ⟨committed, hc, h⟩ := Option.bind_eq_some_iff.mp h
    obtain ⟨size, hs, h⟩ := Option.bind_eq_some_iff.mp h
    refine ⟨committed, size, hc, hs, ?_⟩
    dsimp only at h
    generalize (if committed = true then ullongMax else size) = answer at h ⊢
    split_ifs at h with ha
    · obtain ⟨rfl, rfl⟩ := answer_spec h
      exact .inl ⟨rfl, rfl, ha.elim .inl (fun hb => .inr (.inl hb))⟩
    · obtain ⟨producer, hi, h⟩ := Option.bind_eq_some_iff.mp h
      rw [not_or] at ha
      split_ifs at h with hb
      · obtain ⟨rfl, rfl⟩ := answer_spec h
        exact .inl ⟨rfl, rfl, .inr (.inr (by rw [hi, hb]))⟩
      · cases h
        exact .inr ⟨rfl, rfl, Bool.eq_false_iff.mpr ha.2, by omega,
          by rw [hi, Bool.eq_false_iff.mpr hb]⟩
  · obtain ⟨rfl, rfl⟩ := answer_spec h
    exact .inl ⟨rfl, rfl, Bool.eq_false_iff.mpr hp⟩

theorem exitHandler_spec (tid : Tid) (h : exitHandler server tid = some (calls, replies)) :
    ∃ files, server.clientManager.getProducedFiles tid = some files ∧ replies = [] ∧
      calls = files.flatMap setCommitted ++ [.removeClient tid] := by
  obtain ⟨files, hf, he⟩ := Option.bind_eq_some_iff.mp h
  cases he
  exact ⟨files, hf, rfl, rfl⟩

theorem writeHandler_spec (tid fd : Tid) (path : CString) (count : Nat)
    (h : writeHandler server tid fd path count = some (calls, replies)) :
    replies = [] ∧ (calls = [] ∨ calls = [.checkAndUnlockThreadAwaitingData path]) := by
  unfold writeHandler at h
  split_ifs at h
  · cases h
    exact ⟨rfl, .inr rfl⟩
  · cases h
    exact ⟨rfl, .inl rfl⟩

/-- The calls the handler of a request may leave. `deleteFileAwaitingCreation`
is left to the monitor. -/
def mayCall : Request → Call → Prop
  | .consent tid path _, c => c = .addThreadAwaitingData path tid 0
  | .close _ path, c => c ∈ setCommitted path ∨ c = .increaseCloseCount path
  | .create tid _ path, c => c = .unlockThreadAwaitingCreation path ∨ c = .addProducer path tid
  | .exitGroup tid, c => (∃ file, c ∈ setCommitted file) ∨ c = .removeClient tid
  | .handshakeNamed tid _ appName, c => c = .registerNewClient tid appName
  | .handshakeAnonymous tid _, c => c = .registerNewClient tid capioDefaultAppName
  | .openFile tid _ path, c => c = .addThreadAwaitingCreation path tid
  | .read path tid _ endOfRead, c => c = .addThreadAwaitingData path tid endOfRead ∧ 0 < endOfRead
  | .rename _ _ newPath, c => c = .unlockThreadAwaitingCreation newPath
  | .write _ _ path _, c => c = .checkAndUnlockThreadAwaitingData path

theorem handle_mayCall {r : Request} (h : handle server fs r = some (calls, replies)) :
    ∀ c ∈ calls, mayCall r c := by
  intro c hc
  cases r with
  | consent tid path sourceFunc =>
    rcases consentToProceedHandler_spec tid path sourceFunc h with ⟨rfl, _⟩ | ⟨rfl, _⟩
    · cases hc
    · exact List.mem_singleton.mp hc
  | close tid path =>
    obtain ⟨_, rfl | ⟨rfl, _⟩⟩ := closeHandler_spec tid path h
    · cases hc
    · exact (List.mem_append.mp hc).imp id List.mem_singleton.mp
  | create tid fd path =>
    cases h
    simpa [mayCall] using hc
  | exitGroup tid =>
    obtain ⟨files, _, _, rfl⟩ := exitHandler_spec tid h
    refine (List.mem_append.mp hc).imp ?_ List.mem_singleton.mp
    intro hf
    obtain ⟨file, _, hfile⟩ := List.mem_flatMap.mp hf
    exact ⟨file, hfile⟩
  | openFile tid fd path =>
    rcases openHandler_spec tid fd path h with ⟨rfl, _⟩ | ⟨rfl, _⟩
    · cases hc
    · exact List.mem_singleton.mp hc
  | read path tid fd endOfRead =>
    rcases readHandler_spec tid fd path endOfRead h with ⟨rfl, _⟩ | ⟨_, _, _, _, _, ⟨rfl, _⟩ | ⟨rfl, _, _, hlt, _⟩⟩
    · cases hc
    · cases hc
    · exact ⟨List.mem_singleton.mp hc, Nat.lt_of_le_of_lt (Nat.zero_le _) hlt⟩
  | write tid fd path count =>
    obtain ⟨_, rfl | rfl⟩ := writeHandler_spec tid fd path count h
    · cases hc
    · exact List.mem_singleton.mp hc
  | _ =>
    cases h
    exact List.mem_singleton.mp hc

end Capio.Server
