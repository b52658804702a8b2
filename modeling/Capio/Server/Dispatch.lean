import Capio.Server.JsonParser
import Capio.Server.RequestRoundTrip

/-! One turn of the server's request loop: the code of a slot and the entry of the handler table
that it leads to. -/
namespace Capio.Server
open Library

inductive RequestHandler where
  | consentToProceedHandler
  | closeHandler
  | createHandler
  | exitHandler
  | handshakeNamedHandler
  | handshakeAnonymousHandler
  | openHandler
  | readHandler
  | renameHandler
  | writeHandler
  deriving DecidableEq

/-- The entries that are not assigned stay null. -/
def buildRequestHandlersTable : List (Option RequestHandler) :=
  List.replicate capioNrRequests none
    |>.set capioRequestConsent (some .consentToProceedHandler)
    |>.set capioRequestClose (some .closeHandler)
    |>.set capioRequestCreate (some .createHandler)
    |>.set capioRequestExitGroup (some .exitHandler)
    |>.set capioRequestHandshakeNamed (some .handshakeNamedHandler)
    |>.set capioRequestHandshakeAnonymous (some .handshakeAnonymousHandler)
    |>.set capioRequestMkdir (some .createHandler)
    |>.set capioRequestOpen (some .openHandler)
    |>.set capioRequestRead (some .readHandler)
    |>.set capioRequestRename (some .renameHandler)
    |>.set capioRequestWrite (some .writeHandler)

structure RequestSlot where
  req : CString
  size : req.length = capioReqMaxSize
  terminated : '\x00' ∈ req

/-- How a turn of the loop in `start` ends. -/
inductive Turn where
  | errExit (message : CString)
  /-- `strcpy` reads on past the slot. -/
  | overrun
  /-- The entry at the index is called, whatever it holds. -/
  | calls (index : Nat) (str : CString)
  deriving DecidableEq

/-- What `strcpy` reads: the slot from the second character after the number on. -/
def copied (req : CString) : CString :=
  match fromChars (req.take 4) with
  | some (_, rest) => (rest ++ req.drop 4).drop 1
  | none => []

def turn (req : CString) : Turn :=
  match readNextRequest req with
  | none => .errExit ("Invalid request -1".toList ++ cStr req)
  | some (code, str) =>
    if '\x00' ∉ copied req then .overrun
    else if code < 0 ∨ (capioNrRequests : Int) < code then
      .errExit "Error: received invalid request code".toList
    else .calls code.toNat str

/-- The turn ends the server or calls a handler that the table holds. -/
def Dispatched (req : CString) : Prop :=
  (∃ message, turn req = .errExit message) ∨ ∃ code str handler, turn req = .calls code str ∧
    code < capioNrRequests ∧ buildRequestHandlersTable[code]? = some (some handler)

/-- The number has a handler if it is in range, and there is a terminator to copy up to. -/
def Dispatchable (req : CString) : Prop := ∀ code rest, fromChars (req.take 4) = some (code, rest) →
  '\x00' ∈ copied req ∧ code ≠ capioRequestClone ∧ code ≠ capioNrRequests

/-! ### The table -/

private theorem filled_below (code : Nat) (hcode : code ≤ capioNrRequests) :
    (buildRequestHandlersTable[code]?).join.isSome = true ↔
      code ≠ capioRequestClone ∧ code ≠ capioNrRequests := by
  revert hcode
  revert code
  decide

/-- `code > CAPIO_NR_REQUESTS` lets one index past the table through, and one entry is empty. -/
theorem handler_iff {code : Nat} (hcode : code ≤ capioNrRequests) :
    (code < capioNrRequests ∧ ∃ handler, buildRequestHandlersTable[code]? = some (some handler)) ↔
      code ≠ capioRequestClone ∧ code ≠ capioNrRequests := by
  rw [← filled_below code hcode, Option.isSome_iff_exists]
  simp only [Option.join_eq_some_iff]
  refine and_iff_right_of_imp ?_
  rintro ⟨handler, hhandler⟩
  exact (List.getElem?_eq_some_iff.mp hhandler).1

/-- The arguments that a handler reads. -/
def RequestHandler.arguments : RequestHandler → CString → Option Request
  | .consentToProceedHandler => consentToProceedArguments
  | .closeHandler => closeArguments
  | .createHandler => createArguments
  | .exitHandler => exitArguments
  | .handshakeNamedHandler => handshakeNamedArguments
  | .handshakeAnonymousHandler => handshakeAnonymousArguments
  | .openHandler => openArguments
  | .readHandler => readArguments
  | .renameHandler => renameArguments
  | .writeHandler => writeArguments

/-- What a code makes of a text is what the handler in its entry makes of it. -/
theorem requestArguments_handler {code : Nat} {handler : RequestHandler}
    (h : buildRequestHandlersTable[code]? = some (some handler)) (str : CString) :
    requestArguments code str = handler.arguments str := by
  have hcode : code < capioNrRequests := (List.getElem?_eq_some_iff.mp h).1
  unfold capioNrRequests at hcode
  interval_cases code <;> cases h <;> rfl

/-! ### The text behind the number -/

section Slot
variable {slot : RequestSlot} {code : Int} {rest : CString}

theorem nul_kept (h : fromChars (slot.req.take 4) = some (code, rest)) : '\x00' ∈ rest ++ slot.req.drop 4 := by
  unfold fromChars at h
  split_ifs at h
  obtain ⟨read, hread, hdigits⟩ := scanNumeral_reads h
  have hmem := slot.terminated
  rw [← List.take_append_drop 4 slot.req, hread, List.append_assoc] at hmem
  refine (List.mem_append.mp hmem).resolve_left fun hin => ?_
  exact absurd (hdigits _ hin) (by decide)

/-- A number that is followed by some text leaves a terminator to copy up to. -/
theorem nul_copied (h : fromChars (slot.req.take 4) = some (code, rest))
    (hnext : (rest ++ slot.req.drop 4).head? ≠ some '\x00') : '\x00' ∈ copied slot.req := by
  have hmem := nul_kept h
  rw [copied, h]
  dsimp only
  cases htext : rest ++ slot.req.drop 4 with
  | nil =>
    rw [htext] at hmem
    cases hmem
  | cons c text =>
    rw [htext] at hmem hnext
    exact (List.mem_cons.mp hmem).resolve_left fun he => hnext (congrArg some he.symm)

theorem turn_eq (h : fromChars (slot.req.take 4) = some (code, rest)) : turn slot.req =
    if '\x00' ∉ copied slot.req then .overrun
    else if code < 0 ∨ (capioNrRequests : Int) < code then
      .errExit "Error: received invalid request code".toList
    else .calls code.toNat (cStr (copied slot.req)) := by
  unfold turn readNextRequest copied
  rw [h]
  rfl

end Slot

/-- Every turn stops the server or calls a handler just when the number of the request is
neither the empty entry nor the index past the table, and some terminator is left behind it. -/
theorem dispatch_total_iff (slot : RequestSlot) : Dispatched slot.req ↔ Dispatchable slot.req := by
  cases hnumber : fromChars (slot.req.take 4) with
  | none =>
    have hexit : turn slot.req = .errExit ("Invalid request -1".toList ++ cStr slot.req) := by
      rw [turn, readNextRequest, hnumber]
      rfl
    refine iff_of_true (.inl ⟨_, hexit⟩) ?_
    intro code rest h
    rw [hnumber] at h
    cases h
  | some number =>
    obtain ⟨code, rest⟩ := number
    have hdispatchable : Dispatchable slot.req ↔
        '\x00' ∈ copied slot.req ∧ code ≠ capioRequestClone ∧ code ≠ capioNrRequests := by
      constructor
      · exact fun h => h code rest hnumber
      · intro h code' rest' h'
        rw [hnumber] at h'
        cases h'
        exact h
    rw [hdispatchable, Dispatched, turn_eq hnumber]
    by_cases hnul : '\x00' ∈ copied slot.req
    · rw [if_neg (not_not_intro hnul), and_iff_right hnul]
      by_cases hrange : code < 0 ∨ (capioNrRequests : Int) < code
      · rw [if_pos hrange]
        refine iff_of_true (.inl ⟨_, rfl⟩) ?_
        unfold capioRequestClone capioNrRequests at *
        omega
      · rw [if_neg hrange]
        obtain ⟨index, rfl⟩ := Int.eq_ofNat_of_zero_le (not_lt.mp (not_or.mp hrange).1)
        have hindex : index ≤ capioNrRequests := Int.ofNat_le.mp (not_lt.mp (not_or.mp hrange).2)
        rw [Int.natCast_inj.ne, Int.natCast_inj.ne, ← handler_iff hindex, Int.toNat_natCast]
        constructor
        · rintro (⟨message, h⟩ | ⟨code, str, handler, h, hbelow, hhandler⟩)
          · cases h
          · cases h
            exact ⟨hbelow, handler, hhandler⟩
        · rintro ⟨hbelow, handler, hhandler⟩
          exact .inr ⟨index, _, handler, rfl, hbelow, hhandler⟩
    · rw [if_pos hnul]
      refine iff_of_false ?_ (fun h => hnul h.1)
      rintro (⟨message, h⟩ | ⟨code, str, handler, h, _⟩) <;> cases h

/-- A slot that starts with the text and holds nothing else. -/
def slotOf (text : CString) (h : text.length < capioReqMaxSize) : RequestSlot where
  req := text ++ List.replicate (capioReqMaxSize - text.length) '\x00'
  size := by
    rw [List.length_append, List.length_replicate]
    omega
  terminated := by
    refine List.mem_append_right _ (List.mem_replicate.mpr ⟨?_, rfl⟩)
    omega

/-- The range test lets the number of codes pass as a code. -/
theorem index_past_table_called : ¬ Dispatched (slotOf "0012 7".toList (by decide)).req := by
  have hturn : turn (slotOf "0012 7".toList (by decide)).req = .calls 12 "7".toList := by decide
  rw [Dispatched, hturn]
  rintro (⟨message, h⟩ | ⟨code, str, handler, h, hbelow, _⟩)
  · cases h
  · cases h
    exact absurd hbelow (by decide)

/-- What the client prints is handed to the handler that reads it. -/
theorem request_dispatched {r : Request} {slot : RequestSlot} {junk : CString}
    (h : slot.req = Posix.requestText r ++ '\x00' :: junk) : ∃ str handler,
    turn slot.req = .calls r.code str ∧ buildRequestHandlersTable[r.code]? = some (some handler) ∧
      handler.arguments str = requestArguments r.code str := by
  obtain ⟨hcode, hdrop⟩ := r.fromChars_requestText ('\x00' :: junk)
  rw [← h] at hcode hdrop
  obtain ⟨body, hbody⟩ := r.printFields_blank
  have hnul : '\x00' ∈ copied slot.req := by
    refine nul_copied hcode ?_
    rw [hdrop, hbody]
    exact nofun
  have hbelow := r.code_lt
  have hclone : r.code ≠ capioRequestClone := by cases r <;> dsimp only [Request.code] <;> decide
  obtain ⟨_, handler, hhandler⟩ := (handler_iff hbelow.le).mpr ⟨hclone, hbelow.ne⟩
  refine ⟨cStr (copied slot.req), handler, ?_, hhandler, (requestArguments_handler hhandler _).symm⟩
  rw [turn_eq hcode, if_neg (not_not_intro hnul), if_neg]
  · rfl
  · unfold capioNrRequests at *
    omega

end Capio.Server
