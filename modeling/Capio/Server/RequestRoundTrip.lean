import Capio.Posix.Requests
import Capio.Server.RequestReader

/-! Whether the server reads out of a slot what the client printed into it. -/
namespace Capio
open Library Posix Server

namespace Request

/-- The code of a request, the fields that the client prints and the conversions
with which the server reads them. -/
def code : Request → Nat
  | .consent .. => capioRequestConsent
  | .close .. => capioRequestClose
  | .create .. => capioRequestCreate
  | .exitGroup .. => capioRequestExitGroup
  | .handshakeNamed .. => capioRequestHandshakeNamed
  | .handshakeAnonymous .. => capioRequestHandshakeAnonymous
  | .openFile .. => capioRequestOpen
  | .read .. => capioRequestRead
  | .rename .. => capioRequestRename
  | .write .. => capioRequestWrite

def fields : Request → List Field
  | .consent tid path sourceFunc => [.int tid, .word path, .word sourceFunc]
  | .close tid path => [.int tid, .word path]
  | .create tid fd path => [.int tid, .int fd, .word path]
  | .exitGroup tid => [.int tid]
  | .handshakeNamed tid pid appName => [.int tid, .int pid, .word appName]
  | .handshakeAnonymous tid pid => [.int tid, .int pid]
  | .openFile tid fd path => [.int tid, .int fd, .word path]
  | .read path tid fd endOfRead => [.word path, .int tid, .int fd, .count endOfRead]
  | .rename tid oldPath newPath => [.int tid, .word oldPath, .word newPath]
  | .write tid fd path count => [.int tid, .int fd, .word path, .count count]

def conversion : Field → Conversion
  | .int _ => .int
  | .count _ => .ullong
  | .word _ => .string

def conversions (r : Request) : List Conversion := r.fields.map conversion

theorem requestText_eq (r : Request) : requestText r = sprintf r.code r.fields := by
  cases r <;> rfl

/-- The code finds the handler of its request. -/
private theorem requestArguments_code (r : Request) (str : CString) :
    requestArguments r.code str = match r with
      | .consent .. => consentToProceedArguments str
      | .close .. => closeArguments str
      | .create .. => createArguments str
      | .exitGroup .. => exitArguments str
      | .handshakeNamed .. => handshakeNamedArguments str
      | .handshakeAnonymous .. => handshakeAnonymousArguments str
      | .openFile .. => openArguments str
      | .read .. => readArguments str
      | .rename .. => renameArguments str
      | .write .. => writeArguments str := by
  cases r <;> rfl

/-- The handler of a request gets it exactly if its `sscanf` reads the fields. -/
theorem requestArguments_iff (r : Request) (str : CString) :
    requestArguments r.code str = some r ↔ sscanf r.conversions str = r.fields := by
  rw [requestArguments_code]
  cases r
  all_goals
    simp only [consentToProceedArguments, closeArguments, createArguments, exitArguments,
      handshakeNamedArguments, handshakeAnonymousArguments, openArguments, readArguments, renameArguments,
      writeArguments, conversions, conversion, fields, List.map]
    split
    · rename_i heq
      rw [heq]
      simp
    · rename_i hne
      apply iff_of_false (nofun)
      intro heq
      apply hne
      exact heq

/-- The values a client can send: `int` identifiers, sizes below 2^63, and strings
that are not empty and have no NUL. -/
def FieldCarried : Field → Prop
  | .int z => -2^31 ≤ z ∧ z < 2^31
  | .count n => n < 2^63
  | .word w => w ≠ [] ∧ '\x00' ∉ w

instance : DecidablePred FieldCarried
  | .int z => inferInstanceAs (Decidable (-2^31 ≤ z ∧ z < 2^31))
  | .count n => inferInstanceAs (Decidable (n < 2^63))
  | .word w => inferInstanceAs (Decidable (w ≠ [] ∧ '\x00' ∉ w))

/-- The paths of a request. -/
def paths : Request → List CString
  | .consent _ path _ | .close _ path | .create _ _ path | .openFile _ _ path | .read path _ _ _
  | .write _ _ path _ => [path]
  | .rename _ oldPath newPath => [oldPath, newPath]
  | _ => []

structure Carried (r : Request) : Prop where
  fields : ∀ f ∈ r.fields, FieldCarried f
  paths : ∀ path ∈ r.paths, path.length < pathMax

/-- The text fits into a slot with its terminator, and whatever the slot held before,
the server reads the request back. -/
def RoundTrip (r : Request) : Prop :=
  (requestText r).length + 1 ≤ capioReqMaxSize ∧
    ∀ req : CString, req.length = capioReqMaxSize → (fillSlot req (requestText r)).bind receive = some r

/-- The characters a field takes in the text, by its value. -/
def fieldWidth : Field → Nat
  | .int z => decimalWidth z
  | .count n => decimalWidth n
  | .word w => w.length

/-- No string has white space in it, and four digits and the fields, with a blank
before each, leave room for the terminator. -/
def Plain (r : Request) : Prop :=
  (∀ f ∈ r.fields, f.Unbroken) ∧ 4 + (r.fields.map (fun f => fieldWidth f + 1)).sum < capioReqMaxSize

instance (r : Request) : Decidable r.Plain := inferInstanceAs (Decidable (_ ∧ _))

theorem text_length (f : Field) : f.text.length = fieldWidth f := by
  cases f with
  | int z => exact intText_length z
  | count n => exact intText_length (Int.ofNat n)
  | word w => rfl

private theorem printFields_length (fields : List Field) :
    (printFields fields).length = (fields.map (fun f => fieldWidth f + 1)).sum := by
  rw [printFields, List.length_flatMap]
  simp only [List.length_cons, text_length]

theorem code_lt (r : Request) : r.code < capioNrRequests := by
  cases r <;> dsimp only [code] <;> decide

/-- Every code is printed with four digits, which are read back. -/
private theorem fromChars_code (code : Nat) (h : code < capioNrRequests) :
    (sprintf code []).length = 4 ∧ '\x00' ∉ sprintf code [] ∧
      fromChars (sprintf code []) = some ((code : Int), []) := by
  revert h
  revert code
  decide

private theorem requestText_append (r : Request) :
    requestText r = sprintf r.code [] ++ printFields r.fields := by
  rw [requestText_eq, sprintf, sprintf]
  simp [printFields]

private theorem requestText_length (r : Request) :
    (requestText r).length = 4 + (r.fields.map (fun f => fieldWidth f + 1)).sum := by
  rw [requestText_append, List.length_append, (fromChars_code r.code r.code_lt).1, printFields_length]

private theorem nul_notMem_intText (z : Int) : '\x00' ∉ intText z := by
  have hnat (n : Nat) : '\x00' ∉ natText n :=
    fun h => absurd (natText_isDigit n _ h) (by decide)
  cases z with
  | ofNat n => exact hnat n
  | negSucc n =>
    rw [intText, List.mem_cons]
    rintro (h | h)
    · exact absurd h (by decide)
    · exact hnat (n + 1) h

private theorem nul_notMem_printFields {fields : List Field} (h : ∀ f ∈ fields, FieldCarried f) :
    '\x00' ∉ printFields fields := by
  intro hmem
  obtain ⟨f, hf, hmem⟩ := List.mem_flatMap.mp hmem
  rcases List.mem_cons.mp hmem with hnul | htext
  · exact absurd hnul (by decide)
  · cases f with
    | int z => exact nul_notMem_intText z htext
    | count n => exact nul_notMem_intText (Int.ofNat n) htext
    | word w => exact (h _ hf).2 htext

private theorem takeWhile_nul {text : CString} (rest : CString) (h : '\x00' ∉ text) :
    (text ++ '\x00' :: rest).takeWhile (· ≠ '\x00') = text := by
  rw [List.takeWhile_append_of_pos]
  · simp
  · intro c hc
    exact decide_eq_true (ne_of_mem_of_not_mem hc h)

theorem printFields_blank (r : Request) : ∃ body, printFields r.fields = ' ' :: body := by
  cases r <;> exact ⟨_, rfl⟩

/-- The code is all that stands in the first four characters. -/
theorem fromChars_requestText (r : Request) (rest : CString) :
    fromChars ((requestText r ++ rest).take 4) = some ((r.code : Int), []) ∧
      (requestText r ++ rest).drop 4 = printFields r.fields ++ rest := by
  obtain ⟨hlength, _, hcode⟩ := fromChars_code r.code r.code_lt
  rw [requestText_append, List.append_assoc, List.take_left' hlength, List.drop_left' hlength]
  exact ⟨hcode, rfl⟩

/-- What the server reads where the client has printed the request. -/
def received (r : Request) : Option Request := receive (requestText r ++ ['\x00'])

/-- What stands in the slot behind the text is not read. -/
theorem receive_text (r : Request) (rest : CString) : receive (requestText r ++ '\x00' :: rest) = r.received := by
  have hread (rest : CString) : readNextRequest (requestText r ++ '\x00' :: rest) =
      some ((r.code : Int), ((printFields r.fields).drop 1).takeWhile (· ≠ '\x00')) := by
    obtain ⟨hcode, hdrop⟩ := fromChars_requestText r ('\x00' :: rest)
    obtain ⟨body, hbody⟩ := r.printFields_blank
    unfold readNextRequest
    rw [hcode, hdrop, hbody]
    simp only [Option.bind_eq_bind, Option.bind_some, List.nil_append, List.cons_append, List.drop_one, List.tail_cons,
      List.takeWhile_append, List.takeWhile_cons, ne_eq, not_true_eq_false, decide_false, Bool.false_eq_true, if_false,
      List.append_nil]
    split_ifs with hlength
    · rw [(List.takeWhile_prefix _).eq_of_length hlength]
    · rfl
  rw [received, receive, receive, hread, hread]

/-- The server gets the request exactly if the conversions read the printed fields. -/
private theorem receive_iff {r : Request} (hr : r.Carried) (rest : CString) :
    receive (requestText r ++ '\x00' :: rest) = some r ↔
      sscanf r.conversions (printFields r.fields) = r.fields := by
  obtain ⟨hcode, hdrop⟩ := fromChars_requestText r ('\x00' :: rest)
  obtain ⟨body, hbody⟩ := r.printFields_blank
  have hnul : '\x00' ∉ body := by
    have hall := nul_notMem_printFields hr.fields
    rw [hbody] at hall
    exact fun hmem => hall (List.mem_cons_of_mem _ hmem)
  have hread : readNextRequest (requestText r ++ '\x00' :: rest) = some ((r.code : Int), body) := by
    unfold readNextRequest
    rw [hcode, hdrop, hbody]
    exact congrArg (fun str => some ((r.code : Int), str)) (takeWhile_nul rest hnul)
  rw [receive, hread, hbody, sscanf_blank]
  exact requestArguments_iff r body

private theorem takes_of_carried {f : Field} (h : FieldCarried f) : (conversion f).Takes f := by
  cases f with
  | int z => exact .int h.1 h.2
  | count n => exact .ullong (Nat.lt_trans h (by decide))
  | word w => exact .string h.1

private theorem read_back_iff {r : Request} (hr : r.Carried) :
    sscanf r.conversions (printFields r.fields) = r.fields ↔ ∀ f ∈ r.fields, f.Unbroken := by
  constructor
  · intro heq f hf
    exact sscanf_unbroken r.conversions (printFields r.fields) f (heq.symm ▸ hf)
  · apply sscanf_printFields
    rw [conversions, List.forall₂_map_left_iff, List.forall₂_same]
    exact fun f hf => takes_of_carried (hr.fields f hf)

/-- A request that fits is read out of any slot just when no word is broken. -/
private theorem slot_iff {r : Request} (hr : r.Carried)
    (hfits : 4 + (r.fields.map (fun f => fieldWidth f + 1)).sum < capioReqMaxSize) {req : CString}
    (hreq : req.length = capioReqMaxSize) :
    (fillSlot req (requestText r)).bind receive = some r ↔ ∀ f ∈ r.fields, f.Unbroken := by
  rw [← read_back_iff hr, fillSlot, if_pos (by rw [requestText_length, hreq]; exact hfits), Option.bind_some]
  exact receive_iff hr _

/-- A request survives the way to the server exactly when no string has white space
in it and the text fits. -/
theorem round_trip_iff {r : Request} (hr : r.Carried) : r.RoundTrip ↔ r.Plain := by
  rw [RoundTrip, Plain, requestText_length, Nat.lt_iff_add_one_le, and_comm]
  apply and_congr_left
  intro hfits
  constructor
  · intro hall
    exact (slot_iff hr hfits List.length_replicate).mp
      (hall (List.replicate capioReqMaxSize ' ') List.length_replicate)
  · intro hunbroken req hreq
    exact (slot_iff hr hfits hreq).mpr hunbroken

theorem round_trip_iff_close : (Request.close 7 "/c/a".toList).RoundTrip :=
  (round_trip_iff ⟨by decide, by decide⟩).mpr ⟨by decide, by decide⟩

/-- A name with a blank in it does not arrive. -/
theorem blank_lost : ¬ ∀ r : Request, r.Carried → r.RoundTrip := by
  intro hall
  have hcarried : (Request.close 7 "/c/a b".toList).Carried := ⟨by decide, by decide⟩
  have hback := (hall _ hcarried).2 (List.replicate capioReqMaxSize ' ') List.length_replicate
  exact absurd ((slot_iff hcarried (by decide) List.length_replicate).mp hback) (by decide)

end Request
end Capio
