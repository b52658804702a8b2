import Capio.Common.Requests
import Capio.Library.Format

/-! How the server takes a request out of a slot: `read_next_request`, and the
`sscanf` with which each handler begins. A handler whose `sscanf` leaves a variable
unassigned reads garbage, which is `none` here. -/
namespace Capio.Server
open Library

/-- `std::from_chars` accepts a minus sign but no plus. -/
def fromChars (text : CString) : Option (Int × CString) :=
  if text.head? = some '+' then none else scanNumeral text

def readNextRequest (req : CString) : Option (Int × CString) := do
  let (code, rest) ← fromChars (req.take 4)
  some (code, ((rest ++ req.drop 4).drop 1).takeWhile (· ≠ '\x00'))

def consentToProceedArguments (str : CString) : Option Request :=
  match sscanf [.int, .string, .string] str with
  | [.int tid, .word path, .word sourceFunc] => some (.consent tid path sourceFunc)
  | _ => none

def closeArguments (str : CString) : Option Request :=
  match sscanf [.int, .string] str with
  | [.int tid, .word path] => some (.close tid path)
  | _ => none

def createArguments (str : CString) : Option Request :=
  match sscanf [.int, .int, .string] str with
  | [.int tid, .int fd, .word path] => some (.create tid fd path)
  | _ => none

def exitArguments (str : CString) : Option Request :=
  match sscanf [.int] str with
  | [.int tid] => some (.exitGroup tid)
  | _ => none

def handshakeAnonymousArguments (str : CString) : Option Request :=
  match sscanf [.int, .int] str with
  | [.int tid, .int pid] => some (.handshakeAnonymous tid pid)
  | _ => none

def handshakeNamedArguments (str : CString) : Option Request :=
  match sscanf [.int, .int, .string] str with
  | [.int tid, .int pid, .word appName] => some (.handshakeNamed tid pid appName)
  | _ => none

def openArguments (str : CString) : Option Request :=
  match sscanf [.int, .int, .string] str with
  | [.int tid, .int fd, .word path] => some (.openFile tid fd path)
  | _ => none

def readArguments (str : CString) : Option Request :=
  match sscanf [.string, .int, .int, .ullong] str with
  | [.word path, .int tid, .int fd, .count endOfRead] => some (.read path tid fd endOfRead)
  | _ => none

def renameArguments (str : CString) : Option Request :=
  match sscanf [.int, .string, .string] str with
  | [.int tid, .word oldPath, .word newPath] => some (.rename tid oldPath newPath)
  | _ => none

def writeArguments (str : CString) : Option Request :=
  match sscanf [.int, .int, .string, .ullong] str with
  | [.int tid, .int fd, .word path, .count writeSize] => some (.write tid fd path writeSize)
  | _ => none

/-- The arguments that the handler of a code reads. `CAPIO_REQUEST_MKDIR` has the
handler of `CAPIO_REQUEST_CREATE`, `CAPIO_REQUEST_CLONE` has none. -/
def requestArguments (code : Int) (str : CString) : Option Request :=
  if code = capioRequestConsent then consentToProceedArguments str
  else if code = capioRequestClose then closeArguments str
  else if code = capioRequestCreate ∨ code = capioRequestMkdir then createArguments str
  else if code = capioRequestExitGroup then exitArguments str
  else if code = capioRequestHandshakeNamed then handshakeNamedArguments str
  else if code = capioRequestHandshakeAnonymous then handshakeAnonymousArguments str
  else if code = capioRequestOpen then openArguments str
  else if code = capioRequestRead then readArguments str
  else if code = capioRequestRename then renameArguments str
  else if code = capioRequestWrite then writeArguments str
  else none

def receive (req : CString) : Option Request := do
  let (code, str) ← readNextRequest req
  requestArguments code str

end Capio.Server
