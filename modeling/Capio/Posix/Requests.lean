import Capio.Common.Requests
import Capio.Library.Format

/-! The texts that the client library writes into the request channel. -/
namespace Capio.Posix
open Library

/-- `%04d`, and a blank before each further conversion of the format. -/
def sprintf (code : Nat) (fields : List Field) : CString :=
  List.replicate (4 - (natText code).length) '0' ++ natText code ++ printFields fields

def consentToProceedRequest (path : CString) (tid : Int) (sourceFunc : CString) : CString :=
  sprintf capioRequestConsent [.int tid, .word path, .word sourceFunc]

def closeRequest (path : CString) (tid : Int) : CString :=
  sprintf capioRequestClose [.int tid, .word path]

def createRequest (fd : Int) (path : CString) (tid : Int) : CString :=
  sprintf capioRequestCreate [.int tid, .int fd, .word path]

def exitGroupRequest (tid : Int) : CString := sprintf capioRequestExitGroup [.int tid]

def handshakeAnonymousRequest (tid pid : Int) : CString :=
  sprintf capioRequestHandshakeAnonymous [.int tid, .int pid]

def handshakeNamedRequest (tid pid : Int) (appName : CString) : CString :=
  sprintf capioRequestHandshakeNamed [.int tid, .int pid, .word appName]

def openRequest (fd : Int) (path : CString) (tid : Int) : CString :=
  sprintf capioRequestOpen [.int tid, .int fd, .word path]

def renameRequest (oldPath newPath : CString) (tid : Int) : CString :=
  sprintf capioRequestRename [.int tid, .word oldPath, .word newPath]

/-- `_read_request`. -/
def readRequest (path : CString) (endOfRead : Nat) (tid fd : Int) : CString :=
  sprintf capioRequestRead [.word path, .int tid, .int fd, .count endOfRead]

/-- `_write_request` on the path that the cache holds. -/
def writeRequest (currentPath : CString) (count : Nat) (tid fd : Int) : CString :=
  sprintf capioRequestWrite [.int tid, .int fd, .word currentPath, .count count]

def requestText : Request → CString
  | .consent tid path sourceFunc => consentToProceedRequest path tid sourceFunc
  | .close tid path => closeRequest path tid
  | .create tid fd path => createRequest fd path tid
  | .exitGroup tid => exitGroupRequest tid
  | .handshakeNamed tid pid appName => handshakeNamedRequest tid pid appName
  | .handshakeAnonymous tid pid => handshakeAnonymousRequest tid pid
  | .openFile tid fd path => openRequest fd path tid
  | .read path tid fd endOfRead => readRequest path endOfRead tid fd
  | .rename tid oldPath newPath => renameRequest oldPath newPath tid
  | .write tid fd path count => writeRequest path count tid fd

/-- The array `req`, with whatever the stack held, after the text is printed into
it. A longer text with its terminator overruns the array. -/
def fillSlot (req text : CString) : Option CString :=
  if text.length + 1 ≤ req.length then some (text ++ '\x00' :: req.drop (text.length + 1)) else none

end Capio.Posix
