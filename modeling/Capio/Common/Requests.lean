import Capio.Common.Constants

/-! The requests of the client to server channel and their codes. -/
namespace Capio

def capioRequestConsent : Nat := 0
def capioRequestClone : Nat := 1
def capioRequestClose : Nat := 2
def capioRequestCreate : Nat := 3
def capioRequestExitGroup : Nat := 4
def capioRequestHandshakeNamed : Nat := 5
def capioRequestHandshakeAnonymous : Nat := 6
def capioRequestMkdir : Nat := 7
def capioRequestOpen : Nat := 8
def capioRequestRead : Nat := 9
def capioRequestRename : Nat := 10
def capioRequestWrite : Nat := 11
def capioNrRequests : Nat := 12

/-- A request with the fields its handler reads. -/
inductive Request where
  | consent (tid : Int) (path sourceFunc : CString)
  | close (tid : Int) (path : CString)
  | create (tid fd : Int) (path : CString)
  | exitGroup (tid : Int)
  | handshakeNamed (tid pid : Int) (appName : CString)
  | handshakeAnonymous (tid pid : Int)
  | openFile (tid fd : Int) (path : CString)
  | read (path : CString) (tid fd : Int) (endOfRead : Nat)
  | rename (tid : Int) (oldPath newPath : CString)
  | write (tid fd : Int) (path : CString) (count : Nat)
  deriving DecidableEq

end Capio
