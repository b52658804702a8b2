import Capio.Common.Constants
import Capio.Library.UnorderedMap
import Capio.Library.Numeral

/-! `ClientManager`: the three tables kept for the connected clients. A lookup
with `at` that misses is an uncaught exception, modelled by `none`. -/
namespace Capio.Server
open Library

/-- `pid_t`. -/
abbrev Tid := Int

/-- The construction arguments of a client's response buffer. -/
structure ResponseBuffer where
  shmName : CString
  maxNumElems : Nat
  elemSize : Nat

structure Reply where
  tid : Tid
  offset : Nat
  deriving DecidableEq

structure ClientManager where
  bufsResponse : UnorderedMap Tid ResponseBuffer
  appNames : UnorderedMap Tid CString
  filesToBeCommittedByTid : UnorderedMap Tid (List CString)

namespace ClientManager

def initial : ClientManager := ⟨∅, ∅, ∅⟩

def registerNewClient (cm : ClientManager) (tid : Tid) (appName : CString) : ClientManager where
  bufsResponse := UnorderedMap.emplace cm.bufsResponse tid
    ⟨shmCommChanNameResp ++ intText tid, capioReqBuffCnt, 8⟩
  appNames := UnorderedMap.emplace cm.appNames tid appName
  filesToBeCommittedByTid := UnorderedMap.emplace cm.filesToBeCommittedByTid tid []

def removeClient (cm : ClientManager) (tid : Tid) : ClientManager :=
  { cm with
    bufsResponse := cm.bufsResponse.erase tid
    filesToBeCommittedByTid := cm.filesToBeCommittedByTid.erase tid }

def replyToClient (cm : ClientManager) (tid : Tid) (offset : Nat) : Option Reply :=
  if tid ∈ cm.bufsResponse then some ⟨tid, offset⟩ else none

def addProducerFilePath (cm : ClientManager) (tid : Tid) (path : CString) : Option ClientManager := do
  let paths ← cm.filesToBeCommittedByTid.lookup tid
  some { cm with
    filesToBeCommittedByTid := cm.filesToBeCommittedByTid.insert tid (paths ++ [path]) }

def getProducedFiles (cm : ClientManager) (tid : Tid) : Option (List CString) :=
  cm.filesToBeCommittedByTid.lookup tid

def getAppName (cm : ClientManager) (tid : Tid) : Option CString := cm.appNames.lookup tid

end ClientManager
end Capio.Server
