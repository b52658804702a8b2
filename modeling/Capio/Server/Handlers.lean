import Capio.Common.Requests
import Capio.Server.FileManager

/-! The request handlers. A handler decides on the state it is called in, sends
the replies of its own and leaves the calls it then makes, one after the other,
to `Call.run`, so that other threads can run between them. An exception or an
endless recursion is `none`: either ends the server process. The directories above
the tokens are taken to stand; `Evaluation` has the same functions without that. -/
namespace Capio.Server
open Library

/-- The calls with an effect that the handlers make. Those on the tables of
waiting threads hold their mutex from beginning to end. -/
inductive Call where
  | addThreadAwaitingCreation (path : CString) (tid : Tid)
  | unlockThreadAwaitingCreation (path : CString)
  | deleteFileAwaitingCreation (path : CString)
  | addThreadAwaitingData (path : CString) (tid : Tid) (expectedSize : Nat)
  | checkAndUnlockThreadAwaitingData (path : CString)
  | createToken (path : CString)
  | increaseCloseCount (path : CString)
  | addProducer (path : CString) (tid : Tid)
  | registerNewClient (tid : Tid) (appName : CString)
  | removeClient (tid : Tid)
  deriving DecidableEq

abbrev Outcome := CapioServer × FileSystem × List Reply

namespace CapioServer

def isCommitted (server : CapioServer) (fs : FileSystem) (path : CString) : Option Bool :=
  Capio.Server.isCommitted server.env server.clEngine fs path

def isProducer (server : CapioServer) (path : CString) (tid : Tid) : Option Bool :=
  server.clEngine.isProducer server.clientManager path tid

def fileToBeHandled (server : CapioServer) (path : CString) : Bool :=
  CapioCLEngine.fileToBeHandled server.env path

def token (server : CapioServer) (path : CString) : CString :=
  metadataToken server.env path

/-- `pid_t` against `uintmax_t`: the thread id is converted to unsigned. -/
def unsignedTid (tid : Tid) : Nat := (tid % 2^64).toNat

/-- The size `checkAndUnlockThreadAwaitingData` compares with. -/
def awaitedSize (fs : FileSystem) (path : CString) : Option Nat :=
  if fs.isDirectory path then some ullongMax else getFileSizeIfExists fs path

/-- The body of the loop over the threads waiting for data of `path`. The source
compares the key of the entry, not the expected size, with the file size. -/
def unlockBody (server : CapioServer) (fs : FileSystem) (path : CString) (tid : Tid)
    (_expectedSize : Nat) : Option (Option Reply) := do
  let filesize ← awaitedSize fs path
  let committed ← server.isCommitted fs path
  let fileSizeCheck := decide (filesize ≤ unsignedTid tid)
  let isFnu := decide (server.clEngine.getFireRule path = capioFileModeNoUpdate)
  let isProducer ← server.isProducer path tid
  if committed || isProducer || (fileSizeCheck && isFnu) then
    let reply ← server.clientManager.replyToClient tid filesize
    some (some reply)
  else some none

def withFileManager (server : CapioServer) (fm : CapioFileManager) : CapioServer :=
  { server with fileManager := fm }

def addThreadAwaitingCreation (server : CapioServer) (path : CString) (tid : Tid) : CapioServer :=
  let table := UnorderedMap.emplace server.fileManager.threadAwaitingFileCreation path []
  server.withFileManager { server.fileManager with
    threadAwaitingFileCreation := table.insert path ((table.lookup path).getD [] ++ [tid]) }

def unlockThreadAwaitingCreation (server : CapioServer) (path : CString) :
    Option (CapioServer × List Reply) := do
  let table := server.fileManager.threadAwaitingFileCreation
  let replies ← match table.lookup path with
    | some tids => tids.mapM (fun tid => server.clientManager.replyToClient tid 1)
    | none => some []
  some (server.withFileManager { server.fileManager with
    threadAwaitingFileCreation := table.erase path }, replies)

def deleteFileAwaitingCreation (server : CapioServer) (path : CString) : CapioServer :=
  server.withFileManager { server.fileManager with
    threadAwaitingFileCreation := server.fileManager.threadAwaitingFileCreation.erase path }

def addThreadAwaitingData (server : CapioServer) (path : CString) (tid : Tid) (expectedSize : Nat) :
    CapioServer :=
  let table := UnorderedMap.emplace server.fileManager.threadAwaitingData path ∅
  let threads := (table.lookup path).getD ∅
  server.withFileManager { server.fileManager with
    threadAwaitingData := table.insert path (UnorderedMap.emplace threads tid expectedSize) }

def checkAndUnlockThreadAwaitingData (server : CapioServer) (fs : FileSystem) (path : CString) :
    Option (CapioServer × List Reply) := do
  let table := server.fileManager.threadAwaitingData
  match table.lookup path with
  | none => some (server, [])
  | some threads =>
    let (threads, replies) ← UnorderedMap.drain (server.unlockBody fs path) threads
    let table := table.insert path threads
    some (server.withFileManager { server.fileManager with
      threadAwaitingData := if threads.keys = [] then table.erase path else table }, replies)

/-- The whole of `increaseCloseCount` under its lock file. A directory cannot be
opened for writing and the null stream is then used. -/
def increaseCloseCount (server : CapioServer) (fs : FileSystem) (path : CString) : Option FileSystem :=
  let token := server.token path
  if fs.isDirectory token then none
  else some (fs.set token (some (.file (printCount (tokenCount fs token + 1)))))

/-- The token creation at the head of `setCommitted`. The mode bits given as open
flags contain `O_EXCL`. -/
def createToken (server : CapioServer) (fs : FileSystem) (path : CString) : FileSystem :=
  fs.createExclusive (server.token path)

def addProducer (server : CapioServer) (path : CString) (tid : Tid) : Option CapioServer := do
  let name ← server.clientManager.getAppName tid
  let engine ← server.clEngine.addProducer path name
  some { server with clEngine := engine }

end CapioServer

def Call.run (server : CapioServer) (fs : FileSystem) : Call → Option Outcome
  | .addThreadAwaitingCreation path tid => some (server.addThreadAwaitingCreation path tid, fs, [])
  | .unlockThreadAwaitingCreation path => do
    let (server, replies) ← server.unlockThreadAwaitingCreation path
    some (server, fs, replies)
  | .deleteFileAwaitingCreation path => some (server.deleteFileAwaitingCreation path, fs, [])
  | .addThreadAwaitingData path tid size => some (server.addThreadAwaitingData path tid size, fs, [])
  | .checkAndUnlockThreadAwaitingData path => do
    let (server, replies) ← server.checkAndUnlockThreadAwaitingData fs path
    some (server, fs, replies)
  | .createToken path => some (server, server.createToken fs path, [])
  | .increaseCloseCount path => do
    let fs ← server.increaseCloseCount fs path
    some (server, fs, [])
  | .addProducer path tid => do
    let server ← server.addProducer path tid
    some (server, fs, [])
  | .registerNewClient tid appName =>
    some ({ server with clientManager := server.clientManager.registerNewClient tid appName }, fs, [])
  | .removeClient tid =>
    some ({ server with clientManager := server.clientManager.removeClient tid }, fs, [])

/-- `setCommitted` of a path. -/
def setCommitted (path : CString) : List Call :=
  [.createToken path, .checkAndUnlockThreadAwaitingData path, .unlockThreadAwaitingCreation path]

abbrev Decision := List Call × List Reply

section
variable (server : CapioServer) (fs : FileSystem)

def closeHandler (tid : Tid) (path : CString) : Option Decision := do
  if ¬ server.fileToBeHandled path then return ([], [])
  if server.clEngine.getCommitRule path = capioFileCommittedOnClose then
    if ← server.isProducer path tid then
      return (setCommitted path ++ [.increaseCloseCount path], [])
  return ([], [])

def consentToProceedHandler (tid : Tid) (path _sourceFunc : CString) : Option Decision := do
  if ¬ server.fileToBeHandled path then return ([], [← server.clientManager.replyToClient tid 1])
  if ← server.isProducer path tid then return ([], [← server.clientManager.replyToClient tid 1])
  let fileExists := fs.fileExists path
  let committed ← server.isCommitted fs path
  let firable := decide (server.clEngine.getFireRule path = capioFileModeNoUpdate)
  if fileExists && (committed || firable) then
    return ([], [← server.clientManager.replyToClient tid 1])
  return ([.addThreadAwaitingData path tid 0], [])

/-- Also serves `CAPIO_REQUEST_MKDIR`. `add_producer_file_path` is not called. -/
def createHandler (tid _fd : Tid) (path : CString) : Option Decision :=
  some ([.unlockThreadAwaitingCreation path, .addProducer path tid], [])

/-- `setCommitted` of a thread walks the files recorded for it. -/
def exitHandler (tid : Tid) : Option Decision := do
  let files ← server.clientManager.getProducedFiles tid
  return (files.flatMap setCommitted ++ [.removeClient tid], [])

def handshakeAnonymousHandler (tid _pid : Tid) : Option Decision :=
  some ([.registerNewClient tid capioDefaultAppName], [])

def handshakeNamedHandler (tid _pid : Tid) (appName : CString) : Option Decision :=
  some ([.registerNewClient tid appName], [])

def openHandler (tid _fd : Tid) (path : CString) : Option Decision := do
  if fs.fileExists path then return ([], [← server.clientManager.replyToClient tid 1])
  if ← server.isProducer path tid then return ([], [← server.clientManager.replyToClient tid 1])
  return ([.addThreadAwaitingCreation path tid], [])

def readHandler (path : CString) (tid _fd : Tid) (endOfRead : Nat) : Option Decision := do
  if ¬ server.fileToBeHandled path then return ([], [← server.clientManager.replyToClient tid 1])
  let isCommitted ← server.isCommitted fs path
  let fileSize ← getFileSizeIfExists fs path
  let answer := if isCommitted then ullongMax else fileSize
  if endOfRead ≤ fileSize ∨ isCommitted then
    return ([], [← server.clientManager.replyToClient tid answer])
  if ← server.isProducer path tid then
    return ([], [← server.clientManager.replyToClient tid answer])
  return ([.addThreadAwaitingData path tid endOfRead], [])

def renameHandler (_tid : Tid) (_oldPath newPath : CString) : Option Decision :=
  some ([.unlockThreadAwaitingCreation newPath], [])

def writeHandler (_tid _fd : Tid) (path : CString) (_writeSize : Nat) : Option Decision :=
  if ¬ server.fileToBeHandled path then some ([], [])
  else some ([.checkAndUnlockThreadAwaitingData path], [])

/-- The entry of `request_handlers` for the request. -/
def handle : Request → Option Decision
  | .consent tid path sourceFunc => consentToProceedHandler server fs tid path sourceFunc
  | .close tid path => closeHandler server tid path
  | .create tid fd path => createHandler tid fd path
  | .exitGroup tid => exitHandler server tid
  | .handshakeNamed tid pid appName => handshakeNamedHandler tid pid appName
  | .handshakeAnonymous tid pid => handshakeAnonymousHandler tid pid
  | .openFile tid fd path => openHandler server fs tid fd path
  | .read path tid fd endOfRead => readHandler server fs path tid fd endOfRead
  | .rename tid oldPath newPath => renameHandler tid oldPath newPath
  | .write tid fd path count => writeHandler server tid fd path count

end

end Capio.Server
