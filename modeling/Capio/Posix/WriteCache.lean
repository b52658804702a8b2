import Capio.Common.StdPath
import Capio.Library.RunLength
import Capio.Library.Throughout
import Capio.Posix.OffsetHandlers
import Capio.Posix.Requests

/-! The cache in which a thread collects the bytes it writes, and when the messages it
sends account for every byte. -/
namespace Capio.Posix
open Library

/-- A message of the thread: a WRITE as the cache prints it, or another request. -/
inductive SentMessage where
  | write (tid fd : Int) (path : CString) (count : Int)
  | other (request : Request)
  deriving DecidableEq

def SentMessage.text : SentMessage → CString
  | write tid fd path count => sprintf capioRequestWrite [.int tid, .int fd, .word path, .int count]
  | other request => requestText request

structure WriteRequestCache where
  currentFd : Int
  currentSize : Int
  maxSize : Nat
  currentPath : CString

namespace WriteRequestCache

def start (maxSize : Nat) : WriteRequestCache := ⟨-1, 0, maxSize, []⟩

section Operations
variable (c : WriteRequestCache)

/-- `_write_request`. -/
def sendWriteRequest (count tid fd : Int) : SentMessage := .write tid fd c.currentPath count

/-- The arguments stand in another order than the parameters of `sendWriteRequest`. -/
def flush (tid : Int) : WriteRequestCache × List SentMessage :=
  ({ c with currentFd := -1, currentSize := 0 },
    if c.currentFd ≠ -1 ∧ 0 < c.currentSize then [c.sendWriteRequest tid c.currentFd c.currentSize] else [])

def switches (path : CString) (fd : Int) : Bool :=
  fd ≠ c.currentFd || !StdPath.same path c.currentPath

def turnTo (path : CString) (tid fd : Int) : WriteRequestCache × List SentMessage :=
  if c.switches path fd then
    ({ (c.flush tid).1 with currentPath := path, currentFd := fd }, (c.flush tid).2)
  else (c, [])

def flushFull (tid : Int) : WriteRequestCache × List SentMessage :=
  if c.maxSize < capioOff64 c.currentSize then c.flush tid else (c, [])

def writeRequest (path : CString) (tid fd count : Int) : WriteRequestCache × List SentMessage :=
  let (c, sent) := c.turnTo path tid fd
  let (c, full) := flushFull { c with currentSize := c.currentSize + count } tid
  (c, sent ++ full)

/-- The requests that flush the cache of the thread first. -/
def announce (tid : Int) (request : Request) : WriteRequestCache × List SentMessage :=
  let (c, sent) := c.flush (toInt tid)
  (c, sent ++ [.other request])

def closeRequest (path : CString) (tid : Int) : WriteRequestCache × List SentMessage :=
  c.announce tid (.close tid path)

def openRequest (fd : Int) (path : CString) (tid : Int) : WriteRequestCache × List SentMessage :=
  c.announce tid (.openFile tid fd path)

def exitGroupRequest (tid : Int) : WriteRequestCache × List SentMessage :=
  c.announce tid (.exitGroup tid)

end Operations
end WriteRequestCache

/-- What a thread makes of its write cache. -/
inductive WriteCall where
  | write (path : CString) (tid fd count : Int)
  | flush (tid : Int)
  | close (path : CString) (tid : Int)
  | openFile (fd : Int) (path : CString) (tid : Int)
  | exitGroup (tid : Int)
  deriving DecidableEq

abbrev Bytes := Piece (CString × Int) Request

namespace WriteCall

def perform (c : WriteRequestCache) : WriteCall → WriteRequestCache × List SentMessage
  | write path tid fd count => c.writeRequest path tid fd count
  | flush tid => c.flush tid
  | close path tid => c.closeRequest path tid
  | openFile fd path tid => c.openRequest fd path tid
  | exitGroup tid => c.exitGroupRequest tid

def count : WriteCall → Int
  | write _ _ _ count => count
  | _ => 0

/-- What the server must learn of: bytes of a path and descriptor, and the other requests. -/
def asked : WriteCall → List Bytes
  | write path _ fd count => [.run (path, fd) count]
  | flush _ => []
  | close path tid => [.mark (.close tid path)]
  | openFile fd path tid => [.mark (.openFile tid fd path)]
  | exitGroup tid => [.mark (.exitGroup tid)]

def announces : WriteCall → Bool
  | close .. | openFile .. | exitGroup .. => true
  | _ => false

end WriteCall

def SentMessage.piece : SentMessage → Bytes
  | write _ fd path count => .run (path, fd) count
  | other request => .mark request

def WriteRequestCache.pending (c : WriteRequestCache) : Bytes := .run (c.currentPath, c.currentFd) c.currentSize

structure WriteSession where
  cache : WriteRequestCache
  sent : List SentMessage

namespace WriteSession

def perform (s : WriteSession) (call : WriteCall) : WriteSession :=
  ⟨(call.perform s.cache).1, s.sent ++ (call.perform s.cache).2⟩

def after (maxSize : Nat) (calls : List WriteCall) : WriteSession := calls.foldl perform ⟨.start maxSize, []⟩

/-- What the messages tell and what is pending. -/
def told (s : WriteSession) : List Bytes := s.sent.map SentMessage.piece ++ [s.cache.pending]

end WriteSession

/-- No byte is lost, counted twice, moved to another file or out of its place, after the
calls `pre` and then `call`. -/
structure LosesNothing (maxSize : Nat) (pre : List WriteCall) (call : WriteCall) : Prop where
  counts : ∀ path fd, Piece.total (WriteSession.after maxSize (pre ++ [call])).told (path, fd) =
    Piece.total ((pre ++ [call]).flatMap WriteCall.asked) (path, fd)
  order : Piece.expand (WriteSession.after maxSize (pre ++ [call])).told =
    Piece.expand ((pre ++ [call]).flatMap WriteCall.asked)
  bounded : (WriteSession.after maxSize (pre ++ [call])).cache.currentSize ≤ maxSize
  settled : call.announces → (WriteSession.after maxSize (pre ++ [call])).cache.currentSize = 0

/-- The counts are not negative, and their sum is below 2^63. -/
structure WithinLimits (calls : List WriteCall) : Prop where
  nonnegative : ∀ call ∈ calls, 0 ≤ call.count
  sum : (calls.map WriteCall.count).sum < 0x8000000000000000

namespace WriteRequestCache

/-- The printed fields are right where the thread, the descriptor and the pending size are
one number. -/
def FlushesRight (c : WriteRequestCache) (tid : Int) : Prop :=
  0 < c.currentSize → tid = c.currentFd ∧ c.currentFd = c.currentSize

/-- What is pending when the call's own bytes are added. -/
def carried (c : WriteRequestCache) (path : CString) (fd : Int) : Int :=
  if c.switches path fd then 0 else c.currentSize

def PerformsRight (c : WriteRequestCache) : WriteCall → Prop
  | .write path tid fd count =>
    (c.switches path fd → c.FlushesRight tid) ∧
    (c.switches path fd = false → 0 < count → path = c.currentPath) ∧
    (c.maxSize < c.carried path fd + count → tid = fd ∧ fd = c.carried path fd + count)
  | .flush tid => c.FlushesRight tid
  | .close _ tid | .openFile _ _ tid | .exitGroup tid => c.FlushesRight (toInt tid)

section Flush
variable {c : WriteRequestCache} {tid : Int}

/-- The bytes of a flushed cache, as the WRITE tells them. -/
private theorem flush_total (k : CString × Int) : Piece.total ((c.flush tid).2.map SentMessage.piece) k =
    if c.currentFd ≠ -1 ∧ 0 < c.currentSize ∧ (c.currentPath, c.currentSize) = k then tid else 0 := by
  unfold flush
  by_cases hsent : c.currentFd ≠ -1 ∧ 0 < c.currentSize
  · simp only [if_pos hsent, List.map_singleton, sendWriteRequest, SentMessage.piece, Piece.total_run]
    simp only [hsent, true_and, ne_eq, not_false_eq_true]
  · rw [if_neg hsent, if_neg (fun h => hsent ⟨h.1, h.2.1⟩)]
    rfl

private theorem flush_pending (k : CString × Int) : Piece.total [(c.flush tid).1.pending] k = 0 := by
  rw [pending, flush, Piece.total_run, ite_self]

theorem flush_empties : Piece.Same [(c.flush tid).1.pending] [] := .zero _

theorem flush_same (hsize : 0 ≤ c.currentSize) (hright : c.FlushesRight tid) :
    Piece.Same ((c.flush tid).2.map SentMessage.piece) [c.pending] := by
  rcases hsize.eq_or_lt with hzero | hpos
  · have hnone : (c.flush tid).2 = [] := by simp [flush, ← hzero]
    have hpending : c.pending = .run (c.currentPath, c.currentFd) 0 := by rw [pending, ← hzero]
    rw [hnone, hpending]
    exact (Piece.Same.zero _).symm
  · obtain ⟨htid, hfd⟩ := hright hpos
    have hone : (c.flush tid).2.map SentMessage.piece = [c.pending] := by
      rw [flush, if_pos ⟨by omega, hpos⟩, List.map_singleton, sendWriteRequest, SentMessage.piece, pending,
        htid, ← hfd]
    rw [hone]
    exact .refl _

theorem flushesRight_of_total (h : ∀ k, Piece.total ((c.flush tid).2.map SentMessage.piece) k =
    Piece.total [c.pending] k) : c.FlushesRight tid := by
  intro hpos
  have htotal := h (c.currentPath, c.currentFd)
  rw [flush_total, pending, Piece.total_run, if_pos rfl] at htotal
  split_ifs at htotal with hsent
  · rw [Prod.mk.injEq] at hsent
    omega
  · omega

end Flush

/-- Two flushes that make up together for what was pending are right each for itself. -/
private theorem both_right {c d : WriteRequestCache} {tid : Int} (hne : (c.currentPath, c.currentFd) ≠ (d.currentPath, d.currentFd))
    (h : ∀ k, Piece.total ((c.flush tid).2.map SentMessage.piece) k +
      Piece.total ((d.flush tid).2.map SentMessage.piece) k =
      Piece.total [c.pending] k + Piece.total [d.pending] k) :
    c.FlushesRight tid ∧ d.FlushesRight tid := by
  have hfirst := h (c.currentPath, c.currentFd)
  have hsecond := h (d.currentPath, d.currentFd)
  simp only [flush_total, pending, Piece.total_run, if_neg hne, if_neg hne.symm, if_true] at hfirst hsecond
  simp only [Prod.mk.injEq] at hfirst hsecond
  by_cases hpath : c.currentPath = d.currentPath
  · have hfd : c.currentFd ≠ d.currentFd := fun hfd => hne (by rw [hpath, hfd])
    simp only [hpath, true_and] at hfirst hsecond
    constructor <;> intro hpos <;> split_ifs at hfirst hsecond <;> omega
  · simp only [hpath, Ne.symm hpath, false_and, and_false, true_and, if_false] at hfirst hsecond
    constructor <;> intro hpos <;> split_ifs at hfirst hsecond <;> omega

/-- The bytes told by a call and those pending after it. -/
def output (c : WriteRequestCache) (call : WriteCall) : List Bytes :=
  (call.perform c).2.map SentMessage.piece ++ [(call.perform c).1.pending]

section Write
variable {c : WriteRequestCache} {path : CString} {tid fd count : Int}

/-- The cache with the bytes of the call, before it is flushed for being full. -/
def grown (c : WriteRequestCache) (path : CString) (tid fd count : Int) : WriteRequestCache :=
  { (c.turnTo path tid fd).1 with currentSize := (c.turnTo path tid fd).1.currentSize + count }

theorem output_write : c.output (.write path tid fd count) =
    (c.turnTo path tid fd).2.map SentMessage.piece ++
      (((c.grown path tid fd count).flushFull tid).2.map SentMessage.piece ++
        [((c.grown path tid fd count).flushFull tid).1.pending]) := by
  simp only [output, WriteCall.perform, writeRequest, List.map_append, List.append_assoc]
  rfl

variable (c path tid fd) in
theorem turnTo_spec : (c.turnTo path tid fd).1.currentFd = fd ∧
    (c.turnTo path tid fd).1.currentSize = c.carried path fd ∧
    (c.turnTo path tid fd).1.maxSize = c.maxSize ∧
    (c.turnTo path tid fd).1.currentPath = if c.switches path fd then path else c.currentPath := by
  unfold turnTo carried
  cases hsw : c.switches path fd with
  | true => simp [flush]
  | false =>
    have hfd : fd = c.currentFd := by
      simp [switches] at hsw
      exact hsw.1
    simp [hfd]

variable (tid) in
theorem turnTo_stays (hsw : c.switches path fd = false) : c.turnTo path tid fd = (c, []) :=
  if_neg (by simp [hsw])

variable (tid) in
theorem turnTo_switches (hsw : c.switches path fd) : c.turnTo path tid fd =
    ({ (c.flush tid).1 with currentPath := path, currentFd := fd }, (c.flush tid).2) :=
  if_pos hsw

variable (c path tid fd count) in
theorem grown_spec : (c.grown path tid fd count).currentFd = fd ∧
    (c.grown path tid fd count).currentSize = c.carried path fd + count ∧
    (c.grown path tid fd count).maxSize = c.maxSize ∧
    (c.grown path tid fd count).currentPath = (c.turnTo path tid fd).1.currentPath := by
  obtain ⟨hfd, hsize, hmax, _⟩ := c.turnTo_spec path tid fd
  exact ⟨hfd, by rw [grown, hsize], hmax, rfl⟩

theorem carried_nonneg (hsize : 0 ≤ c.currentSize) : 0 ≤ c.carried path fd := by
  unfold carried
  split_ifs
  · exact le_rfl
  · exact hsize

/-- Sizes that fit the signed type compare as they are. -/
theorem flushFull_eq (hsize : 0 ≤ c.currentSize) (hlong : c.currentSize < 0x8000000000000000) :
    c.flushFull tid = if (c.maxSize : Int) < c.currentSize then c.flush tid else (c, []) := by
  unfold flushFull capioOff64
  rw [Int.emod_eq_of_lt hsize (by omega)]
  refine if_congr ?_ rfl rfl
  omega

variable (tid) in
theorem flushFull_same (hsize : 0 ≤ c.currentSize) (hlong : c.currentSize < 0x8000000000000000)
    (hright : (c.maxSize : Int) < c.currentSize → c.FlushesRight tid) :
    Piece.Same ((c.flushFull tid).2.map SentMessage.piece ++ [(c.flushFull tid).1.pending]) [c.pending] := by
  rw [flushFull_eq hsize hlong]
  split_ifs with hfull
  · simpa using (flush_same hsize (hright hfull)).append flush_empties
  · exact .refl _

theorem turnTo_same (hsize : 0 ≤ c.currentSize) (hright : c.switches path fd → c.FlushesRight tid) :
    Piece.Same ((c.turnTo path tid fd).2.map SentMessage.piece ++ [(c.turnTo path tid fd).1.pending]) [c.pending] := by
  unfold turnTo
  split_ifs with hsw
  · have hturned : Piece.Same [({ (c.flush tid).1 with currentPath := path, currentFd := fd } :
        WriteRequestCache).pending] [] := .zero _
    simpa using (flush_same hsize (hright hsw)).append hturned
  · exact .refl _

/-- The bytes of a call are pending for the file and the descriptor of the call. -/
theorem grown_same (hsize : 0 ≤ c.currentSize) (hcount : 0 ≤ count)
    (hspelled : c.switches path fd = false → 0 < count → path = c.currentPath) :
    Piece.Same [(c.grown path tid fd count).pending]
      ([(c.turnTo path tid fd).1.pending] ++ [.run (path, fd) count]) := by
  obtain ⟨hfd, hcarried, _, hpath⟩ := c.turnTo_spec path tid fd
  obtain ⟨hfd', hgrown, _, hpath'⟩ := c.grown_spec path tid fd count
  have hnonneg : 0 ≤ c.carried path fd := carried_nonneg hsize
  rw [pending, pending, hfd, hcarried, hfd', hgrown, hpath']
  rcases hcount.eq_or_lt with hzero | hpos
  · rw [← hzero, Int.add_zero]
    exact (Piece.Same.refl [_]).append (Piece.Same.zero (path, fd)).symm
  · have hsame : (c.turnTo path tid fd).1.currentPath = path := by
      rw [hpath]
      cases hsw : c.switches path fd with
      | true => rfl
      | false => exact (hspelled hsw hpos).symm
    rw [hsame]
    exact (Piece.Same.join (path, fd) hnonneg hcount).symm

theorem output_write_same (hsize : 0 ≤ c.currentSize) (hcount : 0 ≤ count)
    (hlong : c.carried path fd + count < 0x8000000000000000) (hright : c.PerformsRight (.write path tid fd count)) :
    Piece.Same (c.output (.write path tid fd count)) ([c.pending] ++ [.run (path, fd) count]) := by
  obtain ⟨hturn, hspelled, hfull⟩ := hright
  obtain ⟨hfd, hgrown, hmax, _⟩ := c.grown_spec path tid fd count
  have hnonneg : 0 ≤ c.carried path fd := carried_nonneg hsize
  have hfulls : ((c.grown path tid fd count).maxSize : Int) < (c.grown path tid fd count).currentSize →
      (c.grown path tid fd count).FlushesRight tid := by
    intro hover _
    rw [hmax, hgrown] at hover
    rw [hfd, hgrown]
    exact hfull hover
  have hflushed : Piece.Same _ [(c.grown path tid fd count).pending] :=
    flushFull_same tid (by omega) (by omega) hfulls
  have hpending := hflushed.trans (grown_same hsize hcount hspelled)
  have htold := (Piece.Same.refl ((c.turnTo path tid fd).2.map SentMessage.piece)).append hpending
  have hturned := (turnTo_same hsize hturn).append (Piece.Same.refl [.run (path, fd) count])
  rw [List.append_assoc] at hturned
  rw [output_write]
  exact htold.trans hturned

variable (tid) in
theorem turned_total (hsw : c.switches path fd) (k : CString × Int) :
    Piece.total [(c.turnTo path tid fd).1.pending] k = 0 := by
  rw [turnTo_switches tid hsw, pending, Piece.total_run]
  exact ite_self 0

variable (tid count) in
/-- A switch tells the old bytes and the new ones under different keys. -/
theorem grown_key_ne (hsw : c.switches path fd) : (c.currentPath, c.currentFd) ≠
    ((c.grown path tid fd count).currentPath, (c.grown path tid fd count).currentFd) := by
  obtain ⟨hfd, _, _, hpath⟩ := c.grown_spec path tid fd count
  rw [hfd, hpath, (c.turnTo_spec path tid fd).2.2.2, if_pos hsw]
  intro he
  obtain ⟨rfl, rfl⟩ := Prod.mk.inj he
  simp [switches, StdPath.same] at hsw

/-- A flush for being full, told by what it leaves of a size that fits the type. -/
theorem flushFull_total (hsize : 0 ≤ c.currentSize) (hlong : c.currentSize < 0x8000000000000000)
    (k : CString × Int) :
    Piece.total ((c.flushFull tid).2.map SentMessage.piece ++ [(c.flushFull tid).1.pending]) k =
      if (c.maxSize : Int) < c.currentSize then Piece.total ((c.flush tid).2.map SentMessage.piece) k
      else Piece.total [c.pending] k := by
  rw [flushFull_eq hsize hlong, Piece.total_append]
  split_ifs
  · rw [flush_pending, Int.add_zero]
  · exact Int.zero_add _

/-- Bytes that go on with the current file are only accounted for under its spelling. -/
theorem spelled_of_total (hpos : 0 < count) (hsize : 0 ≤ c.currentSize) (hsw : c.switches path fd = false)
    (hlong : c.carried path fd + count < 0x8000000000000000)
    (h : ∀ k, Piece.total (c.output (.write path tid fd count)) k =
      Piece.total ([c.pending] ++ [.run (path, fd) count]) k) : path = c.currentPath := by
  obtain ⟨hfd, hgrown, _, hpath⟩ := c.grown_spec path tid fd count
  have hnonneg : 0 ≤ c.carried path fd := carried_nonneg hsize
  have hcurrent : (c.grown path tid fd count).currentPath = c.currentPath := by
    rw [hpath, turnTo_stays tid hsw]
  have hsent : (c.turnTo path tid fd).2 = [] := by rw [turnTo_stays tid hsw]
  by_contra hne
  have htotal := h (path, fd)
  rw [output_write, Piece.total_append, flushFull_total (by omega) (by omega), hsent, flush_total, pending,
    Piece.total_append, pending, hcurrent] at htotal
  simp only [Piece.total_run, Prod.mk.injEq, Ne.symm hne, false_and, and_false, if_false, if_true, ite_self] at htotal
  have hnone : Piece.total (List.map SentMessage.piece []) (path, fd) = 0 := rfl
  omega

theorem performsRight_of_total_write (hsize : 0 ≤ c.currentSize) (hcount : 0 ≤ count)
    (hlong : c.carried path fd + count < 0x8000000000000000)
    (h : ∀ k, Piece.total (c.output (.write path tid fd count)) k =
      Piece.total ([c.pending] ++ [.run (path, fd) count]) k) : c.PerformsRight (.write path tid fd count) := by
  have hspelled : c.switches path fd = false → 0 < count → path = c.currentPath :=
    fun hsw hpos => spelled_of_total hpos hsize hsw hlong h
  have hgrow (k : CString × Int) : Piece.total [(c.grown path tid fd count).pending] k =
      Piece.total [(c.turnTo path tid fd).1.pending] k + Piece.total [(.run (path, fd) count : Bytes)] k := by
    rw [(grown_same hsize hcount hspelled).total, Piece.total_append]
  obtain ⟨hfd, hgrown, hmax, _⟩ := c.grown_spec path tid fd count
  have hnonneg : 0 ≤ c.carried path fd := carried_nonneg hsize
  have hfull (hright : c.maxSize < c.carried path fd + count → (c.grown path tid fd count).FlushesRight tid)
      (hover : (c.maxSize : Int) < c.carried path fd + count) : tid = fd ∧ fd = c.carried path fd + count := by
    have hright := hright hover (by omega)
    rwa [hfd, hgrown] at hright
  have hlarge : (c.maxSize : Int) < c.carried path fd + count ↔
      ((c.grown path tid fd count).maxSize : Int) < (c.grown path tid fd count).currentSize := by
    rw [hmax, hgrown]
  simp only [output_write, Piece.total_append _ (_ ++ _), flushFull_total (by omega : 0 ≤ (c.grown path tid fd count).currentSize)
    (by omega), ← hlarge, Piece.total_append [c.pending]] at h
  cases hsw : c.switches path fd with
  | false =>
    refine ⟨fun hsw' => ?_, hspelled, hfull fun hover => flushesRight_of_total fun k => ?_⟩
    · simp [hsw] at hsw'
    · have hk := h k
      rw [if_pos hover, turnTo_stays tid hsw] at hk
      rw [hgrow, turnTo_stays tid hsw]
      simpa [Piece.total] using hk
  | true =>
    have hturned := turned_total tid hsw
    have hsent : (c.turnTo path tid fd).2 = (c.flush tid).2 := by rw [turnTo_switches tid hsw]
    by_cases hover : (c.maxSize : Int) < c.carried path fd + count
    · obtain ⟨hfirst, hsecond⟩ := both_right (grown_key_ne tid count hsw) fun k => by
        have hk := h k
        rw [hsent, if_pos hover] at hk
        rw [hgrow, hturned, Int.zero_add]
        exact hk
      exact ⟨fun _ => hfirst, hspelled, hfull fun _ => hsecond⟩
    · refine ⟨fun _ => flushesRight_of_total fun k => ?_, hspelled, fun hover' => absurd hover' hover⟩
      have hk := h k
      rw [if_neg hover, hgrow, hturned, Int.zero_add, hsent] at hk
      exact add_right_cancel hk

end Write

section Others
variable {c : WriteRequestCache} {call : WriteCall} {tid : Int}

theorem output_flushing (hsent : (call.perform c).2.map SentMessage.piece =
      (c.flush tid).2.map SentMessage.piece ++ call.asked)
    (hcache : (call.perform c).1 = (c.flush tid).1) (hsize : 0 ≤ c.currentSize) :
    (c.FlushesRight tid → Piece.Same (c.output call) ([c.pending] ++ call.asked)) ∧
    ((∀ k, Piece.total (c.output call) k = Piece.total ([c.pending] ++ call.asked) k) → c.FlushesRight tid) := by
  constructor
  · intro hright
    rw [output, hsent, hcache]
    simpa using ((flush_same hsize hright).append (.refl call.asked)).append flush_empties
  · intro h
    refine flushesRight_of_total fun k => ?_
    have hk := h k
    rw [output, hsent, hcache, Piece.total_append, flush_pending, Int.add_zero, Piece.total_append,
      Piece.total_append] at hk
    exact add_right_cancel hk

/-- Exactly the calls that are performed right account for their bytes. -/
theorem output_iff (hsize : 0 ≤ c.currentSize) (hcount : 0 ≤ call.count)
    (hlong : c.currentSize + call.count < 0x8000000000000000) :
    (c.PerformsRight call → Piece.Same (c.output call) ([c.pending] ++ call.asked)) ∧
    ((∀ k, Piece.total (c.output call) k = Piece.total ([c.pending] ++ call.asked) k) → c.PerformsRight call) := by
  cases call with
  | write path tid fd count =>
    have hcarried : c.carried path fd + count < 0x8000000000000000 := by
      unfold carried
      unfold WriteCall.count at hlong
      dsimp only at hlong
      split_ifs <;> omega
    exact ⟨output_write_same hsize hcount hcarried, performsRight_of_total_write hsize hcount hcarried⟩
  | flush tid => exact output_flushing (by simp [WriteCall.perform, WriteCall.asked]) rfl hsize
  | close path tid => exact output_flushing (List.map_append ..) rfl hsize
  | openFile fd path tid => exact output_flushing (List.map_append ..) rfl hsize
  | exitGroup tid => exact output_flushing (List.map_append ..) rfl hsize

/-- What is pending after a call. -/
theorem perform_pending (hsize : 0 ≤ c.currentSize) (hcount : 0 ≤ call.count)
    (hlong : c.currentSize + call.count < 0x8000000000000000) :
    0 ≤ (call.perform c).1.currentSize ∧ (call.perform c).1.currentSize ≤ c.currentSize + call.count ∧
    (call.perform c).1.currentSize ≤ c.maxSize ∧ (call.perform c).1.maxSize = c.maxSize ∧
    (call.announces → (call.perform c).1.currentSize = 0) := by
  cases call with
  | write path tid fd count =>
    obtain ⟨_, hgrown, hmax, _⟩ := c.grown_spec path tid fd count
    have hcount : 0 ≤ count := hcount
    have hlong : c.currentSize + count < 0x8000000000000000 := hlong
    have hcarried : 0 ≤ c.carried path fd ∧ c.carried path fd ≤ c.currentSize := by
      unfold carried
      split_ifs <;> omega
    have hperform : ((WriteCall.write path tid fd count).perform c).1 =
      ((c.grown path tid fd count).flushFull tid).1 := rfl
    have hadded : (WriteCall.write path tid fd count).count = count := rfl
    rw [hperform, flushFull_eq (by omega) (by omega), hmax, hgrown, hadded]
    split_ifs with hover
    · refine ⟨le_rfl, ?_, Int.natCast_nonneg _, hmax, ?_⟩
      · exact Int.add_nonneg hsize hcount
      · exact fun _ => rfl
    · dsimp only
      rw [hgrown]
      refine ⟨?_, ?_, ?_, hmax, ?_⟩
      · omega
      · omega
      · omega
      · simp [WriteCall.announces]
  | _ =>
    refine ⟨le_rfl, ?_, Int.natCast_nonneg _, rfl, fun _ => rfl⟩
    exact Int.add_nonneg hsize hcount

end Others
end WriteRequestCache

namespace WriteSession
variable {maxSize : Nat} {calls : List WriteCall} {call : WriteCall}

theorem after_concat : after maxSize (calls ++ [call]) = (after maxSize calls).perform call := by
  simp [after]

theorem told_perform (s : WriteSession) :
    (s.perform call).told = s.sent.map SentMessage.piece ++ s.cache.output call := by
  simp [told, perform, WriteRequestCache.output]

/-- Nothing is lost so far, and what is pending was asked for. -/
structure Accounted (maxSize : Nat) (calls : List WriteCall) : Prop where
  told : Piece.Same (after maxSize calls).told (calls.flatMap WriteCall.asked)
  nonnegative : 0 ≤ (after maxSize calls).cache.currentSize
  within : (after maxSize calls).cache.currentSize ≤ (calls.map WriteCall.count).sum
  maxSize : (after maxSize calls).cache.maxSize = maxSize

theorem Accounted.start : Accounted maxSize [] := ⟨.zero _, le_rfl, le_rfl, rfl⟩

theorem WithinLimits.shrink (h : WithinLimits (calls ++ [call])) : WithinLimits calls := by
  refine ⟨fun other hother => h.nonnegative other (by simp [hother]), ?_⟩
  have hsum := h.sum
  have hlast := h.nonnegative call (by simp)
  rw [List.map_append, List.sum_append, List.map_singleton, List.sum_singleton] at hsum
  omega

namespace Accounted
variable (h : Accounted maxSize calls) (hlimits : WithinLimits (calls ++ [call]))
include h hlimits

theorem limits : 0 ≤ call.count ∧ (after maxSize calls).cache.currentSize + call.count < 0x8000000000000000 := by
  have hsum := hlimits.sum
  have hwithin := h.within
  rw [List.map_append, List.sum_append, List.map_singleton, List.sum_singleton] at hsum
  exact ⟨hlimits.nonnegative call (by simp), by omega⟩

theorem losesNothing_iff : LosesNothing maxSize calls call ↔ (after maxSize calls).cache.PerformsRight call := by
  obtain ⟨hcount, hlong⟩ := h.limits hlimits
  obtain ⟨hsame, hright⟩ := WriteRequestCache.output_iff h.nonnegative hcount hlong
  obtain ⟨_, _, hbounded, _, hsettled⟩ := WriteRequestCache.perform_pending h.nonnegative hcount hlong
  have hasked : (calls ++ [call]).flatMap WriteCall.asked = calls.flatMap WriteCall.asked ++ call.asked := by
    simp
  have htold : (after maxSize calls).told =
      (after maxSize calls).sent.map SentMessage.piece ++ [(after maxSize calls).cache.pending] := rfl
  constructor
  · intro hloses
    refine hright fun k => ?_
    have hcounts : Piece.total (after maxSize (calls ++ [call])).told k =
        Piece.total ((calls ++ [call]).flatMap WriteCall.asked) k := hloses.counts k.1 k.2
    have hbefore := h.told.total k
    rw [after_concat, told_perform, hasked, Piece.total_append, Piece.total_append] at hcounts
    rw [htold, Piece.total_append] at hbefore
    rw [Piece.total_append]
    omega
  · intro hperforms
    have hall : Piece.Same (after maxSize (calls ++ [call])).told ((calls ++ [call]).flatMap WriteCall.asked) := by
      rw [after_concat, told_perform, hasked]
      refine ((Piece.Same.refl _).append (hsame hperforms)).trans ?_
      rw [← List.append_assoc, ← htold]
      exact h.told.append (.refl _)
    refine ⟨fun path fd => hall.total (path, fd), hall.expand, ?_, ?_⟩
    · rw [after_concat]
      exact hbounded.trans_eq (by rw [h.maxSize])
    · rw [after_concat]
      exact hsettled

theorem concat (hloses : LosesNothing maxSize calls call) : Accounted maxSize (calls ++ [call]) := by
  obtain ⟨hcount, hlong⟩ := h.limits hlimits
  obtain ⟨hnonneg, hwithin, _, hmax, _⟩ := WriteRequestCache.perform_pending h.nonnegative hcount hlong
  refine ⟨⟨fun k => hloses.counts k.1 k.2, hloses.order⟩, ?_, ?_, ?_⟩
  · rw [after_concat]
    exact hnonneg
  · have hbefore := h.within
    rw [after_concat, List.map_append, List.sum_append, List.map_singleton, List.sum_singleton]
    exact hwithin.trans (by omega)
  · rw [after_concat]
    exact hmax.trans h.maxSize

end Accounted
end WriteSession

/-- The calls after which every byte is accounted for are those whose flushes find the
thread, the descriptor and the pending size to be one number. -/
theorem write_cache_exact_iff (maxSize : Nat) (calls : List WriteCall) (hlimits : WithinLimits calls) :
    Throughout (LosesNothing maxSize) calls ↔
      Throughout (fun pre call => (WriteSession.after maxSize pre).cache.PerformsRight call) calls :=
  (Throughout.iff_of_invariant WithinLimits (WriteSession.Accounted maxSize)
    (fun _ _ h => WriteSession.WithinLimits.shrink h) .start (fun _ _ hlimits h => h.losesNothing_iff hlimits)
    (fun _ _ hlimits h hloses => h.concat hlimits hloses) calls hlimits).1

/-- Thread 5 writes five bytes to descriptor 5, and flushes them. -/
def writeFive : List WriteCall := [.write "/capio/a".toList 5 5 5, .flush 5]

theorem write_cache_exact_iff_writeFive : WithinLimits writeFive ∧
    (Throughout (LosesNothing 4096) writeFive ↔
      Throughout (fun pre call => (WriteSession.after 4096 pre).cache.PerformsRight call) writeFive) := by
  have hlimits : WithinLimits writeFive := ⟨by decide, by decide⟩
  exact ⟨hlimits, write_cache_exact_iff 4096 writeFive hlimits⟩

/-- Thread 7 writes ten bytes to descriptor 3 and closes it. -/
def writeTen : List WriteCall := [.write "/capio/a".toList 7 3 10, .close "/capio/a".toList 7]

/-- The WRITE names descriptor 10 and counts seven bytes. -/
theorem written_bytes_lost : WithinLimits writeTen ∧ ¬ Throughout (LosesNothing 4096) writeTen := by
  have hlimits : WithinLimits writeTen := ⟨by decide, by decide⟩
  refine ⟨hlimits, fun h => ?_⟩
  have hcounts := (h [.write "/capio/a".toList 7 3 10] _ [] rfl).counts "/capio/a".toList 3
  exact absurd hcounts (by decide)

end Capio.Posix
