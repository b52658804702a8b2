import Capio.Common.StdPath
import Capio.Library.Throughout
import Capio.Library.UnorderedMap
import Capio.Posix.OffsetHandlers
import Capio.Posix.Requests

/-! The cache that a thread keeps of the server's answers to its reads, and when it
sends the same requests as a thread that kept every answer for the path it asked for. -/
namespace Capio.Posix
open Library

/-- What `_read_request` prints into the request channel. -/
structure ReadMessage where
  path : CString
  endOfRead : Int
  tid : Int
  fd : Int
  deriving DecidableEq

def ReadMessage.text (m : ReadMessage) : CString :=
  sprintf capioRequestRead [.word m.path, .int m.tid, .int m.fd, .int m.endOfRead]

/-- A call of `read_request`, with what the server answers if it is asked. -/
structure ReadCall where
  path : CString
  endOfRead : Int
  tid : Int
  fd : Int
  reply : Nat
  deriving DecidableEq

structure ReadRequestCache where
  currentFd : Int
  maxRead : Nat
  availableReadCache : UnorderedMap CString Nat
  currentPath : CString

namespace ReadRequestCache

def start : ReadRequestCache := ⟨-1, 0, ∅, []⟩

def known (c : ReadRequestCache) (path : CString) : Nat := (c.availableReadCache.lookup path).getD 0

def switches (c : ReadRequestCache) (path : CString) (fd : Int) : Bool :=
  fd ≠ c.currentFd || !StdPath.same path c.currentPath

def takeUp (c : ReadRequestCache) (path : CString) (fd : Int) : ReadRequestCache :=
  match c.availableReadCache.lookup path with
  | some maxRead => { c with currentPath := path, currentFd := fd, maxRead }
  | none => ⟨fd, 0, UnorderedMap.emplace c.availableReadCache path 0, path⟩

/-- `path` is the argument as it stands after the test for another file. -/
def ask (c : ReadRequestCache) (path : CString) (call : ReadCall) : ReadRequestCache × Option ReadMessage :=
  if c.maxRead = ullongMax then (c, none)
  else if c.maxRead < capioOff64 call.endOfRead then
    ({ c with maxRead := call.reply, availableReadCache := c.availableReadCache.insert path call.reply },
      some ⟨c.currentPath, call.endOfRead, call.tid, call.fd⟩)
  else (c, none)

/-- The path that the cache takes up is moved from the argument, which is left empty. -/
def readRequest (c : ReadRequestCache) (call : ReadCall) : ReadRequestCache × Option ReadMessage :=
  if c.switches call.path call.fd then (c.takeUp call.path call.fd).ask [] call
  else c.ask call.path call

end ReadRequestCache

/-- A thread's cache, and the replies received with the path each was asked for, newest
first. -/
structure ReadSession where
  cache : ReadRequestCache
  received : List (CString × Nat)

namespace ReadSession

def lastReply (s : ReadSession) (path : CString) : Nat := (s.received.lookup path).getD 0

def serve (s : ReadSession) (call : ReadCall) : ReadSession :=
  ⟨(s.cache.readRequest call).1,
    if (s.cache.readRequest call).2.isSome then (call.path, call.reply) :: s.received else s.received⟩

def after (calls : List ReadCall) : ReadSession := calls.foldl serve ⟨.start, []⟩

/-- The last reply received for the path decides, and is what the cache holds afterwards. -/
structure Transparent (s : ReadSession) (call : ReadCall) : Prop where
  sent : (s.cache.readRequest call).2.isSome ↔
    ¬ (s.lastReply call.path = ullongMax ∨ call.endOfRead ≤ s.lastReply call.path)
  cached : (s.serve call).cache.known call.path = (s.serve call).lastReply call.path
  maxRead : (s.serve call).cache.maxRead = (s.serve call).lastReply call.path

end ReadSession

/-- A thread that keeps every reply for the path it was asked for. `underEmpty` is the
last reply to a call that turned to another file or named the empty path. -/
structure Replies where
  last : CString → Nat
  fd : Int
  path : CString
  underEmpty : Nat

namespace Replies

def start : Replies := ⟨fun _ => 0, -1, [], 0⟩

def wants (k : Replies) (call : ReadCall) : Bool :=
  k.last call.path ≠ ullongMax && (k.last call.path : Int) < call.endOfRead

def switches (k : Replies) (call : ReadCall) : Bool :=
  call.fd ≠ k.fd || !StdPath.same call.path k.path

/-- What the cache takes for the readable size: it does not look up the path again when
the call goes on with the file of the one before. -/
def offered (k : Replies) (call : ReadCall) : Nat :=
  if k.switches call then if call.path = [] then k.underEmpty else k.last call.path
  else k.last k.path

def next (k : Replies) (call : ReadCall) : Replies :=
  { last := if k.wants call then Function.update k.last call.path call.reply else k.last
    fd := call.fd
    path := call.path
    underEmpty := if k.wants call ∧ (k.switches call ∨ call.path = []) then call.reply else k.underEmpty }

def after (calls : List ReadCall) : Replies := calls.foldl next start

/-- The comparison of the cache, which takes `end_of_read` for unsigned. -/
def sends (k : Replies) (call : ReadCall) : Bool :=
  k.offered call ≠ ullongMax && k.offered call < capioOff64 call.endOfRead

/-- The size offered decides as the last reply does, a size that is not asked for is the
last reply, and a call that turns to another file learns nothing new from its READ. -/
structure Serves (k : Replies) (call : ReadCall) : Prop where
  decides : k.sends call = k.wants call
  keeps : ¬ k.wants call → k.offered call = k.last call.path
  stores : k.switches call → k.wants call → call.path = [] ∨ call.reply = k.last call.path

end Replies

theorem same_iff (p q : CString) : StdPath.same p q = true ↔ StdPath.components p = StdPath.components q := by
  simp [StdPath.same]

theorem ReadSession.after_concat (calls : List ReadCall) (call : ReadCall) :
    after (calls ++ [call]) = (after calls).serve call := by
  simp [after]

theorem Replies.after_concat (calls : List ReadCall) (call : ReadCall) :
    after (calls ++ [call]) = (after calls).next call := by
  simp [after]

namespace ReadRequestCache
variable (c : ReadRequestCache) (path : CString) (fd : Int) (call : ReadCall)

theorem takeUp_spec : (c.takeUp path fd).currentPath = path ∧ (c.takeUp path fd).currentFd = fd ∧
    (c.takeUp path fd).maxRead = c.known path ∧ ∀ q, (c.takeUp path fd).known q = c.known q := by
  unfold takeUp known
  cases h : c.availableReadCache.lookup path with
  | some maxRead => exact ⟨rfl, rfl, rfl, fun _ => rfl⟩
  | none =>
    refine ⟨rfl, rfl, rfl, fun q => ?_⟩
    simp only [UnorderedMap.lookup_emplace, h]
    split_ifs with hq
    · rw [hq, h]
      rfl
    · rfl

def Asks : Prop := c.maxRead ≠ ullongMax ∧ c.maxRead < capioOff64 call.endOfRead

instance : Decidable (c.Asks call) := inferInstanceAs (Decidable (_ ∧ _))

theorem ask_spec : (c.ask path call).1.currentPath = c.currentPath ∧
    (c.ask path call).1.currentFd = c.currentFd ∧
    ((c.ask path call).2.isSome ↔ c.Asks call) ∧
    ((c.ask path call).1.maxRead = if c.Asks call then call.reply else c.maxRead) ∧
    ∀ q, (c.ask path call).1.known q = if c.Asks call ∧ q = path then call.reply else c.known q := by
  unfold ask Asks
  by_cases hmax : c.maxRead = ullongMax
  · simp [hmax]
  · by_cases hlt : c.maxRead < capioOff64 call.endOfRead
    · refine ⟨?_, ?_, ?_, ?_, fun q => ?_⟩
      all_goals simp only [hmax, hlt, if_false, if_true, ne_eq, not_false_eq_true, true_and, Option.isSome]
      simp only [known, UnorderedMap.lookup_insert_eq]
      split_ifs <;> rfl
    · simp [hmax, hlt]

end ReadRequestCache

/-- The cache of a thread whose calls were all served right. -/
structure Refines (s : ReadSession) (k : Replies) : Prop where
  lastReply : s.lastReply = k.last
  currentFd : s.cache.currentFd = k.fd
  currentPath : StdPath.components s.cache.currentPath = StdPath.components k.path
  maxRead : s.cache.maxRead = k.last k.path
  known : ∀ q, q ≠ [] → s.cache.known q = k.last q
  underEmpty : s.cache.known [] = k.underEmpty
  onEmpty : k.path = [] → k.underEmpty = k.last []

namespace Refines
variable {s : ReadSession} {k : Replies} {call : ReadCall}

theorem start : Refines ⟨.start, []⟩ .start :=
  ⟨rfl, rfl, rfl, rfl, fun _ _ => rfl, rfl, fun _ => rfl⟩

theorem switches (h : Refines s k) : s.cache.switches call.path call.fd = k.switches call := by
  unfold ReadRequestCache.switches Replies.switches StdPath.same
  rw [h.currentFd, h.currentPath]

variable (call) in
theorem readRequest_spec (h : Refines s k) :
    ((s.cache.readRequest call).2.isSome ↔ k.sends call) ∧
    (s.cache.readRequest call).1.currentFd = call.fd ∧
    StdPath.components (s.cache.readRequest call).1.currentPath = StdPath.components call.path ∧
    ((s.cache.readRequest call).1.maxRead = if k.sends call then call.reply else k.offered call) ∧
    ∀ q, (s.cache.readRequest call).1.known q =
      if k.sends call ∧ q = (if k.switches call then [] else call.path) then call.reply else s.cache.known q := by
  unfold ReadRequestCache.readRequest
  rw [h.switches]
  cases hsw : k.switches call with
  | true =>
    obtain ⟨hpath, hfd, hmax, hknown⟩ := s.cache.takeUp_spec call.path call.fd
    have hoffered : (s.cache.takeUp call.path call.fd).maxRead = k.offered call := by
      rw [hmax, Replies.offered, if_pos hsw]
      split_ifs with hp
      · rw [hp, h.underEmpty]
      · exact h.known _ hp
    have hasks : (s.cache.takeUp call.path call.fd).Asks call ↔ k.sends call := by
      simp [ReadRequestCache.Asks, hoffered, Replies.sends]
    obtain ⟨hpath', hfd', hsent, hmax', hknown'⟩ := (s.cache.takeUp call.path call.fd).ask_spec [] call
    simp only [if_true]
    refine ⟨hsent.trans hasks, hfd'.trans hfd, by rw [hpath', hpath], ?_, fun q => ?_⟩
    · rw [hmax', hoffered]
      exact if_congr hasks rfl rfl
    · rw [hknown', hknown]
      exact if_congr (and_congr_left' hasks) rfl rfl
  | false =>
    have hsame : call.fd = k.fd ∧ StdPath.components call.path = StdPath.components k.path := by
      simpa [Replies.switches, StdPath.same] using hsw
    have hoffered : s.cache.maxRead = k.offered call := by
      rw [h.maxRead, Replies.offered, if_neg (by simp [hsw])]
    have hasks : s.cache.Asks call ↔ k.sends call := by
      simp [ReadRequestCache.Asks, hoffered, Replies.sends]
    obtain ⟨hpath', hfd', hsent, hmax', hknown'⟩ := s.cache.ask_spec call.path call
    simp only [Bool.false_eq_true, if_false]
    refine ⟨hsent.trans hasks, by rw [hfd', h.currentFd, hsame.1], by rw [hpath', h.currentPath, hsame.2], ?_,
      fun q => ?_⟩
    · rw [hmax', hoffered]
      exact if_congr hasks rfl rfl
    · rw [hknown']
      exact if_congr (and_congr_left' hasks) rfl rfl

variable (call) in
theorem lastReply_serve (h : Refines s k) (q : CString) :
    (s.serve call).lastReply q = if k.sends call ∧ q = call.path then call.reply else k.last q := by
  have hlast : s.lastReply q = k.last q := congrFun h.lastReply q
  unfold ReadSession.serve ReadSession.lastReply
  by_cases hs : k.sends call
  · rw [if_pos ((h.readRequest_spec call).1.mpr hs), List.lookup_cons]
    by_cases hq : q = call.path
    · simp [hq, hs]
    · rw [beq_eq_false_iff_ne.mpr hq, if_neg (fun he => hq he.2)]
      exact hlast
  · rw [if_neg (mt (h.readRequest_spec call).1.mp hs), if_neg (fun he => hs he.1)]
    exact hlast

theorem known_path (h : Refines s k) (hsw : k.switches call = false) :
    s.cache.known call.path = k.last call.path := by
  by_cases hp : call.path = []
  · have hpath : k.path = [] := by
      have hsame : StdPath.components call.path = StdPath.components k.path := by
        simp [Replies.switches, StdPath.same] at hsw
        exact hsw.2
      exact (StdPath.components_eq_nil_iff k.path).mp (hsame ▸ (StdPath.components_eq_nil_iff call.path).mpr hp)
    rw [hp, h.underEmpty, h.onEmpty hpath]
  · exact h.known _ hp

theorem transparent_of_serves (h : Refines s k) (hs : k.Serves call) : s.Transparent call := by
  obtain ⟨hsent, _, _, hmax, hknown⟩ := h.readRequest_spec call
  have hlast := h.lastReply_serve call call.path
  refine ⟨?_, ?_, ?_⟩
  · rw [hsent, hs.decides, Replies.wants, congrFun h.lastReply]
    simp
  · rw [ReadSession.serve, hknown, ← ReadSession.serve, hlast]
    cases hsends : k.sends call with
    | true =>
      cases hsw : k.switches call with
      | false => simp
      | true =>
        by_cases hp : call.path = []
        · simp [hp]
        · simp [hp, (hs.stores hsw (hs.decides ▸ hsends)).resolve_left hp, h.known _ hp]
    | false =>
      have hkeeps := hs.keeps (by simp [← hs.decides, hsends])
      simp only [Bool.false_eq_true, false_and, if_false]
      cases hsw : k.switches call with
      | false => exact h.known_path hsw
      | true =>
        by_cases hp : call.path = []
        · rw [← hkeeps, Replies.offered, if_pos hsw, if_pos hp, hp, h.underEmpty]
        · exact h.known _ hp
  · rw [ReadSession.serve, hmax, ← ReadSession.serve, hlast]
    cases hsends : k.sends call with
    | true => simp
    | false => simpa using hs.keeps (by simp [← hs.decides, hsends])

theorem serves_of_transparent (h : Refines s k) (ht : s.Transparent call) : k.Serves call := by
  obtain ⟨hsent, _, _, hmax, hknown⟩ := h.readRequest_spec call
  have hlast := h.lastReply_serve call call.path
  have hdecides : k.sends call = k.wants call := by
    rw [Bool.eq_iff_iff, ← hsent, ht.sent, congrFun h.lastReply, Replies.wants]
    simp
  refine ⟨hdecides, fun hw => ?_, fun hsw hw => ?_⟩
  · have hsends : k.sends call = false := by simpa [hdecides] using hw
    have hsize := ht.maxRead
    rw [hlast, ReadSession.serve, hmax, hsends] at hsize
    simpa using hsize
  · by_cases hp : call.path = []
    · exact .inl hp
    · have hcached := ht.cached
      rw [hlast, ReadSession.serve, hknown, hsw, hdecides, hw, h.known _ hp] at hcached
      simp [hp] at hcached
      exact .inr hcached.symm

theorem serve (h : Refines s k) (ht : s.Transparent call) : Refines (s.serve call) (k.next call) := by
  have hdecides := (h.serves_of_transparent ht).decides
  obtain ⟨_, hfd, hpath, _, hknown⟩ := h.readRequest_spec call
  have hlast (q : CString) : (s.serve call).lastReply q = (k.next call).last q := by
    rw [h.lastReply_serve, Replies.next, hdecides]
    cases k.wants call <;> simp [Function.update_apply]
  have hunder : (s.serve call).cache.known [] = (k.next call).underEmpty := by
    rw [ReadSession.serve, hknown, Replies.next, hdecides, h.underEmpty]
    refine if_congr (and_congr_right' ?_) rfl rfl
    cases hsw : k.switches call with
    | true => simp
    | false => simp [eq_comm]
  refine ⟨funext hlast, hfd, hpath, by rw [ht.maxRead, hlast, Replies.next], fun q hq => ?_, hunder, fun hp => ?_⟩
  · by_cases hsame : q = call.path
    · rw [hsame, ht.cached, hlast]
    · rw [← hlast, h.lastReply_serve, ReadSession.serve, hknown, h.known q hq]
      cases hsw : k.switches call <;> simp [hsame, hq]
  · have hempty : call.path = [] := hp
    rw [← hunder, ← hlast, ← hempty]
    exact ht.cached

end Refines

/-- The calls whose READs and cached sizes follow the last replies are those served right
by what the thread was told before. -/
theorem read_cache_transparent_iff (calls : List ReadCall) :
    Throughout (fun pre call => (ReadSession.after pre).Transparent call) calls ↔
      Throughout (fun pre call => (Replies.after pre).Serves call) calls := by
  refine (Throughout.iff_of_invariant (fun _ => True)
    (fun calls => Refines (ReadSession.after calls) (Replies.after calls)) (fun _ _ _ => trivial) Refines.start
    (fun calls call _ h => ?_) (fun calls call _ h ht => ?_) calls trivial).1
  · exact ⟨h.serves_of_transparent, h.transparent_of_serves⟩
  · rw [ReadSession.after_concat, Replies.after_concat]
    exact h.serve ht

/-- A call that names a file by one spelling, up to an offset that is not negative, is served right
unless it turns to the file and the READ tells something new. -/
theorem Replies.serves_iff_of_spelling {k : Replies} {call : ReadCall} (hnamed : call.path ≠ [])
    (hspelling : k.switches call = false → call.path = k.path) (hend : 0 ≤ call.endOfRead)
    (hlong : call.endOfRead < 0x8000000000000000) :
    k.Serves call ↔ (k.switches call → k.wants call → call.reply = k.last call.path) := by
  have hoffered : k.offered call = k.last call.path := by
    unfold offered
    cases hsw : k.switches call with
    | true => simp [hnamed]
    | false => simp [hspelling hsw]
  have hdecides : k.sends call = k.wants call := by
    unfold sends wants
    rw [hoffered, capioOff64, Int.emod_eq_of_lt hend (by omega)]
    refine congrArg _ (decide_eq_decide.mpr ?_)
    omega
  constructor
  · exact fun h hsw hw => (h.stores hsw hw).resolve_left hnamed
  · exact fun h => ⟨hdecides, fun _ => hoffered, fun hsw hw => .inr (h hsw hw)⟩

def readA : ReadCall := ⟨"/capio/a".toList, 50, 7, 3, 100⟩

def readB : ReadCall := ⟨"/capio/b".toList, 50, 7, 4, 100⟩

/-- The reply to the first read is stored under the empty path, so the thread asks again. -/
theorem alternating_read_asks_again :
    ¬ Throughout (fun pre call => (ReadSession.after pre).Transparent call) [readA, readB, readA] := by
  intro h
  have hsent := (h [readA, readB] readA [] rfl).sent.mp (by decide)
  exact hsent (by decide)

end Capio.Posix
