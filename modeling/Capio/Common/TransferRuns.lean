import Capio.Common.Transfers

/-! What every run of one writer and one reader keeps, and when the bytes of the one
arrive at the other. -/
namespace Capio.Queue
open Library Library.Ring Library.Pieces

def Phase.rank : Phase → Nat
  | called => 0
  | waited => 1
  | locked => 2
  | copied => 3
  | advanced => 4
  | posted => 5

namespace Call

/-- How often a statement of `_read` or `_write` was executed. -/
def passed (c : Call) (rank : Nat) : Nat := c.made + if rank ≤ c.phase.rank then 1 else 0

theorem passed_anti (c : Call) {i j : Nat} (h : i ≤ j) : c.passed j ≤ c.passed i := by
  unfold passed
  split_ifs <;> omega

/-- Whether the call is between taking and giving back the mutex. -/
def inside (c : Call) : Nat := if 2 ≤ c.phase.rank then 1 else 0

def statements (c : Call) : Nat := 6 * c.made + c.phase.rank

/-- No piece is begun that there is not, and the loop counter did not run over. -/
def Bounded (g : Geometry) (numBytes : Nat) (c : Call) : Prop :=
  c.passed 1 ≤ g.total numBytes ∧ ((intMax : Int) < g.slots numBytes → c.made ≤ intMax)

end Call

section Keep
variable {β : Type} {g : Geometry} {lock : Mutex} {numBytes head : Nat} {data buff : Int → β} {s t : Transfer β}
  {side : Side} {copied : Copied β}

/-- What the next statement of a side does, by the one executed before. -/
inductive Executes (g : Geometry) (lock : Mutex) (numBytes : Nat) (data : Int → β) (s : Transfer β) (side : Side)
    (made : Nat) (p : Int) (len : Nat) : Transfer β → Copied β → Prop where
  | wait {q : Queue β} (hcall : s.calls side = ⟨made, .called⟩) (hq : side.wait s.queue = some q) :
    Executes g lock numBytes data s side made p len ({ s with queue := q }.setCall side ⟨made, .waited⟩) .nothing
  | lock {mutex : Nat} (hcall : s.calls side = ⟨made, .waited⟩) (hm : lock.lock s.mutex = some mutex) :
    Executes g lock numBytes data s side made p len
      ({ s with mutex := mutex }.setCall side ⟨made, .locked⟩) .nothing
  | copy (hcall : s.calls side = ⟨made, .locked⟩) :
    Executes g lock numBytes data s side made p len
      ((side.copy data p len s).1.setCall side ⟨made, .copied⟩) (side.copy data p len s).2
  | advance (hcall : s.calls side = ⟨made, .copied⟩) :
    Executes g lock numBytes data s side made p len
      ({ s with queue := side.advance g s.queue }.setCall side ⟨made, .advanced⟩) .nothing
  | post (hcall : s.calls side = ⟨made, .advanced⟩) :
    Executes g lock numBytes data s side made p len
      ({ s with queue := side.post s.queue }.setCall side ⟨made, .posted⟩) .nothing
  | finish (hcall : s.calls side = ⟨made, .posted⟩) (hcounts : g.counts numBytes made) :
    Executes g lock numBytes data s side made p len
      ({ s with mutex := lock.unlock s.mutex }.setCall side ⟨made + 1, .called⟩) .nothing

theorem transferStep_cases (h : transferStep g lock numBytes data s side = some (t, copied)) :
    ∃ made p len, g.piece numBytes made = some (p, len) ∧
      Executes g lock numBytes data s side made p len t copied := by
  obtain ⟨⟨p, len⟩, hp, h⟩ := Option.bind_eq_some_iff.mp h
  refine ⟨(s.calls side).made, p, len, hp, ?_⟩
  have hcall : s.calls side = ⟨(s.calls side).made, (s.calls side).phase⟩ := rfl
  cases hphase : (s.calls side).phase with
  | called =>
    rw [hphase] at h hcall
    obtain ⟨q, hq, h⟩ := Option.bind_eq_some_iff.mp h
    cases h
    exact .wait hcall hq
  | waited =>
    rw [hphase] at h hcall
    obtain ⟨mutex, hm, h⟩ := Option.bind_eq_some_iff.mp h
    cases h
    exact .lock hcall hm
  | locked =>
    rw [hphase] at h hcall
    cases h
    exact .copy hcall
  | copied =>
    rw [hphase] at h hcall
    cases h
    exact .advance hcall
  | advanced =>
    rw [hphase] at h hcall
    cases h
    exact .post hcall
  | posted =>
    rw [hphase] at h hcall
    dsimp only at h
    split_ifs at h with hcounts
    cases h
    exact .finish hcall hcounts

theorem Transfer.setCall_eq {c : Call} (hcall : s.calls side = c) : s.setCall side c = s := by
  rw [Transfer.setCall, ← hcall, Function.update_eq_self]

/-- Between two statements: the semaphores count the slots that the other side gave and
this side did not take yet, the slots in between hold the pieces that the writer copied
and the reader did not, and the reader has the pieces before. -/
structure Flows (g : Geometry) (lock : Mutex) (numBytes head : Nat) (data buff : Int → β) (s : Transfer β) :
    Prop where
  last : s.queue.lastElem = offset g.maxNumElems g.elemSize (head + (s.calls .writer).passed 4)
  first : s.queue.firstElem = offset g.maxNumElems g.elemSize (head + (s.calls .reader).passed 4)
  elems : s.queue.semNumElems + (s.calls .reader).passed 1 = (s.calls .writer).passed 5
  empty : s.queue.semNumEmpty + (s.calls .writer).passed 1 = g.maxNumElems + (s.calls .reader).passed 5
  mutex : lock = .namedSemaphore → s.mutex + (s.calls .writer).inside + (s.calls .reader).inside = 1
  writer : (s.calls .writer).Bounded g numBytes
  reader : (s.calls .reader).Bounded g numBytes
  ring : ∀ k p len, (s.calls .reader).passed 3 ≤ k → k < (s.calls .writer).passed 3 →
    g.piece numBytes k = some (p, len) →
    load s.queue.shm (offset g.maxNumElems g.elemSize (head + k)) = (fetch data p len : Slot β len)
  buff : s.buff = copyPieces data buff (g.pieces numBytes ((s.calls .reader).passed 3))

theorem flows_start (shm : Nat → β) :
    Flows g lock numBytes head data buff (.start g head shm buff) where
  last := rfl
  first := rfl
  elems := rfl
  empty := rfl
  mutex := fun _ => rfl
  writer := ⟨Nat.zero_le _, fun _ => Nat.zero_le _⟩
  reader := ⟨Nat.zero_le _, fun _ => Nat.zero_le _⟩
  ring := fun k _ _ _ hk _ => absurd hk (Nat.not_lt_zero k)
  buff := rfl

section Statements
variable {made : Nat}

private theorem flows_wait (hi : Flows g lock numBytes head data buff (s.setCall side ⟨made, .called⟩))
    (hmade : made < g.total numBytes) {q : Queue β} (hq : side.wait s.queue = some q) :
    Flows g lock numBytes head data buff ({ s with queue := q }.setCall side ⟨made, .waited⟩) := by
  cases side with
  | writer =>
    obtain ⟨hpos, rfl⟩ := waitEmpty_spec hq
    have hempty : s.queue.semNumEmpty + made = g.maxNumElems + (s.calls .reader).passed 5 := hi.empty
    refine { hi with empty := ?_, writer := ⟨hmade, hi.writer.2⟩ }
    change s.queue.semNumEmpty - 1 + (made + 1) = g.maxNumElems + (s.calls .reader).passed 5
    omega
  | reader =>
    obtain ⟨hpos, rfl⟩ := waitElems_spec hq
    have helems : s.queue.semNumElems + made = (s.calls .writer).passed 5 := hi.elems
    refine { hi with elems := ?_, reader := ⟨hmade, hi.reader.2⟩ }
    change s.queue.semNumElems - 1 + (made + 1) = (s.calls .writer).passed 5
    omega

private theorem flows_lock (hi : Flows g lock numBytes head data buff (s.setCall side ⟨made, .waited⟩)) {mutex : Nat}
    (hm : lock.lock s.mutex = some mutex) :
    Flows g lock numBytes head data buff ({ s with mutex := mutex }.setCall side ⟨made, .locked⟩) := by
  have htaken (hlock : lock = .namedSemaphore) : s.mutex = mutex + 1 := by
    subst hlock
    simp only [Mutex.lock] at hm
    split_ifs at hm with hpos
    cases hm
    omega
  cases side with
  | writer =>
    refine { hi with mutex := fun hlock => ?_ }
    have hone : s.mutex + 0 + (s.calls .reader).inside = 1 := hi.mutex hlock
    have hmutex := htaken hlock
    change mutex + 1 + (s.calls .reader).inside = 1
    omega
  | reader =>
    refine { hi with mutex := fun hlock => ?_ }
    have hone : s.mutex + (s.calls .writer).inside + 0 = 1 := hi.mutex hlock
    have hmutex := htaken hlock
    change mutex + (s.calls .writer).inside + 1 = 1
    omega

private theorem flows_copy (hi : Flows g lock numBytes head data buff (s.setCall side ⟨made, .locked⟩)) {p : Int}
    {len : Nat} (hp : g.piece numBytes made = some (p, len)) :
    Flows g lock numBytes head data buff ((side.copy data p len s).1.setCall side ⟨made, .copied⟩) := by
  cases side with
  | writer =>
    refine { hi with ring := fun k q l hk hlt hq => ?_ }
    have hlast : s.queue.lastElem = offset g.maxNumElems g.elemSize (head + made) := hi.last
    have hempty : s.queue.semNumEmpty + (made + 1) = g.maxNumElems + (s.calls .reader).passed 5 := hi.empty
    have hread : (s.calls .reader).passed 5 ≤ k := ((s.calls .reader).passed_anti (by omega)).trans hk
    change load (store s.queue.shm s.queue.lastElem (fetch data p len)) _ = _
    rw [hlast]
    have hlt : k < made + 1 := hlt
    rcases Nat.lt_succ_iff_lt_or_eq.mp hlt with hold | rfl
    · -- the slot of an unread piece is less than a turn behind
      have hapart := offset_apart (n := g.maxNumElems) (e := g.elemSize) (i := head + k) (j := head + made)
        (by omega) (by omega)
      have hlen := Geometry.piece_length_le hp
      have hl := Geometry.piece_length_le hq
      rw [load_store_disjoint _ _ (by omega)]
      exact hi.ring k q l hk hold hq
    · rw [hp] at hq
      cases hq
      exact load_store_same _ _ _
  | reader =>
    refine { hi with ring := fun k q l hk hlt hq => ?_, buff := ?_ }
    · exact hi.ring k q l (Nat.le_of_succ_le hk) hlt hq
    · have helems : s.queue.semNumElems + (made + 1) = (s.calls .writer).passed 5 := hi.elems
      have hwritten : (s.calls .writer).passed 5 ≤ (s.calls .writer).passed 3 :=
        (s.calls .writer).passed_anti (by omega)
      have hfirst : s.queue.firstElem = offset g.maxNumElems g.elemSize (head + made) := hi.first
      have hslot : load s.queue.shm (offset g.maxNumElems g.elemSize (head + made)) = fetch data p len :=
        hi.ring made p len (Nat.le_refl _) (by change made < (s.calls .writer).passed 3; omega) hp
      have hbuff : s.buff = copyPieces data buff (g.pieces numBytes made) := hi.buff
      change place s.buff p (load s.queue.shm s.queue.firstElem) =
        copyPieces data buff (g.pieces numBytes (made + 1))
      rw [Geometry.pieces_succ hp, copyPieces_snoc, hfirst, hslot, hbuff]

private theorem flows_advance (hi : Flows g lock numBytes head data buff (s.setCall side ⟨made, .copied⟩)) :
    Flows g lock numBytes head data buff
      ({ s with queue := side.advance g s.queue }.setCall side ⟨made, .advanced⟩) := by
  cases side with
  | writer =>
    refine { hi with last := ?_ }
    have hlast : s.queue.lastElem = offset g.maxNumElems g.elemSize (head + made) := hi.last
    change (s.queue.lastElem + g.elemSize) % (g.maxNumElems * g.elemSize) = _
    rw [hlast, offset_succ]
    rfl
  | reader =>
    refine { hi with first := ?_ }
    have hfirst : s.queue.firstElem = offset g.maxNumElems g.elemSize (head + made) := hi.first
    change (s.queue.firstElem + g.elemSize) % (g.maxNumElems * g.elemSize) = _
    rw [hfirst, offset_succ]
    rfl

private theorem flows_post (hi : Flows g lock numBytes head data buff (s.setCall side ⟨made, .advanced⟩)) :
    Flows g lock numBytes head data buff
      ({ s with queue := side.post s.queue }.setCall side ⟨made, .posted⟩) := by
  cases side with
  | writer =>
    refine { hi with elems := ?_ }
    have helems : s.queue.semNumElems + (s.calls .reader).passed 1 = made := hi.elems
    change s.queue.semNumElems + 1 + (s.calls .reader).passed 1 = made + 1
    omega
  | reader =>
    refine { hi with empty := ?_ }
    have hempty : s.queue.semNumEmpty + (s.calls .writer).passed 1 = g.maxNumElems + made := hi.empty
    change s.queue.semNumEmpty + 1 + (s.calls .writer).passed 1 = g.maxNumElems + (made + 1)
    omega

private theorem flows_return (hi : Flows g lock numBytes head data buff (s.setCall side ⟨made, .posted⟩))
    (hcounts : g.counts numBytes made) :
    Flows g lock numBytes head data buff
      ({ s with mutex := lock.unlock s.mutex }.setCall side ⟨made + 1, .called⟩) := by
  have hmore (hbounded : Call.Bounded g numBytes ⟨made, .posted⟩) : Call.Bounded g numBytes ⟨made + 1, .called⟩ := by
    refine ⟨hbounded.1, fun hlong => ?_⟩
    have hle : made ≤ intMax := hbounded.2 hlong
    have hne : ¬ ((made : Int) < g.slots numBytes ∧ made = intMax) := of_decide_eq_true hcounts
    change made + 1 ≤ intMax
    omega
  cases side with
  | writer =>
    refine { hi with mutex := fun hlock => ?_, writer := hmore hi.writer }
    have hone : s.mutex + 1 + (s.calls .reader).inside = 1 := hi.mutex hlock
    subst hlock
    exact hone
  | reader =>
    refine { hi with mutex := fun hlock => ?_, reader := hmore hi.reader }
    have hone : s.mutex + (s.calls .writer).inside + 1 = 1 := hi.mutex hlock
    subst hlock
    change s.mutex + 1 + (s.calls .writer).inside + 0 = 1
    omega

/-- What one statement keeps, and that it is one more. -/
theorem transferStep_flows (hi : Flows g lock numBytes head data buff s)
    (h : transferStep g lock numBytes data s side = some (t, copied)) :
    Flows g lock numBytes head data buff t := by
  obtain ⟨made, p, len, hp, hexec⟩ := transferStep_cases h
  cases hexec with
  | wait hcall hq =>
    rw [← Transfer.setCall_eq hcall] at hi
    exact flows_wait hi (Geometry.lt_total hp) hq
  | lock hcall hm =>
    rw [← Transfer.setCall_eq hcall] at hi
    exact flows_lock hi hm
  | copy hcall =>
    rw [← Transfer.setCall_eq hcall] at hi
    exact flows_copy hi hp
  | advance hcall =>
    rw [← Transfer.setCall_eq hcall] at hi
    exact flows_advance hi
  | post hcall =>
    rw [← Transfer.setCall_eq hcall] at hi
    exact flows_post hi
  | finish hcall hcounts =>
    rw [← Transfer.setCall_eq hcall] at hi
    exact flows_return hi hcounts

end Statements

def Transfer.statements (s : Transfer β) : Nat := (s.calls .writer).statements + (s.calls .reader).statements

/-- What a statement tells of the pieces that were copied. -/
structure Moves (g : Geometry) (numBytes : Nat) (data : Int → β) (s : Transfer β) (copied : Copied β)
    (t : Transfer β) : Prop where
  sources : g.pieces numBytes ((t.calls .writer).passed 3) =
    g.pieces numBytes ((s.calls .writer).passed 3) ++ copied.source.toList
  targets : g.pieces numBytes ((t.calls .reader).passed 3) =
    g.pieces numBytes ((s.calls .reader).passed 3) ++ copied.target.toList
  enqueued : copied.enqueued = bytesOf data copied.source.toList
  statements : t.statements = s.statements + 1

private theorem moves_nothing {c : Call} (hcalls : t.calls = Function.update s.calls side c)
    (hpassed : c.passed 3 = (s.calls side).passed 3) (hst : c.statements = (s.calls side).statements + 1) :
    Moves g numBytes data s .nothing t := by
  cases side with
  | writer =>
    refine ⟨?_, ?_, rfl, ?_⟩
    · simp [hcalls, hpassed, Copied.source]
    · simp [hcalls, Copied.target]
    · simp [Transfer.statements, hcalls, hst]
      omega
  | reader =>
    refine ⟨?_, ?_, rfl, ?_⟩
    · simp [hcalls, Copied.source]
    · simp [hcalls, hpassed, Copied.target]
    · simp [Transfer.statements, hcalls, hst]
      omega

private theorem moves_copy {made : Nat} {p : Int} {len : Nat} (hcall : s.calls side = ⟨made, .locked⟩)
    (hp : g.piece numBytes made = some (p, len)) :
    Moves g numBytes data s (side.copy data p len s).2
      ((side.copy data p len s).1.setCall side ⟨made, .copied⟩) := by
  have hbefore : (s.calls side).passed 3 = made := by rw [hcall]; rfl
  have hst : (s.calls side).statements = 6 * made + 2 := by rw [hcall]; rfl
  have hafter := Geometry.pieces_succ hp
  cases side with
  | writer =>
    have hsource : (Side.writer.copy data p len s).2.source = some (p, len) := by
      simp [Side.copy, Copied.source]
    refine ⟨?_, (List.append_nil _).symm, ?_, ?_⟩
    · rw [hsource, hbefore]
      exact hafter
    · rw [hsource]
      exact (List.flatMap_singleton _ _).symm
    · simp only [Transfer.statements, hst]
      change 6 * made + 3 + (s.calls .reader).statements = _
      omega
  | reader =>
    have htarget : (Side.reader.copy data p len s).2.target = some (p, len) := by
      simp [Side.copy, Copied.target]
    refine ⟨(List.append_nil _).symm, ?_, rfl, ?_⟩
    · rw [htarget, hbefore]
      exact hafter
    · simp only [Transfer.statements, hst]
      change (s.calls .writer).statements + (6 * made + 3) = _
      omega

theorem transferStep_moves (h : transferStep g lock numBytes data s side = some (t, copied)) :
    Moves g numBytes data s copied t := by
  obtain ⟨made, p, len, hp, hexec⟩ := transferStep_cases h
  cases hexec with
  | wait hcall => exact moves_nothing rfl (by rw [hcall]; rfl) (by rw [hcall]; rfl)
  | lock hcall => exact moves_nothing rfl (by rw [hcall]; rfl) (by rw [hcall]; rfl)
  | copy hcall => exact moves_copy hcall hp
  | advance hcall => exact moves_nothing rfl (by rw [hcall]; rfl) (by rw [hcall]; rfl)
  | post hcall => exact moves_nothing rfl (by rw [hcall]; rfl) (by rw [hcall]; rfl)
  | finish hcall => exact moves_nothing rfl (by rw [hcall]; rfl) (by rw [hcall]; rfl)

section Runs
variable {shm : Nat → β} {ts : TransferTrace β}

theorem transfer_run (h : Run (TransferStep g lock numBytes data) (.start g head shm buff) ts t) :
    Flows g lock numBytes head data buff t ∧
      sourcesIn ts = g.pieces numBytes ((t.calls .writer).passed 3) ∧
      targetsIn ts = g.pieces numBytes ((t.calls .reader).passed 3) ∧
      enqueuedIn ts = bytesOf data (sourcesIn ts) ∧ ts.length = t.statements := by
  induction h with
  | nil => exact ⟨flows_start shm, rfl, rfl, rfl, rfl⟩
  | @snoc ts s e t _ hstep ih =>
    obtain ⟨side, copied⟩ := e
    obtain ⟨hflows, hsources, htargets, henqueued, hlength⟩ := ih
    have hmoves := transferStep_moves hstep
    refine ⟨transferStep_flows hflows hstep, ?_, ?_, ?_, ?_⟩
    · rw [hmoves.sources, ← hsources]
      cases hc : copied.source <;> simp [sourcesIn, hc]
    · rw [hmoves.targets, ← htargets]
      cases hc : copied.target <;> simp [targetsIn, hc]
    · have hnew := hmoves.enqueued
      cases hc : copied.source <;> simp_all [sourcesIn, enqueuedIn, bytesOf]
    · rw [List.length_append, hlength, hmoves.statements]
      rfl

end Runs

/-- A call never makes more statements than its pieces need. -/
theorem Call.Bounded.statements_le {c : Call} (h : c.Bounded g numBytes) : c.statements ≤ 6 * g.total numBytes := by
  obtain ⟨made, phase⟩ := c
  have hbegun := h.1
  unfold Call.passed at hbegun
  unfold Call.statements
  cases phase <;> simp [Phase.rank] at hbegun ⊢ <;> omega

section Progress

/-- The side can execute its next statement. -/
def Enabled (g : Geometry) (lock : Mutex) (numBytes : Nat) (data : Int → β) (s : Transfer β) (side : Side) : Prop :=
  ∃ u copied, transferStep g lock numBytes data s side = some (u, copied)

variable (hmade : (s.calls side).made < g.total numBytes) (hcounts : g.counts numBytes (s.calls side).made)
include hmade

private theorem exists_piece : ∃ p len, g.piece numBytes (s.calls side).made = some (p, len) := by
  obtain ⟨x, hx⟩ := Option.ne_none_iff_exists'.mp fun hnone =>
    absurd ((g.piece_eq_none_iff).mp hnone) (Nat.not_le.mpr hmade)
  exact ⟨x.1, x.2, hx⟩

private theorem enabled_called (hphase : (s.calls side).phase = .called) {q : Queue β}
    (hq : side.wait s.queue = some q) : Enabled g lock numBytes data s side := by
  obtain ⟨p, len, hp⟩ := exists_piece hmade
  simp [Enabled, transferStep, hp, hphase, hq]

private theorem enabled_waited (hphase : (s.calls side).phase = .waited) {mutex : Nat}
    (hm : lock.lock s.mutex = some mutex) : Enabled g lock numBytes data s side := by
  obtain ⟨p, len, hp⟩ := exists_piece hmade
  simp [Enabled, transferStep, hp, hphase, hm]

include hcounts in
private theorem enabled_inside (hinside : (s.calls side).inside = 1) : Enabled g lock numBytes data s side := by
  obtain ⟨p, len, hp⟩ := exists_piece hmade
  unfold Call.inside at hinside
  cases hphase : (s.calls side).phase with
  | called => simp [hphase, Phase.rank] at hinside
  | waited => simp [hphase, Phase.rank] at hinside
  | locked => simp [Enabled, transferStep, hp, hphase]
  | copied => simp [Enabled, transferStep, hp, hphase]
  | advanced => simp [Enabled, transferStep, hp, hphase]
  | posted => simp [Enabled, transferStep, hp, hphase, hcounts]

end Progress

private theorem Call.Bounded.lt_total {c : Call} (h : c.Bounded g numBytes) (hne : c.phase ≠ .called) :
    c.made < g.total numBytes := by
  obtain ⟨made, phase⟩ := c
  cases phase with
  | called => exact absurd rfl hne
  | _ => exact h.1

private theorem Call.eq_called {c : Call} (hout : ¬ c.inside = 1) (hwait : ¬ c.phase = .waited) :
    c = ⟨c.made, .called⟩ := by
  obtain ⟨made, phase⟩ := c
  cases phase with
  | called => rfl
  | waited => exact absurd rfl hwait
  | _ => exact absurd rfl hout

/-- Both calls have returned, or a side is not blocked: a side that holds the mutex goes
on, and of two that wait for slots one finds room or the other a piece. -/
theorem goes_on (hi : Flows g lock numBytes head data buff s) (hcounts : ∀ k, g.counts numBytes k = true) :
    (∀ side, s.Returned g numBytes side) ∨ ∃ side, Enabled g lock numBytes data s side := by
  have hbounded (side : Side) : (s.calls side).Bounded g numBytes := by
    cases side with
    | writer => exact hi.writer
    | reader => exact hi.reader
  by_cases hin : ∃ side, (s.calls side).inside = 1
  · obtain ⟨side, hin⟩ := hin
    refine .inr ⟨side, enabled_inside ((hbounded side).lt_total fun hphase => ?_) (hcounts _) hin⟩
    simp [Call.inside, hphase, Phase.rank] at hin
  have hout (side : Side) : ¬ (s.calls side).inside = 1 := fun h => hin ⟨side, h⟩
  by_cases hwait : ∃ side, (s.calls side).phase = .waited
  · obtain ⟨side, hwait⟩ := hwait
    have hfree : ∃ mutex, lock.lock s.mutex = some mutex := by
      cases hlock : lock with
      | noLock => exact ⟨_, rfl⟩
      | namedSemaphore =>
        have hone := hi.mutex hlock
        have hwriter := hout .writer
        have hreader := hout .reader
        exact ⟨_, if_pos (by omega)⟩
    obtain ⟨mutex, hm⟩ := hfree
    exact .inr ⟨side, enabled_waited ((hbounded side).lt_total (by simp [hwait])) hwait hm⟩
  have hcalled (side : Side) : s.calls side = ⟨(s.calls side).made, .called⟩ :=
    Call.eq_called (hout side) fun h => hwait ⟨side, h⟩
  have helems : s.queue.semNumElems + (s.calls .reader).made = (s.calls .writer).made := by
    have h := hi.elems
    rw [hcalled .reader, hcalled .writer] at h
    exact h
  have hempty : s.queue.semNumEmpty + (s.calls .writer).made = g.maxNumElems + (s.calls .reader).made := by
    have h := hi.empty
    rw [hcalled .reader, hcalled .writer] at h
    exact h
  by_cases hroom : (s.calls .writer).made < g.total numBytes ∧ 0 < s.queue.semNumEmpty
  · exact .inr ⟨.writer, enabled_called hroom.1 (by rw [hcalled]) (if_pos hroom.2)⟩
  by_cases hpiece : (s.calls .reader).made < g.total numBytes ∧ 0 < s.queue.semNumElems
  · exact .inr ⟨.reader, enabled_called hpiece.1 (by rw [hcalled]) (if_pos hpiece.2)⟩
  have hpos := g.numElems_pos
  refine .inl fun side => ⟨hcalled side, (g.piece_eq_none_iff).mpr ?_⟩
  have hw : (s.calls .writer).made ≤ g.total numBytes := (Nat.le_add_right _ _).trans hi.writer.1
  cases side <;> omega

/-- The writer enqueues the bytes of its argument in their order, and all of them when it
returns. The reader stores them in its argument and has them all when it returns. Neither
touches a byte around the argument, and the two calls do not block each other. -/
structure Faithful (g : Geometry) (lock : Mutex) (numBytes : Nat) (data buff : Int → β) (ts : TransferTrace β)
    (t : Transfer β) : Prop where
  inOrder : enqueuedIn ts <+: List.ofFn (fetch data 0 numBytes)
  enqueued : t.Returned g numBytes .writer → enqueuedIn ts = List.ofFn (fetch data 0 numBytes)
  received : t.Returned g numBytes .reader → ∀ a : Int, 0 ≤ a → a < numBytes → t.buff a = data a
  outside : ∀ a : Int, ¬ (0 ≤ a ∧ a < numBytes) → t.buff a = buff a
  reads : ∀ x ∈ sourcesIn ts, 0 ≤ x.1 ∧ x.1 + x.2 ≤ numBytes
  stores : ∀ x ∈ targetsIn ts, 0 ≤ x.1 ∧ x.1 + x.2 ≤ numBytes
  goesOn : (∀ side, t.Returned g numBytes side) ∨ ∃ side, Enabled g lock numBytes data t side
  ends : ts.length ≤ 12 * (numBytes / g.elemSize + 1)

section Exact
variable {shm : Nat → β} {ts : TransferTrace β}

private theorem Transfer.Returned.passed (hr : t.Returned g numBytes side) :
    (t.calls side).passed 3 = (t.calls side).made := by
  rw [hr.1]
  rfl

private theorem Transfer.Returned.made_eq (hr : t.Returned g numBytes side) (hb : (t.calls side).Bounded g numBytes) :
    (t.calls side).made = g.total numBytes :=
  Nat.le_antisymm ((Nat.le_add_right _ _).trans hb.1) ((g.piece_eq_none_iff).mp hr.2)

theorem faithful_of_short (hshort : numBytes / g.elemSize ≤ intMax) (hp : numBytes ≤ g.elemSize ∨ g.sizeofT = 1)
    (h : Run (TransferStep g lock numBytes data) (.start g head shm buff) ts t) :
    Faithful g lock numBytes data buff ts t := by
  have hs : g.slots numBytes = (numBytes / g.elemSize : Nat) :=
    Geometry.off64_eq (hshort.trans_lt (by decide))
  have hcounts (k : Nat) : g.counts numBytes k = true := by
    simp only [Geometry.counts, hs, decide_eq_true_eq]
    omega
  obtain ⟨hi, hsources, htargets, henqueued, hlength⟩ := transfer_run h
  have hcover (side : Side) (hr : t.Returned g numBytes side) (hb : (t.calls side).Bounded g numBytes) :
      min numBytes ((t.calls side).passed 3 * g.elemSize) = numBytes := by
    rw [hr.passed, hr.made_eq hb]
    exact Nat.min_eq_left (Geometry.le_total_mul hs)
  have hwriter : (t.calls .writer).passed 3 ≤ g.total numBytes := (Call.passed_anti _ (by omega)).trans hi.writer.1
  have hreader : (t.calls .reader).passed 3 ≤ g.total numBytes := (Call.passed_anti _ (by omega)).trans hi.reader.1
  have htiles := Geometry.tiles hs hp hwriter
  have htiles' := Geometry.tiles hs hp hreader
  have hbytes : enqueuedIn ts = List.ofFn (fetch data 0 (min numBytes ((t.calls .writer).passed 3 * g.elemSize))) := by
    rw [henqueued, hsources, htiles.bytesOf_eq]
  have hbuff (a : Int) : t.buff a =
      if 0 ≤ a ∧ a < (min numBytes ((t.calls .reader).passed 3 * g.elemSize) : Nat) then data a else buff a := by
    rw [hi.buff, htiles'.copyPieces_eq]
  constructor
  case inOrder =>
    rw [hbytes]
    exact ofFn_fetch_prefix data (Nat.min_le_left ..)
  case enqueued =>
    intro hr
    rw [hbytes, hcover .writer hr hi.writer]
  case received =>
    intro hr a hle hlt
    rw [hbuff, hcover .reader hr hi.reader, if_pos ⟨hle, hlt⟩]
  case outside =>
    intro a ha
    rw [hbuff, if_neg (by omega)]
  case reads =>
    intro x hx
    have hin := htiles.within x (hsources ▸ hx)
    omega
  case stores =>
    intro x hx
    have hin := htiles'.within x (htargets ▸ hx)
    omega
  case goesOn => exact goes_on hi hcounts
  case ends =>
    have hw := hi.writer.statements_le
    have hr := hi.reader.statements_le
    have htotal := Geometry.total_eq hs
    rw [hlength, Transfer.statements]
    split_ifs at htotal <;> omega

/-- The last piece begins where the pieces before it end, in elements. -/
private theorem last_piece (hs : g.slots numBytes = (numBytes / g.elemSize : Nat)) (hlong : g.elemSize < numBytes) :
    ∃ start len, 0 < start ∧ start + len = numBytes ∧
      ((start : Int) * g.sizeofT, len) ∈ g.pieces numBytes (g.total numBytes) := by
  have hcover := Geometry.le_total_mul hs
  have htwo : 2 ≤ g.total numBytes := by
    by_contra hless
    have hle : g.total numBytes * g.elemSize ≤ 1 * g.elemSize := Nat.mul_le_mul_right _ (by omega)
    omega
  obtain ⟨k, hk⟩ : ∃ k, g.total numBytes = k + 1 := ⟨g.total numBytes - 1, by omega⟩
  have hpiece := Geometry.piece_eq hs (k := k) (by omega)
  have hbefore := Geometry.lt_of_lt_total hs (k := k) (by omega)
  rw [hk, Nat.succ_mul] at hcover
  refine ⟨k * g.elemSize, _, Nat.mul_pos (by omega) g.elemSize_pos, ?_,
    (g.mem_pieces numBytes).mpr ⟨k, by omega, hpiece⟩⟩
  omega

theorem short_of_faithful (h : ∀ ts t, Run (TransferStep g lock numBytes data) (.start g head shm buff) ts t →
    Faithful g lock numBytes data buff ts t) :
    numBytes ≤ g.elemSize ∨ g.sizeofT = 1 ∧ numBytes / g.elemSize ≤ intMax := by
  obtain ⟨ts, t, hrun, hreturned⟩ := Run.exists_end (fun t => ∀ side, t.Returned g numBytes side)
    (fun ts t hrun => (h ts t hrun).ends) fun ts t hrun =>
      (h ts t hrun).goesOn.imp_right fun ⟨side, u, copied, hstep⟩ => ⟨⟨side, copied⟩, u, hstep⟩
  have hf := h ts t hrun
  obtain ⟨hi, hsources, _, henqueued, _⟩ := transfer_run hrun
  have hmade := (hreturned .writer).made_eq hi.writer
  rw [(hreturned .writer).passed, hmade] at hsources
  have hs : g.slots numBytes = (numBytes / g.elemSize : Nat) := by
    apply Geometry.slots_eq
    have hall := congrArg List.length (hf.enqueued (hreturned .writer))
    rwa [henqueued, length_bytesOf, hsources, Geometry.sum_total, List.length_ofFn] at hall
  have hcount : numBytes / g.elemSize ≤ intMax := by
    by_contra hlong
    have hle := hi.writer.2 (by rw [hs]; omega)
    have htotal := Geometry.total_eq hs
    rw [hmade] at hle
    omega
  rcases Nat.lt_or_ge g.elemSize numBytes with hlong | hshort
  · refine .inr ⟨?_, hcount⟩
    obtain ⟨start, len, hstart, hsum, hlast⟩ := last_piece hs hlong
    have hin := (hf.reads _ (hsources ▸ hlast)).2
    have hpos : 0 < g.sizeofT := Nat.pos_of_dvd_of_pos g.whole g.elemSize_pos
    by_contra hne
    have htwice : start * 2 ≤ start * g.sizeofT := Nat.mul_le_mul_left _ (by omega)
    have hcast : ((start * g.sizeofT : Nat) : Int) = (start : Int) * g.sizeofT := Int.natCast_mul ..
    omega
  · exact .inl hshort

/-- For one writer and one reader on an empty queue, every run of the two calls is
faithful just when the bytes fill no more than a slot, or the elements are bytes and the
full slots can be counted by an `int`. -/
theorem transfer_faithful_iff (g : Geometry) (lock : Mutex) (numBytes head : Nat) (shm : Nat → β)
    (data buff : Int → β) :
    (∀ ts t, Run (TransferStep g lock numBytes data) (.start g head shm buff) ts t →
      Faithful g lock numBytes data buff ts t) ↔
      numBytes ≤ g.elemSize ∨ g.sizeofT = 1 ∧ numBytes / g.elemSize ≤ intMax := by
  refine ⟨short_of_faithful, fun h ts t hrun => ?_⟩
  rcases h with hle | ⟨hone, hshort⟩
  · have hslots : numBytes / g.elemSize ≤ 1 := Nat.div_le_of_le_mul (by omega)
    exact faithful_of_short (hslots.trans (by decide)) (.inl hle) hrun
  · exact faithful_of_short hshort (.inr hone) hrun

end Exact

end Keep

/-- Two slots of an element of four bytes each. -/
def words : Geometry := ⟨2, 4, 4, by decide, by decide, by decide⟩

/-- The second element is taken from behind the argument of the writer, and stored
behind the argument of the reader. -/
theorem second_word_misplaced : words.sizeofT ∣ 8 ∧
    ¬ ∀ ts t, Run (TransferStep words .namedSemaphore 8 fun a => a.toNat)
        (.start words 0 (fun _ => 0) (fun _ => 0)) ts t →
      Faithful words .namedSemaphore 8 (fun a => a.toNat) (fun _ => 0) ts t := by
  refine ⟨by decide, fun h => ?_⟩
  obtain ⟨ts, t, hrun, _, htold⟩ := execute_any (transferStep words .namedSemaphore 8 fun a => a.toNat)
    (.start words 0 (fun _ => 0) (fun _ => 0)) (List.replicate 12 .writer ++ List.replicate 12 .reader)
    (fun ts _ => targetsIn ts == [(0, 4), (16, 4)]) (by decide)
  have hstores := (h ts t hrun).stores (16, 4)
  rw [beq_iff_eq.mp htold] at hstores
  exact absurd (hstores (by decide)).2 (by decide)

end Capio.Queue
