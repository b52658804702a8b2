import Capio.Common.Queue
import Capio.Library.Pieces

/-! `Queue::write` and `Queue::read` of any number of bytes, one call of each at the
same time, down to the statements of `_write` and `_read`. -/
namespace Capio.Queue
open Library Library.Ring Library.Pieces

/-- The sizes of a queue. A segment of no bytes cannot be mapped. -/
structure Geometry where
  maxNumElems : Nat
  elemSize : Nat
  sizeofT : Nat
  numElems_pos : 0 < maxNumElems
  elemSize_pos : 0 < elemSize
  whole : sizeofT ∣ elemSize

/-- The `Mutex` of the template. -/
inductive Mutex where
  | namedSemaphore
  | noLock

def Mutex.lock : Mutex → Nat → Option Nat
  | namedSemaphore, count => if 0 < count then some (count - 1) else none
  | noLock, count => some count

def Mutex.unlock : Mutex → Nat → Nat
  | namedSemaphore, count => count + 1
  | noLock, count => count

/-- Conversion to the signed `off64_t`. -/
def off64 (x : Nat) : Int :=
  if x % 2 ^ 64 < 2 ^ 63 then (x % 2 ^ 64 : Nat) else (x % 2 ^ 64 : Nat) - 2 ^ 64

def intMax : Nat := 0x7fffffff

namespace Geometry
variable (g : Geometry) (numBytes : Nat)

/-- `n_reads` and `n_writes`. -/
def slots : Int := off64 (numBytes / g.elemSize)

/-- What the call of `_read` or `_write` after `made` others is given: where its bytes
are, counted from the argument of `read` or `write`, and how many. The argument is a
`T *`, so adding to it counts elements. -/
def piece (made : Nat) : Option (Int × Nat) :=
  if (made : Int) < g.slots numBytes then some ((made * g.elemSize : Nat) * g.sizeofT, g.elemSize)
  else if made = (g.slots numBytes).toNat ∧ numBytes % g.elemSize ≠ 0 then
    some (g.slots numBytes * g.elemSize * g.sizeofT, numBytes % g.elemSize)
  else none

/-- The loop counter is an `int`, and its increment past the largest is undefined. -/
def counts (made : Nat) : Bool := ¬ ((made : Int) < g.slots numBytes ∧ made = intMax)

end Geometry

/-- The statements of `_read` and `_write`, by the last one executed. -/
inductive Phase where
  | called
  | waited
  | locked
  | copied
  | advanced
  | posted
  deriving DecidableEq

/-- The progress of `read` or `write`: the finished calls of `_read` or `_write`. -/
structure Call where
  made : Nat
  phase : Phase

inductive Side where
  | writer
  | reader
  deriving DecidableEq

/-- The queue, the semaphore of the mutex, both calls and the memory of the reader. -/
structure Transfer (β : Type) where
  queue : Queue β
  mutex : Nat
  calls : Side → Call
  buff : Int → β

/-- What a `memcpy` moved, and from or to which address. -/
inductive Copied (β : Type) where
  | nothing
  | stored (pointer : Int) (bytes : List β)
  | delivered (pointer : Int) (bytes : List β)

namespace Copied
variable {β : Type}

/-- The piece of the data that the writer copied. -/
def source : Copied β → Option (Int × Nat)
  | stored p bytes => some (p, bytes.length)
  | _ => none

/-- The piece of its memory that the reader overwrote. -/
def target : Copied β → Option (Int × Nat)
  | delivered p bytes => some (p, bytes.length)
  | _ => none

def enqueued : Copied β → List β
  | stored _ bytes => bytes
  | _ => []

end Copied

section Step
variable {β : Type} (g : Geometry) (lock : Mutex) (numBytes : Nat) (data : Int → β)

def Side.wait : Side → Queue β → Option (Queue β)
  | writer, q => q.waitEmpty
  | reader, q => q.waitElems

def Side.copy (p : Int) (len : Nat) (s : Transfer β) : Side → Transfer β × Copied β
  | writer =>
    let bytes : Slot β len := fetch data p len
    ({ s with queue := { s.queue with shm := store s.queue.shm s.queue.lastElem bytes } },
      .stored p (List.ofFn bytes))
  | reader =>
    let bytes : Slot β len := load s.queue.shm s.queue.firstElem
    ({ s with buff := place s.buff p bytes }, .delivered p (List.ofFn bytes))

def Side.advance : Side → Queue β → Queue β
  | writer, q => { q with lastElem := (q.lastElem + g.elemSize) % buffSize g.maxNumElems g.elemSize }
  | reader, q => { q with firstElem := (q.firstElem + g.elemSize) % buffSize g.maxNumElems g.elemSize }

def Side.post : Side → Queue β → Queue β
  | writer, q => { q with semNumElems := q.semNumElems + 1 }
  | reader, q => { q with semNumEmpty := q.semNumEmpty + 1 }

/-- On a full slot the statements behind the mutex are one write of the single-slot queue. -/
theorem write_statements (q : Queue β) (p : Int) :
    Side.writer.post (Side.writer.advance g
        { q with shm := store q.shm q.lastElem (fetch data p g.elemSize : Slot β g.elemSize) }) =
      q.writeLocked g.maxNumElems g.elemSize (fetch data p g.elemSize) :=
  rfl

theorem read_statements (q : Queue β) :
    (Side.reader.post (Side.reader.advance g q), load q.shm q.firstElem) =
      q.readLocked g.maxNumElems g.elemSize :=
  rfl

def Transfer.setCall (s : Transfer β) (side : Side) (c : Call) : Transfer β :=
  { s with calls := Function.update s.calls side c }

/-- The next statement of a side. -/
def transferStep (s : Transfer β) (side : Side) : Option (Transfer β × Copied β) := do
  let ⟨made, phase⟩ := s.calls side
  let (p, len) ← g.piece numBytes made
  match phase with
  | .called =>
    let q ← side.wait s.queue
    some ({ s with queue := q }.setCall side ⟨made, .waited⟩, .nothing)
  | .waited =>
    let mutex ← lock.lock s.mutex
    some ({ s with mutex := mutex }.setCall side ⟨made, .locked⟩, .nothing)
  | .locked =>
    let (s, copied) := side.copy data p len s
    some (s.setCall side ⟨made, .copied⟩, copied)
  | .copied => some ({ s with queue := side.advance g s.queue }.setCall side ⟨made, .advanced⟩, .nothing)
  | .advanced => some ({ s with queue := side.post s.queue }.setCall side ⟨made, .posted⟩, .nothing)
  | .posted =>
    if g.counts numBytes made then
      some ({ s with mutex := lock.unlock s.mutex }.setCall side ⟨made + 1, .called⟩, .nothing)
    else none

abbrev TransferEvent (β : Type) := Library.Event Side (Copied β)

abbrev TransferTrace (β : Type) := List (Transition (Transfer β) (TransferEvent β))

abbrev TransferStep : Transfer β → TransferEvent β → Transfer β → Prop :=
  StepOf (transferStep g lock numBytes data)

/-- Both calls begin on a queue that is empty after `head` slots. -/
def Transfer.start (head : Nat) (shm : Nat → β) (buff : Int → β) : Transfer β where
  queue := ⟨shm, offset g.maxNumElems g.elemSize head, offset g.maxNumElems g.elemSize head, 0, g.maxNumElems⟩
  mutex := 1
  calls := fun _ => ⟨0, .called⟩
  buff := buff

/-- `read` or `write` has nothing left to do. -/
def Transfer.Returned (s : Transfer β) (side : Side) : Prop :=
  s.calls side = ⟨(s.calls side).made, .called⟩ ∧ g.piece numBytes (s.calls side).made = none

def enqueuedIn (ts : TransferTrace β) : List β := ts.flatMap fun x => x.label.replies.enqueued

def sourcesIn (ts : TransferTrace β) : List (Int × Nat) := ts.filterMap fun x => x.label.replies.source

def targetsIn (ts : TransferTrace β) : List (Int × Nat) := ts.filterMap fun x => x.label.replies.target

end Step

namespace Geometry
variable (g : Geometry) (numBytes : Nat) {k p len : Nat}

theorem off64_eq {x : Nat} (h : x < 2 ^ 63) : off64 x = x := by
  have hmod : x % 2 ^ 64 = x := Nat.mod_eq_of_lt (by omega)
  rw [off64, hmod, if_pos h]

/-- How many calls of `_read` or `_write` are made. -/
def total : Nat := (g.slots numBytes).toNat + if numBytes % g.elemSize = 0 then 0 else 1

variable {numBytes} in
theorem piece_eq_none_iff : g.piece numBytes k = none ↔ g.total numBytes ≤ k := by
  unfold piece total
  split_ifs <;> simp <;> omega

variable {g numBytes} in
theorem lt_total {x : Int × Nat} (h : g.piece numBytes k = some x) : k < g.total numBytes := by
  refine Nat.lt_of_not_le fun hle => ?_
  rw [(g.piece_eq_none_iff).mpr hle] at h
  cases h

variable {g numBytes} in
theorem piece_length_le {p : Int} (h : g.piece numBytes k = some (p, len)) : len ≤ g.elemSize := by
  unfold piece at h
  split_ifs at h
  · cases h
    exact Nat.le_refl _
  · cases h
    exact Nat.le_of_lt (Nat.mod_lt _ g.elemSize_pos)

/-- The first pieces. -/
def pieces (m : Nat) : List (Int × Nat) := (List.range m).filterMap (g.piece numBytes)

variable {g numBytes} in
theorem pieces_succ {x : Int × Nat} (h : g.piece numBytes k = some x) :
    g.pieces numBytes (k + 1) = g.pieces numBytes k ++ [x] := by
  simp [pieces, List.range_succ, List.filterMap_append, h]

theorem mem_pieces {m : Nat} {x : Int × Nat} :
    x ∈ g.pieces numBytes m ↔ ∃ k < m, g.piece numBytes k = some x := by
  simp [pieces]

section Lengths
variable {g numBytes}

theorem sum_full {m : Nat} (h : m ≤ (g.slots numBytes).toNat) :
    ((g.pieces numBytes m).map Prod.snd).sum = m * g.elemSize := by
  induction m with
  | zero => rw [Nat.zero_mul]; rfl
  | succ m ih =>
    have hfull : (m : Int) < g.slots numBytes := by omega
    have hpiece : g.piece numBytes m = some (((m * g.elemSize : Nat) : Int) * g.sizeofT, g.elemSize) := if_pos hfull
    rw [pieces_succ hpiece, List.map_append, List.sum_append, ih (Nat.le_of_succ_le h), Nat.succ_mul]
    rfl

variable (g numBytes) in
theorem sum_total : ((g.pieces numBytes (g.total numBytes)).map Prod.snd).sum =
    (g.slots numBytes).toNat * g.elemSize + numBytes % g.elemSize := by
  unfold total
  split_ifs with hrest
  · rw [Nat.add_zero, sum_full (Nat.le_refl _), hrest, Nat.add_zero]
  · have hpiece : g.piece numBytes (g.slots numBytes).toNat =
        some (g.slots numBytes * g.elemSize * g.sizeofT, numBytes % g.elemSize) := by
      rw [piece, if_neg (by omega), if_pos ⟨rfl, hrest⟩]
    rw [pieces_succ hpiece, List.map_append, List.sum_append, sum_full (Nat.le_refl _)]
    rfl

/-- Pieces of as many bytes as were asked for come of the right count of full slots. -/
theorem slots_eq (h : (g.slots numBytes).toNat * g.elemSize + numBytes % g.elemSize = numBytes) :
    g.slots numBytes = (numBytes / g.elemSize : Nat) := by
  have hn := Nat.div_add_mod' numBytes g.elemSize
  have hmul : (g.slots numBytes).toNat * g.elemSize = numBytes / g.elemSize * g.elemSize := by omega
  have hq : (g.slots numBytes).toNat = numBytes / g.elemSize := Nat.eq_of_mul_eq_mul_right g.elemSize_pos hmul
  rcases Nat.eq_zero_or_pos (numBytes / g.elemSize) with hzero | hpos
  · rw [slots, hzero]
    rfl
  · omega

end Lengths

section Counted
variable {g numBytes} (hs : g.slots numBytes = (numBytes / g.elemSize : Nat))

theorem slots_mul_add (g : Geometry) (numBytes : Nat) :
    numBytes / g.elemSize * g.elemSize + numBytes % g.elemSize = numBytes ∧ numBytes % g.elemSize < g.elemSize :=
  ⟨Nat.div_add_mod' .., Nat.mod_lt _ g.elemSize_pos⟩

include hs

theorem total_eq : g.total numBytes = numBytes / g.elemSize + if numBytes % g.elemSize = 0 then 0 else 1 := by
  rw [total, hs, Int.toNat_natCast]

/-- A piece is a full slot or the rest. -/
theorem full_or_rest (hk : k < g.total numBytes) : (k + 1) * g.elemSize ≤ numBytes / g.elemSize * g.elemSize ∧
      k < numBytes / g.elemSize ∨
    k = numBytes / g.elemSize ∧ numBytes % g.elemSize ≠ 0 := by
  rw [total_eq hs] at hk
  rcases Nat.lt_or_ge k (numBytes / g.elemSize) with hlt | hge
  · exact .inl ⟨Nat.mul_le_mul_right _ hlt, hlt⟩
  · right
    split_ifs at hk with hrest
    · exact absurd hk (Nat.not_lt.mpr hge)
    · exact ⟨Nat.le_antisymm (Nat.le_of_lt_succ hk) hge, hrest⟩

/-- Where the count of full slots is right, so are the lengths of the pieces. -/
theorem piece_eq (hk : k < g.total numBytes) : g.piece numBytes k =
    some (((k * g.elemSize : Nat) : Int) * g.sizeofT, min g.elemSize (numBytes - k * g.elemSize)) := by
  obtain ⟨hn, hlt⟩ := slots_mul_add g numBytes
  unfold piece
  rw [hs]
  rcases full_or_rest hs hk with ⟨hle, hfull⟩ | ⟨rfl, hrest⟩
  · rw [Nat.succ_mul] at hle
    rw [if_pos (Int.ofNat_lt.mpr hfull), Nat.min_eq_left (by omega)]
  · rw [if_neg (lt_irrefl _), if_pos ⟨(Int.toNat_natCast _).symm, hrest⟩, Int.natCast_mul,
      Nat.min_eq_right (by omega)]
    congr 2
    omega

theorem lt_of_lt_total (hk : k < g.total numBytes) : k * g.elemSize < numBytes := by
  obtain ⟨hn, hlt⟩ := slots_mul_add g numBytes
  have hpos := g.elemSize_pos
  rcases full_or_rest hs hk with ⟨hle, _⟩ | ⟨rfl, hrest⟩
  · rw [Nat.succ_mul] at hle
    omega
  · omega

theorem le_total_mul : numBytes ≤ g.total numBytes * g.elemSize := by
  obtain ⟨hn, hlt⟩ := slots_mul_add g numBytes
  rw [total_eq hs, Nat.add_mul]
  split_ifs with hrest
  · omega
  · rw [Nat.one_mul]
    omega

/-- Bytes of one element each, or of one slot, are copied where they belong. -/
theorem tiles (hp : numBytes ≤ g.elemSize ∨ g.sizeofT = 1) {m : Nat} (hm : m ≤ g.total numBytes) :
    Tiles (g.pieces numBytes m) (min numBytes (m * g.elemSize)) := by
  induction m with
  | zero =>
    rw [Nat.zero_mul, Nat.min_zero]
    exact .nil
  | succ m ih =>
    have hlt := lt_of_lt_total hs hm
    have hpointer : ((m * g.elemSize : Nat) : Int) * g.sizeofT = (m * g.elemSize : Nat) := by
      rcases hp with hle | hone
      · have hzero : m = 0 := by
          by_contra hne
          have hmore := Nat.le_mul_of_pos_left g.elemSize (Nat.pos_of_ne_zero hne)
          omega
        rw [hzero]
        simp
      · rw [hone]
        simp
    have hnext := piece_eq hs hm
    rw [hpointer] at hnext
    have htiles := (ih (Nat.le_of_succ_le hm)).snoc (min g.elemSize (numBytes - m * g.elemSize))
    rw [Nat.min_eq_right (Nat.le_of_lt hlt)] at htiles
    rw [pieces_succ hnext, Nat.succ_mul]
    have hcover : m * g.elemSize + min g.elemSize (numBytes - m * g.elemSize) =
        min numBytes (m * g.elemSize + g.elemSize) := by omega
    rw [← hcover]
    exact htiles

end Counted

end Geometry

end Capio.Queue
