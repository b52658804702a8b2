import Capio.Library.Holders
import Capio.Library.Ring
import Capio.Library.Run

/-! The shared memory queue of `queue.hpp` and any number of processes that read
and write single slots of it. -/
namespace Capio
open Library Library.Ring

/-- The shared memory segment, the two positions in bytes and the two semaphores. -/
structure Queue (β : Type) where
  shm : Nat → β
  firstElem : Nat
  lastElem : Nat
  semNumElems : Nat
  semNumEmpty : Nat

namespace Queue
variable {β ι : Type} (maxNumElems elemSize : Nat)

def fresh (shm : Nat → β) : Queue β := ⟨shm, 0, 0, 0, maxNumElems⟩

def buffSize : Nat := maxNumElems * elemSize

/-- `sem_wait` at the head of `_read`. -/
def waitElems (q : Queue β) : Option (Queue β) :=
  if 0 < q.semNumElems then some { q with semNumElems := q.semNumElems - 1 } else none

/-- `sem_wait` at the head of `_write`. -/
def waitEmpty (q : Queue β) : Option (Queue β) :=
  if 0 < q.semNumEmpty then some { q with semNumEmpty := q.semNumEmpty - 1 } else none

theorem waitElems_spec {q r : Queue β} (h : q.waitElems = some r) :
    0 < q.semNumElems ∧ r = { q with semNumElems := q.semNumElems - 1 } := by
  unfold waitElems at h
  split_ifs at h with hpos
  exact ⟨hpos, (Option.some.inj h).symm⟩

theorem waitEmpty_spec {q r : Queue β} (h : q.waitEmpty = some r) :
    0 < q.semNumEmpty ∧ r = { q with semNumEmpty := q.semNumEmpty - 1 } := by
  unfold waitEmpty at h
  split_ifs at h with hpos
  exact ⟨hpos, (Option.some.inj h).symm⟩

/-- What `_read` does under the mutex. -/
def readLocked (q : Queue β) : Queue β × Slot β elemSize :=
  ({ q with
      firstElem := (q.firstElem + elemSize) % buffSize maxNumElems elemSize
      semNumEmpty := q.semNumEmpty + 1 }, load q.shm q.firstElem)

/-- What `_write` does under the mutex. -/
def writeLocked (q : Queue β) (data : Slot β elemSize) : Queue β :=
  { q with
    shm := store q.shm q.lastElem data
    lastElem := (q.lastElem + elemSize) % buffSize maxNumElems elemSize
    semNumElems := q.semNumElems + 1 }

/-- Where a process stands: outside, or past `sem_wait` and before the mutex. -/
inductive Proc (β : Type) (elemSize : Nat) where
  | idle
  | reading
  | writing (data : Slot β elemSize)

def Proc.IsReading {β : Type} {elemSize : Nat} : Proc β elemSize → Prop
  | reading => True
  | _ => False

def Proc.IsWriting {β : Type} {elemSize : Nat} : Proc β elemSize → Prop
  | writing _ => True
  | _ => False

structure Shared (ι β : Type) (elemSize : Nat) where
  queue : Queue β
  proc : ι → Proc β elemSize

inductive Action (ι β : Type) (elemSize : Nat) where
  | beginRead (i : ι)
  | endRead (i : ι)
  | beginWrite (i : ι) (data : Slot β elemSize)
  | endWrite (i : ι)

/-- What a critical section moved between a process and the queue. -/
inductive Moved (β : Type) (elemSize : Nat) where
  | nothing
  | stored (data : Slot β elemSize)
  | delivered (data : Slot β elemSize)

/-- How many slots a step took out of the queue. -/
def Moved.taken {β : Type} {elemSize : Nat} : Moved β elemSize → Nat
  | delivered _ => 1
  | _ => 0

variable [DecidableEq ι]

/-- An atomic step: a wait, or a critical section with the post in it. -/
def step (s : Shared ι β elemSize) :
    Action ι β elemSize → Option (Shared ι β elemSize × Moved β elemSize)
  | .beginRead i =>
    match s.proc i with
    | .idle => do
      let q ← s.queue.waitElems
      some (⟨q, Function.update s.proc i .reading⟩, .nothing)
    | _ => none
  | .endRead i =>
    match s.proc i with
    | .reading =>
      let (q, data) := s.queue.readLocked maxNumElems elemSize
      some (⟨q, Function.update s.proc i .idle⟩, .delivered data)
    | _ => none
  | .beginWrite i data =>
    match s.proc i with
    | .idle => do
      let q ← s.queue.waitEmpty
      some (⟨q, Function.update s.proc i (.writing data)⟩, .nothing)
    | _ => none
  | .endWrite i =>
    match s.proc i with
    | .writing data =>
      some (⟨s.queue.writeLocked maxNumElems elemSize data, Function.update s.proc i .idle⟩, .stored data)
    | _ => none

abbrev Event (ι β : Type) (elemSize : Nat) := Library.Event (Action ι β elemSize) (Moved β elemSize)

abbrev Trace (ι β : Type) (elemSize : Nat) := List (Transition (Shared ι β elemSize) (Event ι β elemSize))

abbrev Step : Shared ι β elemSize → Event ι β elemSize → Shared ι β elemSize → Prop :=
  StepOf (step maxNumElems elemSize)

def start (shm : Nat → β) : Shared ι β elemSize := ⟨fresh maxNumElems shm, fun _ => .idle⟩

variable {elemSize}

/-- The slots stored in a run, in the order of the critical sections. -/
def storedIn (ts : Trace ι β elemSize) : List (Slot β elemSize) :=
  ts.filterMap fun x => match x.label.replies with
    | .stored data => some data
    | _ => none

def deliveredIn (ts : Trace ι β elemSize) : List (Slot β elemSize) :=
  ts.filterMap fun x => match x.label.replies with
    | .delivered data => some data
    | _ => none

/-- The ring holds the contents after `head` slots were read. Every free slot is
counted by a semaphore or by a process past its wait, and so is every used one. -/
structure Holds (s : Shared ι β elemSize) (head : Nat) (contents : List (Slot β elemSize)) : Prop where
  first : s.queue.firstElem = offset maxNumElems elemSize head
  last : s.queue.lastElem = offset maxNumElems elemSize (head + contents.length)
  ring : Contains maxNumElems s.queue.shm head contents
  readers : ∃ k, Holders (fun i => (s.proc i).IsReading) k ∧ s.queue.semNumElems + k = contents.length
  writers : ∃ k, Holders (fun i => (s.proc i).IsWriting) k ∧
    s.queue.semNumEmpty + k + contents.length = maxNumElems

variable {maxNumElems} {s t : Shared ι β elemSize} {e : Event ι β elemSize} {head : Nat}
  {contents : List (Slot β elemSize)}

omit [DecidableEq ι] in
theorem holds_start (shm : Nat → β) :
    Holds maxNumElems (start maxNumElems elemSize shm : Shared ι β elemSize) 0 [] where
  first := by simp [start, fresh, offset]
  last := by simp [start, fresh, offset]
  ring := .empty shm 0
  readers := ⟨0, .none (fun _ => id), rfl⟩
  writers := ⟨0, .none (fun _ => id), rfl⟩

/-- The bounded FIFO queue that the ring implements. -/
inductive Abstract (n : Nat) : List (Slot β elemSize) → Moved β elemSize → List (Slot β elemSize) → Prop
  | keep (contents : List (Slot β elemSize)) : Abstract n contents .nothing contents
  | put (contents : List (Slot β elemSize)) (data : Slot β elemSize) :
      contents.length < n → Abstract n contents (.stored data) (contents ++ [data])
  | take (contents : List (Slot β elemSize)) (data : Slot β elemSize) :
      Abstract n (data :: contents) (.delivered data) contents

private theorem beginRead_holds (hi : Holds maxNumElems s head contents) {i : ι} (hp : s.proc i = .idle)
    {q : Queue β} (hq : s.queue.waitElems = some q) :
    Holds maxNumElems ⟨q, Function.update s.proc i .reading⟩ head contents := by
  obtain ⟨hpos, rfl⟩ := waitElems_spec hq
  obtain ⟨r, hr, hsum⟩ := hi.readers
  obtain ⟨w, hw, hfree⟩ := hi.writers
  refine ⟨hi.first, hi.last, hi.ring, ⟨r + 1, hr.enter (P := Proc.IsReading) (by simp [hp, Proc.IsReading]) trivial, ?_⟩,
    ⟨w, hw.stay (P := Proc.IsWriting) (by simp [hp, Proc.IsWriting]) id, hfree⟩⟩
  dsimp only
  omega

private theorem beginWrite_holds (hi : Holds maxNumElems s head contents) {i : ι} (hp : s.proc i = .idle)
    (data : Slot β elemSize) {q : Queue β} (hq : s.queue.waitEmpty = some q) :
    Holds maxNumElems ⟨q, Function.update s.proc i (.writing data)⟩ head contents := by
  obtain ⟨hpos, rfl⟩ := waitEmpty_spec hq
  obtain ⟨r, hr, hsum⟩ := hi.readers
  obtain ⟨w, hw, hfree⟩ := hi.writers
  refine ⟨hi.first, hi.last, hi.ring,
    ⟨r, hr.stay (P := Proc.IsReading) (by simp [hp, Proc.IsReading]) id, hsum⟩,
    ⟨w + 1, hw.enter (P := Proc.IsWriting) (by simp [hp, Proc.IsWriting]) trivial, ?_⟩⟩
  dsimp only
  omega

/-- A reader past its wait finds a slot and takes the oldest. -/
private theorem endRead_holds (hi : Holds maxNumElems s head contents) {i : ι} (hp : s.proc i = .reading) :
    ∃ rest, contents = (s.queue.readLocked maxNumElems elemSize).2 :: rest ∧
      Holds maxNumElems ⟨(s.queue.readLocked maxNumElems elemSize).1, Function.update s.proc i .idle⟩
        (head + 1) rest := by
  obtain ⟨r, hr, hsum⟩ := hi.readers
  obtain ⟨w, hw, hfree⟩ := hi.writers
  obtain ⟨hpos, hless⟩ := hr.leave (P := Proc.IsReading) (x := .idle) (by rw [hp]; trivial) id
  cases contents with
  | nil =>
    rw [List.length_nil] at hsum
    omega
  | cons data rest =>
    rw [List.length_cons] at hsum hfree
    have hdata : load s.queue.shm s.queue.firstElem = data := hi.first ▸ hi.ring.head_eq
    refine ⟨rest, by rw [readLocked, hdata], ?_⟩
    refine ⟨?_, ?_, hi.ring.pop, ⟨r - 1, hless, ?_⟩,
      ⟨w, hw.stay (P := Proc.IsWriting) (by simp [hp, Proc.IsWriting]) id, ?_⟩⟩
    · dsimp only [readLocked, buffSize]
      rw [hi.first, offset_succ]
    · dsimp only [readLocked]
      rw [hi.last, List.length_cons, Nat.add_assoc head 1, Nat.add_comm 1]
    · dsimp only [readLocked]
      omega
    · dsimp only [readLocked]
      omega

/-- A writer past its wait finds room and stores behind the contents. -/
private theorem endWrite_holds (hi : Holds maxNumElems s head contents) {i : ι} {data : Slot β elemSize}
    (hp : s.proc i = .writing data) : contents.length < maxNumElems ∧
      Holds maxNumElems ⟨s.queue.writeLocked maxNumElems elemSize data, Function.update s.proc i .idle⟩
        head (contents ++ [data]) := by
  obtain ⟨r, hr, hsum⟩ := hi.readers
  obtain ⟨w, hw, hfree⟩ := hi.writers
  obtain ⟨hpos, hless⟩ := hw.leave (P := Proc.IsWriting) (x := .idle) (by rw [hp]; trivial) id
  have hroom : contents.length < maxNumElems := by omega
  refine ⟨hroom, hi.first, ?_, ?_,
    ⟨r, hr.stay (P := Proc.IsReading) (by simp [hp, Proc.IsReading]) id, ?_⟩, ⟨w - 1, hless, ?_⟩⟩
  · dsimp only [writeLocked, buffSize]
    rw [hi.last, offset_succ, List.length_append, List.length_singleton, Nat.add_assoc]
  · dsimp only [writeLocked]
    rw [hi.last]
    exact hi.ring.push hroom data
  · dsimp only [writeLocked]
    rw [List.length_append, List.length_singleton]
    omega
  · dsimp only [writeLocked]
    rw [List.length_append, List.length_singleton]
    omega

/-- Every atomic step of the processes is a step of the bounded queue. -/
theorem refines (hi : Holds maxNumElems s head contents) (h : Step maxNumElems elemSize s e t) :
    ∃ contents', Abstract maxNumElems contents e.replies contents' ∧
      Holds maxNumElems t (head + e.replies.taken) contents' := by
  obtain ⟨action, moved⟩ := e
  cases action with
  | beginRead i =>
    cases hp : s.proc i with
    | idle =>
      simp only [StepOf, step, hp] at h
      obtain ⟨q, hq, he⟩ := Option.bind_eq_some_iff.mp h
      cases he
      exact ⟨contents, .keep contents, beginRead_holds hi hp hq⟩
    | _ => simp [StepOf, step, hp] at h
  | beginWrite i data =>
    cases hp : s.proc i with
    | idle =>
      simp only [StepOf, step, hp] at h
      obtain ⟨q, hq, he⟩ := Option.bind_eq_some_iff.mp h
      cases he
      exact ⟨contents, .keep contents, beginWrite_holds hi hp data hq⟩
    | _ => simp [StepOf, step, hp] at h
  | endRead i =>
    cases hp : s.proc i with
    | reading =>
      simp only [StepOf, step, hp] at h
      cases h
      obtain ⟨rest, rfl, hrest⟩ := endRead_holds hi hp
      exact ⟨rest, .take rest _, hrest⟩
    | _ => simp [StepOf, step, hp] at h
  | endWrite i =>
    cases hp : s.proc i with
    | writing data =>
      simp only [StepOf, step, hp] at h
      cases h
      obtain ⟨hroom, hmore⟩ := endWrite_holds hi hp
      exact ⟨contents ++ [data], .put contents data hroom, hmore⟩
    | _ => simp [StepOf, step, hp] at h

variable {shm : Nat → β} {ts : Trace ι β elemSize}

/-- After any run the queue holds what was stored and not yet delivered. -/
theorem run_holds (h : Run (Step maxNumElems elemSize) (start maxNumElems elemSize shm) ts t) :
    ∃ contents, Holds maxNumElems t (deliveredIn ts).length contents ∧
      deliveredIn ts ++ contents = storedIn ts := by
  induction h with
  | nil => exact ⟨[], holds_start shm, rfl⟩
  | @snoc ts s e t _ hstep ih =>
    obtain ⟨contents, hs, heq⟩ := ih
    obtain ⟨contents', ha, ht⟩ := refines hs hstep
    obtain ⟨action, moved⟩ := e
    refine ⟨contents', ?_, ?_⟩
    · have hlen : (deliveredIn (ts ++ [⟨s, ⟨action, moved⟩, t⟩])).length =
          (deliveredIn ts).length + moved.taken := by
        cases moved <;> simp [deliveredIn, Moved.taken]
      rw [hlen]
      exact ht
    · cases ha with
      | keep => simpa [deliveredIn, storedIn] using heq
      | put _ data _ => simpa [deliveredIn, storedIn, ← List.append_assoc] using heq
      | take _ data => simpa [deliveredIn, storedIn] using heq

/-- The queue is a FIFO of at most `maxNumElems` slots: slots are delivered in the
order in which they were stored, unread slots are intact, only written slots are
read and only slots already read are overwritten. -/
structure BoundedFifo (maxNumElems : Nat) (ts : Trace ι β elemSize) (t : Shared ι β elemSize) : Prop where
  fifo : deliveredIn ts <+: storedIn ts
  intact : ∀ k (h : k < (storedIn ts).length), (deliveredIn ts).length ≤ k →
    load t.queue.shm (offset maxNumElems elemSize k) = (storedIn ts)[k]
  written : ∀ pre x post data, ts = pre ++ x :: post → x.label.replies = .delivered data →
    (storedIn pre)[(deliveredIn pre).length]? = some data
  room : ∀ pre x post data, ts = pre ++ x :: post → x.label.replies = .stored data →
    (storedIn pre).length < (deliveredIn pre).length + maxNumElems
  elems : t.queue.semNumElems ≤ maxNumElems
  empty : t.queue.semNumEmpty ≤ maxNumElems

/-- Any number of readers and writers in any order of their atomic steps. -/
theorem queue_bounded_fifo
    (h : Run (Step maxNumElems elemSize) (start maxNumElems elemSize shm) ts t) :
    BoundedFifo maxNumElems ts t := by
  obtain ⟨contents, hi, heq⟩ := run_holds h
  obtain ⟨r, _, hsum⟩ := hi.readers
  obtain ⟨w, _, hfree⟩ := hi.writers
  constructor
  case fifo => exact ⟨contents, heq⟩
  case intact =>
    intro k hk hle
    have hlen : (deliveredIn ts).length + contents.length = (storedIn ts).length := by
      rw [← heq, List.length_append]
    have hslot := hi.ring.stored (k - (deliveredIn ts).length) (by omega)
    rw [Nat.add_sub_of_le hle] at hslot
    rw [hslot]
    simp only [← heq, List.getElem_append_right hle]
  case written =>
    rintro pre x post data rfl hx
    obtain ⟨hrun, hstep⟩ := h.before
    obtain ⟨before, hb, hbefore⟩ := run_holds hrun
    obtain ⟨after, ha, _⟩ := refines hb hstep
    rw [hx] at ha
    cases ha
    rw [← hbefore, List.getElem?_append_right (Nat.le_refl _), Nat.sub_self]
    rfl
  case room =>
    rintro pre x post data rfl hx
    obtain ⟨hrun, hstep⟩ := h.before
    obtain ⟨before, hb, hbefore⟩ := run_holds hrun
    obtain ⟨after, ha, _⟩ := refines hb hstep
    rw [hx] at ha
    cases ha with
    | put _ _ hroom =>
      rw [← hbefore, List.length_append]
      omega
  case elems => omega
  case empty => omega

/-- Two writers fill a queue of two slots while a reader waits for the first. -/
theorem queue_bounded_fifo_three :
    ∃ (ts : Trace Nat Char 1) (t : Shared Nat Char 1), Run (Step 2 1) (start 2 1 (fun _ => ' ')) ts t ∧
      BoundedFifo 2 ts t ∧ (deliveredIn ts).map (fun slot => slot 0) = ['a'] := by
  obtain ⟨ts, t, hrun, _, hd⟩ := execute_any (step 2 1) (start 2 1 (fun _ => ' '))
    [.beginWrite 0 (fun _ => 'a'), .endWrite 0, .beginWrite 1 (fun _ => 'b'), .beginRead 2, .endWrite 1,
      .endRead 2]
    (fun ts _ => (deliveredIn ts).map (fun slot => slot 0) == ['a']) (by decide)
  exact ⟨ts, t, hrun, queue_bounded_fifo hrun, beq_iff_eq.mp hd⟩

section AtRest
variable {q r : Queue β}

/-- The queue holds the contents while no process is inside it. -/
def AtRest (maxNumElems : Nat) (q : Queue β) (head : Nat) (contents : List (Slot β elemSize)) : Prop :=
  Holds maxNumElems (⟨q, fun _ => .idle⟩ : Shared Unit β elemSize) head contents

theorem atRest_fresh (shm : Nat → β) :
    AtRest maxNumElems (fresh maxNumElems shm) 0 ([] : List (Slot β elemSize)) :=
  holds_start shm

theorem AtRest.elems (h : AtRest maxNumElems q head contents) : q.semNumElems = contents.length := by
  obtain ⟨k, hk, hsum⟩ := h.readers
  rw [hk.eq_zero fun _ => id, Nat.add_zero] at hsum
  exact hsum

theorem AtRest.empty (h : AtRest maxNumElems q head contents) : q.semNumEmpty + contents.length = maxNumElems := by
  obtain ⟨k, hk, hsum⟩ := h.writers
  rw [hk.eq_zero fun _ => id, Nat.add_zero] at hsum
  exact hsum

theorem AtRest.write (h : AtRest maxNumElems q head contents) (hq : q.waitEmpty = some r) (data : Slot β elemSize) :
    AtRest maxNumElems (r.writeLocked maxNumElems elemSize data) head (contents ++ [data]) := by
  have hbegin : Step maxNumElems elemSize (⟨q, fun _ => .idle⟩ : Shared Unit β elemSize)
      ⟨.beginWrite () data, .nothing⟩ ⟨r, Function.update (fun _ => .idle) () (.writing data)⟩ := by
    simp [StepOf, step, hq]
  obtain ⟨_, hkeep, hheld⟩ := refines h hbegin
  cases hkeep
  have hend : Step maxNumElems elemSize
      (⟨r, Function.update (fun _ => .idle) () (.writing data)⟩ : Shared Unit β elemSize)
      ⟨.endWrite (), .stored data⟩ ⟨r.writeLocked maxNumElems elemSize data, fun _ => .idle⟩ := by
    simp [StepOf, step]
  obtain ⟨_, hput, hmore⟩ := refines hheld hend
  cases hput
  exact hmore

theorem AtRest.read (h : AtRest maxNumElems q head contents) (hq : q.waitElems = some r) :
    ∃ rest, contents = (r.readLocked maxNumElems elemSize).2 :: rest ∧
      AtRest maxNumElems (r.readLocked maxNumElems elemSize).1 (head + 1) rest := by
  have hbegin : Step maxNumElems elemSize (⟨q, fun _ => .idle⟩ : Shared Unit β elemSize)
      ⟨.beginRead (), .nothing⟩ ⟨r, Function.update (fun _ => .idle) () .reading⟩ := by
    simp [StepOf, step, hq]
  obtain ⟨_, hkeep, hheld⟩ := refines h hbegin
  cases hkeep
  have hend : Step maxNumElems elemSize
      (⟨r, Function.update (fun _ => .idle) () .reading⟩ : Shared Unit β elemSize)
      ⟨.endRead (), .delivered (r.readLocked maxNumElems elemSize).2⟩
      ⟨(r.readLocked maxNumElems elemSize).1, fun _ => .idle⟩ := by
    simp [StepOf, step]
  obtain ⟨rest, htake, hless⟩ := refines hheld hend
  cases htake
  exact ⟨rest, rfl, hless⟩

end AtRest

end Queue
end Capio
