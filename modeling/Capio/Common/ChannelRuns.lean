import Capio.Common.QueueHandles

/-! When the processes that come and go leave the queue of the server alone. -/
namespace Capio
open Library Library.Ring

namespace QueueName
variable (name : QueueName)

private theorem middle_inj {a b : CString}
    (h : name.workflowName ++ a ++ name.shmName = name.workflowName ++ b ++ name.shmName) : a = b :=
  List.append_cancel_left (List.append_cancel_right h)

theorem first_ne_last : name.firstElem ≠ name.lastElem := fun h => absurd (name.middle_inj h) (by decide)

theorem mutex_ne_elems : name.mutex ≠ name.semNumElems := fun h => absurd (name.middle_inj h) (by decide)

theorem mutex_ne_empty : name.mutex ≠ name.semNumEmpty := fun h => absurd (name.middle_inj h) (by decide)

theorem elems_ne_empty : name.semNumElems ≠ name.semNumEmpty := fun h => absurd (name.middle_inj h) (by decide)

private theorem shm_eq : name.shm = name.workflowName ++ ['_'] ++ name.shmName := by
  simp [shm]

theorem shm_ne_first : name.shm ≠ name.firstElem :=
  fun h => absurd (name.middle_inj (name.shm_eq.symm.trans h)) (by decide)

theorem shm_ne_last : name.shm ≠ name.lastElem :=
  fun h => absurd (name.middle_inj (name.shm_eq.symm.trans h)) (by decide)

end QueueName

/-- No object is there twice. -/
structure QueueObjects.Apart (o : QueueObjects) : Prop where
  firstLast : o.firstElem ≠ o.lastElem
  shmFirst : o.shm ≠ o.firstElem
  shmLast : o.shm ≠ o.lastElem
  mutexElems : o.mutex ≠ o.semNumElems
  mutexEmpty : o.mutex ≠ o.semNumEmpty
  elemsEmpty : o.semNumElems ≠ o.semNumEmpty

/-- The objects hold the queue, and nobody has the mutex. -/
structure Views (k : Kernel) (o : QueueObjects) (q : Queue UInt8) : Prop where
  shm : k.segments.get o.shm = some (.bytes q.shm)
  firstElem : k.segments.get o.firstElem = some (.index q.firstElem)
  lastElem : k.segments.get o.lastElem = some (.index q.lastElem)
  mutex : k.semaphores.get o.mutex = some 1
  semNumElems : k.semaphores.get o.semNumElems = some q.semNumElems
  semNumEmpty : k.semaphores.get o.semNumEmpty = some q.semNumEmpty

section Semaphores
variable {semaphores : NamedObjects CString Nat} {sem count : Nat}

theorem semWait_eq (h : semaphores.get sem = some count) :
    semWait semaphores sem = if 0 < count then some (semaphores.set sem (count - 1)) else none := by
  rw [semWait, h]
  rfl

theorem semPost_eq (h : semaphores.get sem = some count) :
    semPost semaphores sem = some (semaphores.set sem (count + 1)) := by
  rw [semPost, h]
  rfl

/-- What `_read` and `_write` do with the semaphores: a count goes from one to the
other, and the mutex is taken and given back. -/
private theorem handOver {taken given mutex n m : Nat} (hmt : mutex ≠ taken) (hmg : mutex ≠ given) (htg : taken ≠ given)
    (htaken : semaphores.get taken = some n) (hpos : 0 < n) (hmutex : semaphores.get mutex = some 1)
    (hgiven : semaphores.get given = some m) :
    ∃ s₁ s₂ s₃ s₄, semWait semaphores taken = some s₁ ∧ semWait s₁ mutex = some s₂ ∧ semPost s₂ given = some s₃ ∧
      semPost s₃ mutex = some s₄ ∧ s₄.get taken = some (n - 1) ∧ s₄.get mutex = some 1 ∧
      s₄.get given = some (m + 1) ∧ s₄.names = semaphores.names := by
  have h₁ := semWait_eq htaken
  rw [if_pos hpos] at h₁
  have hone : (semaphores.set taken (n - 1)).get mutex = some 1 := by
    rw [NamedObjects.get_set_ne hmt.symm, hmutex]
  have h₂ := semWait_eq hone
  rw [if_pos Nat.one_pos] at h₂
  have hsame : ((semaphores.set taken (n - 1)).set mutex 0).get given = some m := by
    rw [NamedObjects.get_set_ne hmg, NamedObjects.get_set_ne htg, hgiven]
  have hzero : (((semaphores.set taken (n - 1)).set mutex 0).set given (m + 1)).get mutex = some 0 := by
    rw [NamedObjects.get_set_ne hmg.symm, NamedObjects.get_set_self hone]
  refine ⟨_, _, _, _, h₁, h₂, semPost_eq hsame, semPost_eq hzero, ?_, ?_, ?_, rfl⟩
  · rw [NamedObjects.get_set_ne hmt, NamedObjects.get_set_ne htg.symm, NamedObjects.get_set_ne hmt,
      NamedObjects.get_set_self htaken]
  · rw [NamedObjects.get_set_self hzero]
  · rw [NamedObjects.get_set_ne hmg, NamedObjects.get_set_self hsame]

end Semaphores

namespace QueueHandle
variable {maxNumElems elemSize : Nat} {name : QueueName} {k : Kernel} {o : QueueObjects} {q r : Queue UInt8}

variable (maxNumElems) in
theorem write_eq (ha : o.Apart) (hv : Views k o q) (hq : q.waitEmpty = some r) (data : Slot UInt8 elemSize) :
    ∃ k', write maxNumElems o data k = some k' ∧ Views k' o (r.writeLocked maxNumElems elemSize data) ∧
      k'.segments.names = k.segments.names ∧ k'.semaphores.names = k.semaphores.names := by
  obtain ⟨hpos, rfl⟩ := Queue.waitEmpty_spec hq
  obtain ⟨s₁, s₂, s₃, s₄, h₁, h₂, h₃, h₄, hempty, hmutex, helems, hnames⟩ :=
    handOver ha.mutexEmpty ha.mutexElems ha.elemsEmpty.symm hv.semNumEmpty hpos hv.mutex hv.semNumElems
  have hlast : (k.segments.set o.shm (.bytes (store q.shm q.lastElem data))).get o.lastElem =
      some (.index q.lastElem) := by
    rw [NamedObjects.get_set_ne ha.shmLast, hv.lastElem]
  refine ⟨⟨(k.segments.set o.shm (.bytes (store q.shm q.lastElem data))).set o.lastElem
    (.index ((q.lastElem + elemSize) % Queue.buffSize maxNumElems elemSize)), s₄⟩, ?_,
    ⟨?_, ?_, ?_, hmutex, helems, hempty⟩, rfl, hnames⟩
  · simp only [write, h₁, h₂, h₃, h₄, hv.shm, hv.lastElem, Segment.slots, Segment.position, Option.bind_eq_bind,
      Option.bind_some]
  · rw [NamedObjects.get_set_ne ha.shmLast.symm, NamedObjects.get_set_self hv.shm]
    rfl
  · rw [NamedObjects.get_set_ne ha.firstLast.symm, NamedObjects.get_set_ne ha.shmFirst, hv.firstElem]
    rfl
  · exact NamedObjects.get_set_self hlast _

theorem write_blocked (hv : Views k o q) (hq : q.waitEmpty = none) (data : Slot UInt8 elemSize) :
    write maxNumElems o data k = none := by
  have hzero : ¬ 0 < q.semNumEmpty := fun hpos => by simp [Queue.waitEmpty, hpos] at hq
  simp [write, semWait_eq hv.semNumEmpty, hzero]

variable (maxNumElems elemSize) in
theorem read_eq (ha : o.Apart) (hv : Views k o q) (hq : q.waitElems = some r) :
    ∃ k', read maxNumElems elemSize o k = some (k', (r.readLocked maxNumElems elemSize).2) ∧
      Views k' o (r.readLocked maxNumElems elemSize).1 ∧
      k'.segments.names = k.segments.names ∧ k'.semaphores.names = k.semaphores.names := by
  obtain ⟨hpos, rfl⟩ := Queue.waitElems_spec hq
  obtain ⟨s₁, s₂, s₃, s₄, h₁, h₂, h₃, h₄, helems, hmutex, hempty, hnames⟩ :=
    handOver ha.mutexElems ha.mutexEmpty ha.elemsEmpty hv.semNumElems hpos hv.mutex hv.semNumEmpty
  refine ⟨⟨k.segments.set o.firstElem (.index ((q.firstElem + elemSize) % Queue.buffSize maxNumElems elemSize)), s₄⟩,
    ?_, ⟨?_, ?_, ?_, hmutex, helems, hempty⟩, rfl, hnames⟩
  · simp only [read, h₁, h₂, h₃, h₄, hv.shm, hv.firstElem, Segment.slots, Segment.position, Option.bind_eq_bind,
      Option.bind_some]
    rfl
  · rw [NamedObjects.get_set_ne ha.shmFirst.symm, hv.shm]
    rfl
  · exact NamedObjects.get_set_self hv.firstElem _
  · rw [NamedObjects.get_set_ne ha.firstLast, hv.lastElem]
    rfl

theorem read_blocked (hv : Views k o q) (hq : q.waitElems = none) : read maxNumElems elemSize o k = none := by
  have hzero : ¬ 0 < q.semNumElems := fun hpos => by simp [Queue.waitElems, hpos] at hq
  simp [read, semWait_eq hv.semNumElems, hzero]

/-- The names stand for the objects. -/
structure Bound (name : QueueName) (k : Kernel) (o : QueueObjects) : Prop where
  shm : k.segments.names.lookup name.shm = some o.shm
  firstElem : k.segments.names.lookup name.firstElem = some o.firstElem
  lastElem : k.segments.names.lookup name.lastElem = some o.lastElem
  mutex : k.semaphores.names.lookup name.mutex = some o.mutex
  semNumElems : k.semaphores.names.lookup name.semNumElems = some o.semNumElems
  semNumEmpty : k.semaphores.names.lookup name.semNumEmpty = some o.semNumEmpty

variable (maxNumElems) in
/-- A second `Queue` on a name shares the objects of the first and changes nothing. -/
theorem construct_bound (h : Bound name k o) (cleanup : Bool) :
    construct maxNumElems name cleanup k = (⟨o, cleanup⟩, k) := by
  simp only [construct, NamedObjects.openCreate_bound h.mutex, NamedObjects.openCreate_bound h.semNumElems,
    NamedObjects.openCreate_bound h.semNumEmpty, NamedObjects.openCreate_bound h.firstElem,
    NamedObjects.openCreate_bound h.lastElem, h.shm]

variable (maxNumElems) in
/-- Once the name of a semaphore is gone, a new `Queue` has another semaphore. -/
theorem construct_unbound {sem : Nat} (h : k.semaphores.names.lookup name.semNumEmpty = none)
    (hsem : sem < k.semaphores.objects.length) (cleanup : Bool) :
    (construct maxNumElems name cleanup k).1.objects.semNumEmpty ≠ sem := by
  have heq : (construct maxNumElems name cleanup k).1.objects.semNumEmpty =
      (((k.semaphores.openCreate name.mutex 1).2.openCreate name.semNumElems 0).2.openCreate
        name.semNumEmpty maxNumElems).1 := by
    unfold construct
    dsimp only
    split <;> rfl
  rw [heq]
  apply NamedObjects.openCreate_ne
  · exact hsem.trans_le ((NamedObjects.openCreate_length_le ..).trans (NamedObjects.openCreate_length_le ..))
  · rw [NamedObjects.openCreate_lookup_ne name.elems_ne_empty.symm,
      NamedObjects.openCreate_lookup_ne name.mutex_ne_empty.symm, h]
    exact nofun

theorem destroySegments_objects (segments : NamedObjects CString Segment) (names : List CString) :
    (destroySegments segments names).objects = segments.objects := by
  induction names generalizing segments with
  | nil => rfl
  | cons name names ih =>
    refine (ih _).trans ?_
    dsimp only
    cases h : segments.unlink name with
    | none => rfl
    | some s => exact NamedObjects.unlink_objects h

theorem destroySemaphores_objects (semaphores : NamedObjects CString Nat) (names : List CString) :
    (destroySemaphores semaphores names).objects = semaphores.objects := by
  induction names generalizing semaphores with
  | nil => rfl
  | cons name names ih =>
    cases h : semaphores.unlink name with
    | none => rw [destroySemaphores, h]
    | some s => rw [destroySemaphores, h, ih, NamedObjects.unlink_objects h]

theorem destroySemaphores_free {semaphores : NamedObjects CString Nat} {sem : CString}
    (h : semaphores.names.lookup sem = none) (names : List CString) :
    (destroySemaphores semaphores names).names.lookup sem = none := by
  induction names generalizing semaphores with
  | nil => exact h
  | cons name names ih =>
    cases hu : semaphores.unlink name with
    | none => rw [destroySemaphores, hu]; exact h
    | some s =>
      rw [destroySemaphores, hu]
      exact ih (NamedObjects.unlink_free hu h)

theorem Bound.congr {k' : Kernel} (h : Bound name k o) (hsegments : k'.segments.names = k.segments.names)
    (hsemaphores : k'.semaphores.names = k.semaphores.names) : Bound name k' o := by
  constructor
  all_goals simp only [hsegments, hsemaphores]
  exacts [h.shm, h.firstElem, h.lastElem, h.mutex, h.semNumElems, h.semNumEmpty]

/-- A destructor leaves the objects to the other holders, whatever its flag. -/
theorem destroy_views (h : QueueHandle) (hv : Views k o q) : Views (h.destroy name k) o q := by
  have hsemaphores : (h.destroy name k).semaphores.objects = k.semaphores.objects := destroySemaphores_objects _ _
  have hsegments : (h.destroy name k).segments.objects = k.segments.objects := by
    simp only [destroy]
    split_ifs
    · exact destroySegments_objects _ _
    · rfl
  constructor
  all_goals simp only [NamedObjects.get, hsemaphores, hsegments]
  exacts [hv.shm, hv.firstElem, hv.lastElem, hv.mutex, hv.semNumElems, hv.semNumEmpty]

/-- Nor does it heed the flag for the names of the semaphores. -/
theorem destroy_unbinds (h : QueueHandle) (k : Kernel) :
    (h.destroy name k).semaphores.names.lookup name.semNumEmpty = none := by
  simp only [destroy, destroySemaphores]
  cases hu : k.semaphores.unlink name.semNumEmpty with
  | none => exact NamedObjects.unlink_eq_none hu
  | some s => exact destroySemaphores_free (NamedObjects.unlink_lookup hu) [name.semNumElems, name.mutex]

end QueueHandle

namespace Channel
variable {ι : Type} [DecidableEq ι] {maxNumElems elemSize : Nat} {name : QueueName}

omit [DecidableEq ι] in
variable (ι maxNumElems name) in
theorem start_eq : (start maxNumElems name : Channel ι) =
    ⟨⟨⟨((AList.insert name.shm 2 (AList.insert name.lastElem 1 (AList.insert name.firstElem 0 ∅)))),
        [.index 0, .index 0, .bytes fun _ => 0]⟩,
      ⟨AList.insert name.semNumEmpty 2 (AList.insert name.semNumElems 1 (AList.insert name.mutex 0 ∅)),
        [1, 0, maxNumElems]⟩⟩, ⟨2, 0, 1, 0, 1, 2⟩, fun _ => none⟩ := by
  have hfl := name.first_ne_last
  have hsf := name.shm_ne_first
  have hsl := name.shm_ne_last
  have hme := name.mutex_ne_elems
  have hmy := name.mutex_ne_empty
  have hey := name.elems_ne_empty
  simp [start, QueueHandle.construct, NamedObjects.openCreate, NamedObjects.empty, NamedObjects.set,
    -AList.insert_empty, hfl.symm, hsf, hsl, hme.symm, hmy.symm, hey.symm]

omit [DecidableEq ι] in
theorem start_bound : QueueHandle.Bound name (start maxNumElems name : Channel ι).kernel ⟨2, 0, 1, 0, 1, 2⟩ := by
  rw [start_eq ι maxNumElems name]
  constructor
  · exact AList.lookup_insert _
  · rw [AList.lookup_insert_ne name.shm_ne_first.symm, AList.lookup_insert_ne name.first_ne_last]
    exact AList.lookup_insert _
  · rw [AList.lookup_insert_ne name.shm_ne_last.symm]
    exact AList.lookup_insert _
  · rw [AList.lookup_insert_ne name.mutex_ne_empty, AList.lookup_insert_ne name.mutex_ne_elems]
    exact AList.lookup_insert _
  · rw [AList.lookup_insert_ne name.elems_ne_empty]
    exact AList.lookup_insert _
  · exact AList.lookup_insert _

omit [DecidableEq ι] in
theorem start_views : Views (start maxNumElems name : Channel ι).kernel ⟨2, 0, 1, 0, 1, 2⟩
    (Queue.fresh maxNumElems fun _ => 0) := by
  rw [start_eq ι maxNumElems name]
  exact ⟨rfl, rfl, rfl, rfl, rfl, rfl⟩

/-- Every process has the objects of the server. The positions in them agree with the
counts of the semaphores, the messages that the server has not read are in the slots from
its position on, a message that fits is written, and the next one can be read. -/
structure Kept (maxNumElems : Nat) (ts : Trace ι elemSize) (s : Channel ι) : Prop where
  sameObjects : ∀ i h, s.clients i = some h → h.objects = s.server
  holds : ∃ q unread, Views s.kernel s.server q ∧ Queue.AtRest maxNumElems q (readIn ts).length unread ∧
    readIn ts ++ unread = writtenIn ts
  writes : ∀ i h data, s.clients i = some h → (writtenIn ts).length < (readIn ts).length + maxNumElems →
    (QueueHandle.write maxNumElems h.objects (data : Slot UInt8 elemSize) s.kernel).isSome
  reads : ∀ data, (writtenIn ts)[(readIn ts).length]? = some data →
    ∃ k, QueueHandle.read maxNumElems elemSize s.server s.kernel = some (k, data)

variable {s t : Channel ι} {ts : Trace ι elemSize} {e : Event ι elemSize} {q : Queue UInt8}
  {unread : List (Slot UInt8 elemSize)}

omit [DecidableEq ι] in
theorem kept_of (ha : s.server.Apart) (hsame : ∀ i h, s.clients i = some h → h.objects = s.server)
    (hv : Views s.kernel s.server q) (hrest : Queue.AtRest maxNumElems q (readIn ts).length unread)
    (hall : readIn ts ++ unread = writtenIn ts) : Kept maxNumElems ts s := by
  have hempty := hrest.empty
  have helems := hrest.elems
  refine ⟨hsame, ⟨q, unread, hv, hrest, hall⟩, fun i h data hi hfits => ?_, fun data hdata => ?_⟩
  · rw [← hall, List.length_append] at hfits
    have hroom : q.waitEmpty = some { q with semNumEmpty := q.semNumEmpty - 1 } := if_pos (by omega)
    obtain ⟨k, hk, _⟩ := QueueHandle.write_eq maxNumElems ha hv hroom data
    rw [hsame i h hi, hk]
    rfl
  · rw [← hall, List.getElem?_append_right (Nat.le_refl _), Nat.sub_self] at hdata
    obtain ⟨rest, rfl⟩ : ∃ rest, unread = data :: rest := by
      cases unread with
      | nil => cases hdata
      | cons first rest =>
        cases hdata
        exact ⟨rest, rfl⟩
    have hsome : q.waitElems = some { q with semNumElems := q.semNumElems - 1 } := by
      refine if_pos ?_
      rw [helems]
      exact Nat.succ_pos _
    obtain ⟨k, hk, _⟩ := QueueHandle.read_eq maxNumElems elemSize ha hv hsome
    obtain ⟨_, heq, _⟩ := hrest.read hsome
    cases heq
    exact ⟨k, hk⟩

/-- What holds as long as no process attaches after one has detached. -/
structure Alive (maxNumElems : Nat) (name : QueueName) (ts : Trace ι elemSize) (s : Channel ι) : Prop where
  kept : Kept maxNumElems ts s
  apart : s.server.Apart
  bound : (∀ x ∈ ts, x.label.action.detaches = false) → QueueHandle.Bound name s.kernel s.server
  gone : (∃ x ∈ ts, x.label.action.detaches = true) →
    s.kernel.semaphores.names.lookup name.semNumEmpty = none

omit [DecidableEq ι] in
theorem alive_start : Alive maxNumElems name ([] : Trace ι elemSize) (start maxNumElems name) := by
  have hserver : (start maxNumElems name : Channel ι).server = ⟨2, 0, 1, 0, 1, 2⟩ := by
    rw [start_eq ι maxNumElems name]
  have ha : (start maxNumElems name : Channel ι).server.Apart := by
    rw [hserver]
    constructor <;> decide
  refine ⟨kept_of ha (fun i h hi => ?_) (hserver ▸ start_views) (Queue.atRest_fresh _) rfl, ha,
    fun _ => hserver ▸ start_bound, fun ⟨x, hx, _⟩ => absurd hx List.not_mem_nil⟩
  rw [start_eq ι maxNumElems name] at hi
  cases hi

section Told
variable {x : Transition (Channel ι) (Event ι elemSize)} {data : Slot UInt8 elemSize}

omit [DecidableEq ι] in
private theorem told_nothing (h : x.label.replies = .nothing) (ts : Trace ι elemSize) :
    readIn (ts ++ [x]) = readIn ts ∧ writtenIn (ts ++ [x]) = writtenIn ts := by
  simp [readIn, writtenIn, h]

omit [DecidableEq ι] in
private theorem told_stored (h : x.label.replies = .stored data) (ts : Trace ι elemSize) :
    readIn (ts ++ [x]) = readIn ts ∧ writtenIn (ts ++ [x]) = writtenIn ts ++ [data] := by
  simp [readIn, writtenIn, h]

omit [DecidableEq ι] in
private theorem told_delivered (h : x.label.replies = .delivered data) (ts : Trace ι elemSize) :
    readIn (ts ++ [x]) = readIn ts ++ [data] ∧ writtenIn (ts ++ [x]) = writtenIn ts := by
  simp [readIn, writtenIn, h]

end Told

section Step
variable (ha : Alive maxNumElems name ts s) {i : ι} {moved : Queue.Moved UInt8 elemSize}
include ha

omit [DecidableEq ι] in
/-- A step that is no detach and leaves the names. -/
private theorem alive_of_kept {x : Transition (Channel ι) (Event ι elemSize)}
    (hx : x.label.action.detaches = false) (hkept : Kept maxNumElems (ts ++ [x]) t) (hserver : t.server = s.server)
    (hsegments : t.kernel.segments.names = s.kernel.segments.names)
    (hsemaphores : t.kernel.semaphores.names = s.kernel.semaphores.names) :
    Alive maxNumElems name (ts ++ [x]) t := by
  refine ⟨hkept, hserver ▸ ha.apart, fun hnone => ?_, fun ⟨y, hy, hdetaches⟩ => ?_⟩
  · rw [hserver]
    exact (ha.bound fun y hy => hnone y (List.mem_append_left _ hy)).congr hsegments hsemaphores
  · rw [hsemaphores]
    rcases List.mem_append.mp hy with hold | hnew
    · exact ha.gone ⟨y, hold, hdetaches⟩
    · rw [List.mem_singleton.mp hnew, hx] at hdetaches
      cases hdetaches

/-- Attaching while the names are bound. -/
private theorem attach_alive (hnone : ∀ x ∈ ts, x.label.action.detaches = false)
    (h : Step maxNumElems elemSize name s ⟨.attach i, moved⟩ t) :
    Alive maxNumElems name (ts ++ [⟨s, ⟨.attach i, moved⟩, t⟩]) t := by
  obtain ⟨q, unread, hv, hrest, hall⟩ := ha.kept.holds
  have hconstruct := QueueHandle.construct_bound maxNumElems (ha.bound hnone) false
  cases hi : s.clients i with
  | some handle => simp [StepOf, step, hi] at h
  | none =>
    simp only [StepOf, step, hi, hconstruct] at h
    cases h
    refine alive_of_kept ha rfl ?_ rfl rfl rfl
    obtain ⟨hread, hwritten⟩ := told_nothing (x := ⟨s, ⟨.attach i, .nothing⟩, _⟩) rfl ts
    refine kept_of ha.apart (fun j h hj => ?_) hv (hread ▸ hrest) (by rw [hread, hwritten, hall])
    dsimp only at hj
    rw [Function.update_apply] at hj
    split_ifs at hj
    · cases hj
      rfl
    · exact ha.kept.sameObjects j h hj

private theorem write_alive {data : Slot UInt8 elemSize}
    (h : Step maxNumElems elemSize name s ⟨.write i data, moved⟩ t) :
    Alive maxNumElems name (ts ++ [⟨s, ⟨.write i data, moved⟩, t⟩]) t := by
  obtain ⟨handle, hi, h⟩ := Option.bind_eq_some_iff.mp h
  obtain ⟨k, hk, h⟩ := Option.bind_eq_some_iff.mp h
  obtain ⟨q, unread, hv, hrest, hall⟩ := ha.kept.holds
  rw [ha.kept.sameObjects i handle hi] at hk
  cases hq : q.waitEmpty with
  | none =>
    rw [QueueHandle.write_blocked hv hq] at hk
    cases hk
  | some r =>
    obtain ⟨k', hk', hv', hsegments, hsemaphores⟩ := QueueHandle.write_eq maxNumElems ha.apart hv hq data
    rw [hk'] at hk
    cases hk
    cases h
    refine alive_of_kept ha rfl ?_ rfl hsegments hsemaphores
    obtain ⟨hread, hwritten⟩ := told_stored (x := ⟨s, ⟨.write i data, .stored data⟩, _⟩) rfl ts
    refine kept_of ha.apart ha.kept.sameObjects hv' (hread ▸ hrest.write hq data) ?_
    rw [hread, hwritten, ← List.append_assoc, hall]

private theorem read_alive (h : Step maxNumElems elemSize name s ⟨.read, moved⟩ t) :
    Alive maxNumElems name (ts ++ [⟨s, ⟨.read, moved⟩, t⟩]) t := by
  obtain ⟨⟨k, data⟩, hk, h⟩ := Option.bind_eq_some_iff.mp h
  obtain ⟨q, unread, hv, hrest, hall⟩ := ha.kept.holds
  cases hq : q.waitElems with
  | none =>
    rw [QueueHandle.read_blocked hv hq] at hk
    cases hk
  | some r =>
    obtain ⟨k', hk', hv', hsegments, hsemaphores⟩ := QueueHandle.read_eq maxNumElems elemSize ha.apart hv hq
    obtain ⟨rest, rfl, hless⟩ := hrest.read hq
    rw [hk'] at hk
    cases hk
    cases h
    refine alive_of_kept ha rfl ?_ rfl hsegments hsemaphores
    obtain ⟨hread, hwritten⟩ := told_delivered (x := ⟨s, ⟨.read, .delivered _⟩, _⟩) rfl ts
    have hmore := (congrArg List.length hread).trans List.length_append
    refine kept_of ha.apart ha.kept.sameObjects hv' (hmore ▸ hless) ?_
    rw [hread, hwritten, List.append_assoc, List.singleton_append, hall]

private theorem detach_alive (h : Step maxNumElems elemSize name s ⟨.detach i, moved⟩ t) :
    Alive maxNumElems name (ts ++ [⟨s, ⟨.detach i, moved⟩, t⟩]) t := by
  obtain ⟨handle, hi, h⟩ := Option.bind_eq_some_iff.mp h
  obtain ⟨q, unread, hv, hrest, hall⟩ := ha.kept.holds
  cases h
  obtain ⟨hread, hwritten⟩ := told_nothing (x := ⟨s, ⟨.detach i, .nothing⟩, _⟩) rfl ts
  refine ⟨kept_of ha.apart (fun j h hj => ?_) (handle.destroy_views hv) (hread ▸ hrest) (by rw [hread, hwritten, hall]),
    ha.apart, fun hnone => ?_, fun _ => handle.destroy_unbinds s.kernel⟩
  · dsimp only at hj
    rw [Function.update_apply] at hj
    split_ifs at hj
    exact ha.kept.sameObjects j h hj
  · exact absurd (hnone _ (List.mem_append_right _ (List.mem_singleton_self _))) (by simp [Action.detaches])

/-- A process that attaches after another has detached gets a semaphore of its own. -/
private theorem late_attach_lost (hgone : ∃ x ∈ ts, x.label.action.detaches = true)
    (h : Step maxNumElems elemSize name s ⟨.attach i, moved⟩ t) (us : Trace ι elemSize) :
    ¬ Kept maxNumElems us t := by
  intro hkept
  obtain ⟨q, _, hv, _⟩ := ha.kept.holds
  cases hi : s.clients i with
  | some handle => simp [StepOf, step, hi] at h
  | none =>
    have hne := QueueHandle.construct_unbound maxNumElems (ha.gone hgone)
      (NamedObjects.get_lt hv.semNumEmpty) false
    simp only [StepOf, step, hi] at h
    cases h
    have hsame := hkept.sameObjects i _ (Function.update_self ..)
    exact hne (congrArg QueueObjects.semNumEmpty hsame)

end Step

/-- No process attaches after another has detached. -/
def NoLateAttach (ts : Trace ι elemSize) : Prop :=
  Throughout (fun pre x => x.label.action.attaches = true → ∀ y ∈ pre, y.label.action.detaches = false) ts

theorem step_alive (ha : Alive maxNumElems name ts s) (h : Step maxNumElems elemSize name s e t)
    (hattach : e.action.attaches = true → ∀ x ∈ ts, x.label.action.detaches = false) :
    Alive maxNumElems name (ts ++ [⟨s, e, t⟩]) t := by
  obtain ⟨action, moved⟩ := e
  cases action with
  | attach i => exact attach_alive ha (hattach rfl) h
  | write i data => exact write_alive ha h
  | detach i => exact detach_alive ha h
  | read => exact read_alive ha h

theorem kept_iff (ha : Alive maxNumElems name ts s) (h : Step maxNumElems elemSize name s e t) :
    Kept maxNumElems (ts ++ [⟨s, e, t⟩]) t ↔
      (e.action.attaches = true → ∀ x ∈ ts, x.label.action.detaches = false) := by
  refine ⟨fun hkept hattach x hx => ?_, fun hattach => (step_alive ha h hattach).kept⟩
  obtain ⟨action, moved⟩ := e
  cases action with
  | attach i =>
    by_contra hdetaches
    rw [Bool.not_eq_false] at hdetaches
    exact late_attach_lost ha ⟨x, hx, hdetaches⟩ h _ hkept
  | _ => cases hattach

/-- From the start of a run to its end the channel is kept just when no process attaches
to it after another has detached from it. -/
theorem channel_kept_iff (h : Run (Step maxNumElems elemSize name) (start maxNumElems name : Channel ι) ts t) :
    (Kept maxNumElems ([] : Trace ι elemSize) (start maxNumElems name) ∧
      Throughout (fun pre x => Kept maxNumElems (pre ++ [x]) x.target) ts) ↔ NoLateAttach ts := by
  suffices hboth : (Throughout (fun pre x => Kept maxNumElems (pre ++ [x]) x.target) ts ↔ NoLateAttach ts) ∧
      (NoLateAttach ts → Alive maxNumElems name ts t) from
    (and_iff_right (alive_start : Alive maxNumElems name ([] : Trace ι elemSize) _).kept).trans hboth.1
  induction h with
  | nil => exact ⟨iff_of_true .nil .nil, fun _ => alive_start⟩
  | @snoc ts s e t _ hstep ih =>
    obtain ⟨hiff, halive⟩ := ih
    unfold NoLateAttach
    rw [Throughout.concat_iff, Throughout.concat_iff, hiff]
    exact ⟨and_congr_right fun hnone => kept_iff (halive hnone) hstep,
      fun ⟨hnone, hattach⟩ => step_alive (halive hnone) hstep hattach⟩

/-- The queue from which the server takes the requests of `capioctl`, with two slots of a
byte. -/
def requests : QueueName := ⟨"w".toList, "RX".toList⟩

/-- Two processes overlap, and both messages are read. -/
theorem channel_kept_iff_two : ∃ (ts : Trace Nat 1) (t : Channel Nat), Run (Step 2 1 requests) (start 2 requests) ts t ∧
    (readIn ts).map (fun data => data 0) = [7, 8] ∧
    ((Kept 2 ([] : Trace Nat 1) (start 2 requests) ∧ Throughout (fun pre x => Kept 2 (pre ++ [x]) x.target) ts) ↔
      NoLateAttach ts) := by
  obtain ⟨ts, t, hrun, _, hread⟩ := execute_any (step 2 1 requests) (start 2 requests : Channel Nat)
    [.attach 1, .attach 2, .write 1 (fun _ => 7), .detach 1, .write 2 (fun _ => 8), .read, .detach 2, .read]
    (fun ts _ => (readIn ts).map (fun data => data 0) == [7, 8]) (by decide)
  exact ⟨ts, t, hrun, beq_iff_eq.mp hread, channel_kept_iff hrun⟩

private theorem kept_end (h : Run (Step maxNumElems elemSize name) (start maxNumElems name : Channel ι) ts t)
    (hstart : Kept maxNumElems ([] : Trace ι elemSize) (start maxNumElems name))
    (hall : Throughout (fun pre x => Kept maxNumElems (pre ++ [x]) x.target) ts) : Kept maxNumElems ts t := by
  cases h with
  | nil => exact hstart
  | snoc _ _ => exact (Throughout.concat_iff.mp hall).2

/-- After the first process has come and gone, the second posts to a semaphore at which
the server does not wait. -/
theorem second_process_unheard : ∃ (ts : Trace Nat 1) (t : Channel Nat),
    Run (Step 2 1 requests) (start 2 requests) ts t ∧
      ¬ (Kept 2 ([] : Trace Nat 1) (start 2 requests) ∧
        Throughout (fun pre x => Kept 2 (pre ++ [x]) x.target) ts) := by
  obtain ⟨ts, t, hrun, _, htold⟩ := execute_any (step 2 1 requests) (start 2 requests : Channel Nat)
    [.attach 1, .write 1 (fun _ => 7), .read, .detach 1, .attach 2, .write 2 (fun _ => 8)]
    (fun ts t => (writtenIn ts).length == 2 && (readIn ts).length == 1 &&
      (QueueHandle.read 2 1 t.server t.kernel).isNone) (by decide)
  simp only [Bool.and_eq_true, beq_iff_eq, Option.isNone_iff_eq_none] at htold
  obtain ⟨⟨hwritten, hread⟩, hnone⟩ := htold
  refine ⟨ts, t, hrun, fun ⟨hstart, hall⟩ => ?_⟩
  have hlt : (readIn ts).length < (writtenIn ts).length := by omega
  obtain ⟨k, hk⟩ := (kept_end hrun hstart hall).reads _ (List.getElem?_eq_getElem hlt)
  rw [hnone] at hk
  cases hk

end Channel
end Capio
