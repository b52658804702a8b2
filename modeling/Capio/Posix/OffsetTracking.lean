import Capio.Posix.OffsetHandlers

/-! When the tracked offset follows the offset of the kernel over a sequence of
calls on a descriptor and its copies. -/
namespace Capio.Posix
open Library DescriptorTables

namespace DescriptorTables
variable {t t' : DescriptorTables} {fd i : Int} {offset : Nat}

/-- Two descriptors with one cell for their offset. -/
def SharesOffset (t : DescriptorTables) (fd i : Int) : Prop :=
  (t.files.lookup i).map TrackedFile.offsetCell = (t.files.lookup fd).map TrackedFile.offsetCell

theorem getCapioFdOffset_set (h : t.setCapioFdOffset fd offset = some t') {old : Nat}
    (hi : t.getCapioFdOffset i = some old) :
    (t.SharesOffset fd i → t'.getCapioFdOffset i = some offset) ∧
    (¬ t.SharesOffset fd i → t'.getCapioFdOffset i = some old) := by
  obtain ⟨file, hfile, he⟩ := Option.bind_eq_some_iff.mp h
  cases he
  obtain ⟨other, hother, hget⟩ := Option.bind_eq_some_iff.mp hi
  have hnew : ({ t with offsets := t.offsets.set file.offsetCell offset } : DescriptorTables).getCapioFdOffset i =
      (t.offsets.set file.offsetCell offset)[other.offsetCell]? := by
    unfold getCapioFdOffset
    dsimp only
    rw [hother]
    rfl
  have hshares : t.SharesOffset fd i ↔ other.offsetCell = file.offsetCell := by
    rw [SharesOffset, hfile, hother, Option.map_some, Option.map_some, Option.some.injEq]
  rw [hnew, hshares, List.getElem?_set]
  constructor
  · intro hs
    have hlt : other.offsetCell < t.offsets.length := (List.getElem?_eq_some_iff.mp hget).1
    rw [if_pos hs.symm, if_pos (hs ▸ hlt)]
  · intro hs
    rw [if_neg (Ne.symm hs), hget]

theorem getCapioFdOffset_dup {isCloexec : Bool} (h : t.dupCapioFd fd i isCloexec = some t') (j : Int) :
    t'.getCapioFdOffset j = if j = i ∧ i ∉ t.files then t.getCapioFdOffset fd else t.getCapioFdOffset j := by
  obtain ⟨path, _, h⟩ := Option.bind_eq_some_iff.mp h
  obtain ⟨fds, _, h⟩ := Option.bind_eq_some_iff.mp h
  obtain ⟨file, hfile, h⟩ := Option.bind_eq_some_iff.mp h
  obtain ⟨copy, hcopy, h⟩ := Option.bind_eq_some_iff.mp h
  cases h
  rw [UnorderedMap.lookup_emplace, if_pos rfl, Option.some.injEq] at hcopy
  unfold getCapioFdOffset
  dsimp only
  rw [UnorderedMap.lookup_insert_eq, UnorderedMap.lookup_emplace]
  by_cases hj : j = i
  · subst hj
    cases hold : t.files.lookup j with
    | none =>
      have hnew : j ∉ t.files := AList.lookup_eq_none.mp hold
      rw [hold, Option.getD_none] at hcopy
      simp [hnew, hfile, ← hcopy]
    | some old =>
      have hmem : j ∈ t.files := AList.lookup_isSome.mp (by rw [hold]; rfl)
      rw [hold, Option.getD_some] at hcopy
      simp [hmem, ← hcopy]
  · simp [hj]

/-- Opening registers offset 0 for a descriptor that is not tracked. -/
theorem getCapioFdOffset_addCapioFd {path : CString} {isCloexec : Bool} (hfd : fd ∉ t.files)
    (h : t.addCapioFd path fd offset isCloexec = some t') : t'.getCapioFdOffset fd = some offset := by
  obtain ⟨fds, _, heq⟩ := addCapioFd_eq t path fd offset isCloexec
  rw [heq] at h
  cases h
  unfold getCapioFdOffset
  dsimp only
  rw [UnorderedMap.lookup_emplace, if_pos rfl, AList.lookup_eq_none.mpr hfd, Option.getD_none]
  simp

end DescriptorTables

namespace Session
variable {view : KernelView} {tid : Int} {s u : Session} {e : Event} {ts : Trace}

/-- The tracked offset of every copy is the offset of the kernel. -/
def Follows (s : Session) : Prop := ∀ fd ∈ s.copies, s.tables.getCapioFdOffset fd = some s.file.offset

instance (s : Session) : Decidable (Follows s) :=
  inferInstanceAs (Decidable (∀ fd ∈ s.copies, s.tables.getCapioFdOffset fd = some s.file.offset))

structure Bounded (f : OpenFile) : Prop where
  offset : f.offset < OpenFile.offMax
  size : f.size < OpenFile.offMax

/-- A call that moves the offset moves it for every copy. -/
def MovesAll (s : Session) (fd : Int) (stays : Prop) : Prop :=
  stays ∨ ∀ i ∈ s.copies, s.tables.SharesOffset fd i

/-- The calls after which the tracked offset is right if it was right before. -/
def Meets (s : Session) : FileCall → Prop
  | .read fd count => count ≤ s.file.size - s.file.offset ∧ s.MovesAll fd (count = 0)
  | .readv fd iov =>
    16 * iov.length = min (iovBytes iov) (s.file.size - s.file.offset) ∧ s.MovesAll fd (iov = [])
  | .write _ _ written | .writev _ _ written => written = 0
  | .lseek fd offset .seekEnd => s.file.size = 0 ∧ s.MovesAll fd (offset = s.file.offset)
  | .lseek fd offset whence => s.MovesAll fd (s.file.sought offset whence = s.file.offset)
  | .dup fd res | .dup2 fd res | .dup3 fd res _ =>
    fd ≠ res → res ∈ s.tables.files → s.tables.getCapioFdOffset res = some s.file.offset
  | .resize _ => True

private theorem follows_moved {t : DescriptorTables} {fd : Int} {offset : Nat} {f : OpenFile}
    (hf : Follows s) (hfd : fd ∈ s.copies) (ht : s.tables.setCapioFdOffset fd offset = some t) :
    Follows ⟨t, f, s.copies⟩ ↔ offset = f.offset ∧ s.MovesAll fd (f.offset = s.file.offset) := by
  have hset (i : Int) (hi : i ∈ s.copies) := getCapioFdOffset_set ht (hf i hi)
  constructor
  · intro hnew
    have hone := (hset fd hfd).1 rfl
    have heq : offset = f.offset := Option.some.inj (hone.symm.trans (hnew fd hfd))
    refine ⟨heq, or_iff_not_imp_left.mpr ?_⟩
    intro hmoves i hi
    by_contra hs
    exact hmoves (Option.some.inj ((hnew i hi).symm.trans ((hset i hi).2 hs)))
  · rintro ⟨rfl, hall⟩ i hi
    by_cases hs : s.tables.SharesOffset fd i
    · exact (hset i hi).1 hs
    · rcases hall with hstay | hall
      · rw [hstay]
        exact (hset i hi).2 hs
      · exact absurd (hall i hi) hs

private theorem tracked_of_follows {fd : Int} (hf : Follows s) (hfd : fd ∈ s.copies) : fd ∈ s.tables.files := by
  obtain ⟨file, hfile, _⟩ := Option.bind_eq_some_iff.mp (hf fd hfd)
  exact AList.lookup_isSome.mp (by rw [hfile]; rfl)

/-- What `read` and `readv` do with a tracked descriptor. -/
private theorem readUpTo_spec {t : DescriptorTables} {fd bytes : Int} {request : Option CacheRequest}
    (hf : Follows s) (hfd : fd ∈ s.copies) (h : readUpTo s.tables tid fd bytes = some (t, request)) :
    s.tables.setCapioFdOffset fd (capioOff64 (s.file.offset + bytes)) = some t ∧
      ∃ path, request = some (.read path (toLong (capioOff64 (s.file.offset + bytes))) tid fd) := by
  unfold readUpTo at h
  rw [if_pos (existsCapioFd_iff.mpr (tracked_of_follows hf hfd)), hf fd hfd] at h
  dsimp only [Option.bind_eq_bind, Option.bind_some] at h
  obtain ⟨path, _, h⟩ := Option.bind_eq_some_iff.mp h
  obtain ⟨t', ht, h⟩ := Option.bind_eq_some_iff.mp h
  cases h
  exact ⟨ht, path, rfl⟩

private theorem capioWrite_spec {t t' : DescriptorTables} {fd count : Int} {request : Option CacheRequest}
    (h : capioWrite t tid fd count = some (t', request)) :
    t' = t ∧ ∀ path endOfRead u i, request ≠ some (.read path endOfRead u i) := by
  unfold capioWrite at h
  split_ifs at h
  · obtain ⟨path, _, h⟩ := Option.bind_eq_some_iff.mp h
    cases h
    exact ⟨rfl, by simp⟩
  · cases h
    exact ⟨rfl, by simp⟩

private theorem lseekHandler_spec {t : DescriptorTables} {fd offset : Int} {whence : Whence}
    {request : Option CacheRequest} (hf : Follows s) (hfd : fd ∈ s.copies)
    (h : lseekHandler s.tables fd offset whence = some (t, request)) :
    s.tables.setCapioFdOffset fd (capioOff64 (if whence = .seekCur then s.file.offset + offset else offset)) =
      some t ∧ request = none := by
  unfold lseekHandler at h
  rw [if_pos (existsCapioFd_iff.mpr (tracked_of_follows hf hfd)), hf fd hfd] at h
  dsimp only [Option.bind_eq_bind, Option.bind_some] at h
  split_ifs at h ⊢
  all_goals
    obtain ⟨t', ht, h⟩ := Option.bind_eq_some_iff.mp h
    cases h
    exact ⟨ht, rfl⟩

/-- What a copying call leaves of the tracked offsets. -/
private theorem copyFd_spec {t : DescriptorTables} {fd res : Int} {registers cloexec : Bool}
    {o : Outcome} (hreg : registers = true ∨ fd = res) (hres : 0 ≤ res) (hfd : fd ∈ t.files)
    (h : copyFd view t fd res registers cloexec = some o) (i : Int) :
    o.tables.getCapioFdOffset i =
      if i = res ∧ res ∉ t.files then t.getCapioFdOffset fd else t.getCapioFdOffset i := by
  unfold copyFd at h
  rw [if_pos (existsCapioFd_iff.mpr hfd), if_neg (by omega)] at h
  cases registers with
  | true =>
    obtain ⟨t', ht, h⟩ := Option.bind_eq_some_iff.mp h
    cases h
    exact getCapioFdOffset_dup ht i
  | false =>
    cases h
    obtain rfl := hreg.resolve_left Bool.false_ne_true
    rw [if_neg (fun hi => hi.2 hfd)]

private theorem follows_copied {t : DescriptorTables} {fd res : Int} (hf : Follows s) (hfd : fd ∈ s.copies)
    (ht : ∀ i, t.getCapioFdOffset i = if i = res ∧ res ∉ s.tables.files then
      s.tables.getCapioFdOffset fd else s.tables.getCapioFdOffset i) :
    Follows ⟨t, s.file, insert res s.copies⟩ ↔
      (fd ≠ res → res ∈ s.tables.files → s.tables.getCapioFdOffset res = some s.file.offset) := by
  constructor
  · intro hnew _ hmem
    have hres := hnew res (Finset.mem_insert_self res s.copies)
    rwa [ht, if_neg (fun hi => hi.2 hmem)] at hres
  · intro hres i hi
    dsimp only
    rw [ht]
    split_ifs with hnew
    · exact hf fd hfd
    · rcases Finset.mem_insert.mp hi with rfl | hi
      · by_cases he : fd = i
        · exact hf i (he ▸ hfd)
        · exact hres he (by_contra fun hmem => hnew ⟨rfl, hmem⟩)
      · exact hf i hi

/-- What a step reads and writes, one case for each call. -/
theorem step_eq (h : Step view tid s e u) : s.succeeds e.action = true ∧ ∃ t,
    handle view s.tables tid e.action = some (t, e.replies) ∧
      u = ⟨t, kernel s.file e.action, copiesAfter s.copies e.action⟩ := by
  unfold Step StepOf step at h
  split_ifs at h with hs
  obtain ⟨⟨t, request⟩, ht, h⟩ := Option.bind_eq_some_iff.mp h
  cases h
  exact ⟨hs, t, ht, rfl⟩

theorem bounded_step (hb : Bounded s.file) (h : Step view tid s e u) : Bounded u.file := by
  obtain ⟨hs, t, _, rfl⟩ := step_eq h
  obtain ⟨hoffset, hsize⟩ := hb
  cases ha : e.action with
  | read fd count | readv fd iov =>
    exact ⟨by simp only [kernel, OpenFile.read]; omega, hsize⟩
  | write fd count written | writev fd iov written =>
    simp only [ha, succeeds, decide_eq_true_eq] at hs
    simp only [kernel, OpenFile.write]
    split_ifs
    · exact ⟨hoffset, hsize⟩
    · exact ⟨by dsimp only; omega, by dsimp only; omega⟩
  | lseek fd offset whence =>
    simp only [ha, succeeds, decide_eq_true_eq] at hs
    exact ⟨by simp only [kernel]; omega, hsize⟩
  | resize size =>
    simp only [ha, succeeds, decide_eq_true_eq] at hs
    exact ⟨hoffset, hs⟩
  | _ => exact ⟨hoffset, hsize⟩

/-- A call keeps the tracked offset right exactly when it meets its condition. -/
theorem follows_step (hb : Bounded s.file) (hf : Follows s) (h : Step view tid s e u) :
    Follows u ↔ Meets s e.action := by
  obtain ⟨action, request⟩ := e
  obtain ⟨hs, t, ht, rfl⟩ := step_eq h
  obtain ⟨hoffset, hsize⟩ := hb
  simp only [OpenFile.offMax] at hoffset hsize
  cases action with
  | read fd count =>
    simp only [succeeds, decide_eq_true_eq] at hs
    obtain ⟨hset, _⟩ := readUpTo_spec hf hs.1 ht
    refine (follows_moved hf hs.1 hset).trans ?_
    simp only [kernel, OpenFile.read, Meets, MovesAll, capioOff64]
    constructor
    · rintro ⟨heq, hall⟩
      have hle : count ≤ s.file.size - s.file.offset := by omega
      exact ⟨hle, hall.imp_left (fun hstay => by omega)⟩
    · rintro ⟨hle, hall⟩
      exact ⟨by omega, hall.imp_left (fun hstay => by omega)⟩
  | readv fd iov =>
    simp only [succeeds, decide_eq_true_eq] at hs
    obtain ⟨hfd, hcount, hsum⟩ := hs
    simp only [iovMax, OpenFile.offMax] at hcount hsum
    obtain ⟨hset, _⟩ := readUpTo_spec hf hfd ht
    refine (follows_moved hf hfd hset).trans ?_
    simp only [kernel, OpenFile.read, Meets, MovesAll, capioOff64, ← List.length_eq_zero_iff]
    constructor
    · rintro ⟨heq, hall⟩
      have hsum : 16 * iov.length = min (iovBytes iov) (s.file.size - s.file.offset) := by omega
      exact ⟨hsum, hall.imp_left (fun hstay => by omega)⟩
    · rintro ⟨hsum, hall⟩
      exact ⟨by omega, hall.imp_left (fun hstay => by omega)⟩
  | write fd count written | writev fd iov written =>
    simp only [succeeds, decide_eq_true_eq] at hs
    obtain ⟨rfl, _⟩ := capioWrite_spec ht
    simp only [kernel, copiesAfter, Meets, OpenFile.write]
    split_ifs with hw
    · exact iff_of_true hf hw
    · refine iff_of_false ?_ hw
      intro hnew
      have hmoved := Option.some.inj ((hnew fd hs.1).symm.trans (hf fd hs.1))
      dsimp only at hmoved
      omega
  | lseek fd offset whence =>
    simp only [succeeds, decide_eq_true_eq] at hs
    obtain ⟨hfd, hpos, hlt⟩ := hs
    simp only [OpenFile.offMax] at hlt
    obtain ⟨hset, _⟩ := lseekHandler_spec hf hfd ht
    refine (follows_moved hf hfd hset).trans ?_
    cases whence with
    | seekSet =>
      simp only [OpenFile.sought] at hpos hlt
      simp only [kernel, OpenFile.sought, Meets, MovesAll, capioOff64, reduceCtorEq, if_false]
      constructor
      · exact fun hall => hall.2.imp_left (fun hstay => by omega)
      · exact fun hall => ⟨by omega, hall.imp_left (fun hstay => by omega)⟩
    | seekCur =>
      simp only [OpenFile.sought] at hpos hlt
      simp only [kernel, OpenFile.sought, Meets, MovesAll, capioOff64, if_true]
      constructor
      · exact fun hall => hall.2.imp_left (fun hstay => by omega)
      · exact fun hall => ⟨by omega, hall.imp_left (fun hstay => by omega)⟩
    | seekEnd =>
      simp only [OpenFile.sought] at hpos hlt
      simp only [kernel, OpenFile.sought, Meets, MovesAll, capioOff64, reduceCtorEq, if_false]
      constructor
      · rintro ⟨heq, hall⟩
        have hempty : s.file.size = 0 := by omega
        exact ⟨hempty, hall.imp_left (fun hstay => by omega)⟩
      · rintro ⟨hempty, hall⟩
        exact ⟨by omega, hall.imp_left (fun hstay => by omega)⟩
  | dup fd res =>
    simp only [succeeds, decide_eq_true_eq] at hs
    obtain ⟨o, ho, he⟩ := Option.map_eq_some_iff.mp ht
    cases he
    exact follows_copied hf hs.1 (copyFd_spec (.inl rfl) hs.2 (tracked_of_follows hf hs.1) ho)
  | dup2 fd fd2 =>
    simp only [succeeds, decide_eq_true_eq] at hs
    obtain ⟨o, ho, he⟩ := Option.map_eq_some_iff.mp ht
    cases he
    refine follows_copied hf hs.1 (copyFd_spec ?_ hs.2 (tracked_of_follows hf hs.1) ho)
    by_cases hne : fd = fd2
    · exact .inr hne
    · exact .inl (decide_eq_true hne)
  | dup3 fd fd2 flags =>
    simp only [succeeds, decide_eq_true_eq] at hs
    obtain ⟨o, ho, he⟩ := Option.map_eq_some_iff.mp ht
    cases he
    unfold dup3Handler at ho
    rw [if_neg (fun hi => hs.2.2 hi.2)] at ho
    exact follows_copied hf hs.1 (copyFd_spec (.inl rfl) hs.2.1 (tracked_of_follows hf hs.1) ho)
  | resize size =>
    cases ht
    exact iff_of_true hf trivial

/-- A READ is asked for up to the tracked offset that it leaves. -/
theorem endOfRead_step (hf : Follows s) (h : Step view tid s e u) (hb : Bounded u.file) (hu : Follows u)
    {path : CString} {endOfRead v fd : Int} (hr : e.replies = some (.read path endOfRead v fd)) :
    endOfRead = u.file.offset := by
  obtain ⟨action, request⟩ := e
  obtain ⟨hs, t, ht, rfl⟩ := step_eq h
  have hread {fd' bytes : Int} (hfd : fd' ∈ s.copies)
      (ht : readUpTo s.tables tid fd' bytes = some (t, request))
      (hu : t.getCapioFdOffset fd' = some (kernel s.file action).offset) :
      endOfRead = (kernel s.file action).offset := by
    obtain ⟨hset, path', hreq⟩ := readUpTo_spec hf hfd ht
    rw [(getCapioFdOffset_set hset (hf fd' hfd)).1 rfl, Option.some.injEq] at hu
    rw [hreq, hu] at hr
    cases hr
    have hlt := hb.offset
    unfold OpenFile.offMax at hlt
    exact Int.bmod_eq_of_le (by dsimp only at hlt; omega) (by dsimp only at hlt; omega)
  cases action with
  | read fd count | readv fd iov =>
    simp only [succeeds, decide_eq_true_eq] at hs
    exact hread hs.1 ht (hu fd hs.1)
  | write fd count written | writev fd iov written => exact absurd hr ((capioWrite_spec ht).2 _ _ _ _)
  | lseek fd offset whence =>
    simp only [succeeds, decide_eq_true_eq] at hs
    cases (lseekHandler_spec hf hs.1 ht).2.symm.trans hr
  | dup fd res | dup2 fd res | dup3 fd res flags =>
    obtain ⟨o, _, he⟩ := Option.map_eq_some_iff.mp ht
    cases he
    cases hr
  | resize size =>
    cases ht
    cases hr

/-- From a descriptor registered at offset 0 on, the tracked offset is that of the
kernel after each call exactly when every call meets its condition. Every READ
then ends at the last byte that the kernel returns. -/
theorem offset_follows_kernel_iff {t t' : DescriptorTables} {path : CString} {fd : Int} {isCloexec : Bool}
    {size : Nat} (hfree : fd ∉ t.files) (hopen : t.addCapioFd path fd 0 isCloexec = some t')
    (hsize : size < OpenFile.offMax)
    (h : Run (Step view tid) ⟨t', ⟨0, size⟩, {fd}⟩ ts s) :
    ((∀ x ∈ ts, Follows x.target) ↔ ∀ x ∈ ts, Meets x.source x.label.action) ∧
    ((∀ x ∈ ts, Follows x.target) → ∀ x ∈ ts, ∀ (path : CString) (endOfRead v i : Int),
      x.label.replies = some (.read path endOfRead v i) → endOfRead = x.target.file.offset) := by
  have hstart : Follows ⟨t', ⟨0, size⟩, {fd}⟩ := by
    intro i hi
    rw [Finset.mem_singleton.mp hi]
    exact getCapioFdOffset_addCapioFd hfree hopen
  have hbounds : Bounded ⟨0, size⟩ := ⟨Nat.zero_lt_succ _, hsize⟩
  obtain ⟨hiff, _⟩ := h.forall_target_iff (fun s => Bounded s.file ∧ Follows s) Follows
    (fun x => Meets x.source x.label.action) ⟨hbounds, hstart⟩
    (fun s e u hi hs => follows_step hi.1 hi.2 hs) (fun s e u hi hs hu => ⟨bounded_step hi.1 hs, hu⟩)
  refine ⟨hiff, ?_⟩
  intro hall
  have hread := h.forall_of (fun x => Follows x.target) (fun s => Bounded s.file ∧ Follows s)
    (fun x => ∀ (path : CString) (endOfRead v i : Int), x.label.replies = some (.read path endOfRead v i) →
      endOfRead = x.target.file.offset) ⟨hbounds, hstart⟩
    (fun s e u hi hs hu => ⟨bounded_step hi.1 hs, hu⟩)
    (fun s e u hi hs hu path endOfRead v i hr => endOfRead_step hi.2 hs (bounded_step hi.1 hs) hu hr) hall
  exact hread

/-- The tables after one file is opened, and a kernel to run on. -/
def opened : DescriptorTables := (initFilesystem.addCapioFd "/c/f".toList 3 0 false).getD initFilesystem

def quietKernel : KernelView := ⟨fun _ => none, fun _ => none, fun _ => none, 0⟩

/-- A file of ten bytes is read through a descriptor and its copy. -/
def readTwice : List FileCall := [.read 3 4, .dup 3 5, .lseek 3 (-2) .seekCur, .read 5 8]

theorem offset_follows_kernel_iff_readTwice : ∃ ts s, Run (Step quietKernel 7) ⟨opened, ⟨0, 10⟩, {3}⟩ ts s ∧
    (∀ x ∈ ts, Meets x.source x.label.action) ∧ s.file.offset = 10 := by
  obtain ⟨ts, s, hrun, _, hp⟩ := execute_any (step quietKernel 7) ⟨opened, ⟨0, 10⟩, {3}⟩ readTwice
    (fun ts s => ts.all (fun x => decide (Follows x.target)) && s.file.offset == 10) (by decide)
  rw [Bool.and_eq_true, List.all_eq_true, beq_iff_eq] at hp
  have hopen : initFilesystem.addCapioFd "/c/f".toList 3 0 false = some opened := by
    obtain ⟨fds, _, heq⟩ := addCapioFd_eq initFilesystem "/c/f".toList 3 0 false
    rw [opened, heq, Option.getD_some]
  have hiff := (offset_follows_kernel_iff (AList.notMem_empty 3) hopen (by decide) hrun).1
  exact ⟨ts, s, hrun, hiff.mp (fun x hx => of_decide_eq_true (hp.1 x hx)), hp.2⟩

/-- Three bytes are written at the start of an empty file: the tracked offset stays 0. -/
theorem written_offset_lost : ¬ ∀ ts s, Run (Step quietKernel 7) ⟨opened, ⟨0, 0⟩, {3}⟩ ts s →
    ∀ x ∈ ts, Follows x.target := by
  intro hall
  obtain ⟨ts, s, hrun, _, hp⟩ := execute_any (step quietKernel 7) ⟨opened, ⟨0, 0⟩, {3}⟩ [.write 3 3 3]
    (fun ts _ => ts.any (fun x => decide (3 ∈ x.target.copies ∧
      x.target.tables.getCapioFdOffset 3 ≠ some x.target.file.offset))) (by decide)
  obtain ⟨x, hx, hp⟩ := List.any_eq_true.mp hp
  obtain ⟨hmem, hne⟩ := of_decide_eq_true hp
  exact hne (hall ts s hrun x hx 3 hmem)

end Session
end Capio.Posix
