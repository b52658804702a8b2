import Capio.Library.Numeral
import Capio.Library.SharedMemory
import Capio.Posix.OffsetTracking

/-! The snapshot of the descriptor tables that a process leaves in shared memory at
`execve`, and how the new image reads it. -/
namespace Capio.Posix
open Library DescriptorTables

/-- What the segments of a snapshot hold. -/
inductive Segment where
  | fds (entries : List Int)
  | file (fd : Int) (offset : Nat) (isCloexec : Bool)
  | path (text : CString)

abbrev SnapshotMemory := SharedMemory CString Segment

def snapshotName (tid : Int) : CString := "capio_snapshot_".toList ++ intText tid

def snapshotFileName (tid fd : Int) : CString := snapshotName tid ++ '_' :: intText fd

def snapshotPathName (tid fd : Int) : CString :=
  "capio_snapshot_path_".toList ++ intText tid ++ '_' :: intText fd

/-- One turn of the loop of `create_snapshot`. -/
def saveFd (tid : Int) (t : DescriptorTables) (m : SnapshotMemory) (fd : Int) : Option SnapshotMemory := do
  let offset ← t.getCapioFdOffset fd
  let file ← t.files.lookup fd
  let m ← m.put (snapshotFileName tid fd) (.file fd offset file.isCloexec)
  let path ← t.getCapioFdPath fd
  m.put (snapshotPathName tid fd) (.path path)

/-- The index is written entry by entry, with nobody reading it meanwhile. -/
def createSnapshot (tid : Int) (m : SnapshotMemory) (t : DescriptorTables) : Option SnapshotMemory :=
  if t.files.keys = [] then some m
  else do
    let m ← m.put (snapshotName tid) (.fds (t.files.keys ++ [-1]))
    t.files.keys.foldlM (saveFd tid t) m

/-- One turn of the loop of `initialize_from_snapshot`. -/
def restoreFd (tid : Int) (m : SnapshotMemory) (t : DescriptorTables) (fd : Int) :
    Option (SnapshotMemory × DescriptorTables) := do
  let (pathShm, m) ← m.attach (snapshotPathName tid fd)
  let m := m.unmap pathShm
  let m ← m.unlink (snapshotPathName tid fd)
  let (pShm, m) ← m.attach (snapshotFileName tid fd)
  -- `path_shm` is read here, after its `munmap`
  let .path path ← m.load pathShm | none
  let .file _ offset isCloexec ← m.load pShm | none
  let t ← t.addCapioFd path fd offset isCloexec
  let m ← (m.unmap pShm).unlink (snapshotFileName tid fd)
  some (m, t)

/-- The loop up to the sentinel. Without one it reads past the segment. -/
def restoreFds (tid : Int) : List Int → SnapshotMemory → DescriptorTables →
    Option (SnapshotMemory × DescriptorTables)
  | [], _, _ => none
  | fd :: fds, m, t =>
    if fd = -1 then some (m, t)
    else do
      let (m, t) ← restoreFd tid m t fd
      restoreFds tid fds m t

def initializeFromSnapshot (tid : Int) (m : SnapshotMemory) (fdShm : Nat) (t : DescriptorTables) :
    Option (SnapshotMemory × DescriptorTables) := do
  let .fds entries ← m.load fdShm | none
  let (m, t) ← restoreFds tid entries m t
  let m ← m.unlink (snapshotName tid)
  some (m, t)

/-- The tables that `init` of the library sets up in a new image. -/
def init (tid : Int) (m : SnapshotMemory) : Option (SnapshotMemory × DescriptorTables) :=
  match m.attach (snapshotName tid) with
  | none => some (m, initFilesystem)
  | some (fdShm, m) => initializeFromSnapshot tid m fdShm initFilesystem

/-- An `execve` that succeeds: the snapshot of the old image, read by the new one. -/
def execve (tid : Int) (m : SnapshotMemory) (t : DescriptorTables) :
    Option (SnapshotMemory × DescriptorTables) := do
  let m ← createSnapshot tid m t
  init tid m.newImage

/-- An `execve` with the tables at that time. A failing one returns to the old image. -/
structure Attempt where
  tables : DescriptorTables
  succeeds : Bool

def attempt (tid : Int) (m : SnapshotMemory) (a : Attempt) : Option SnapshotMemory :=
  if a.succeeds then (execve tid m a.tables).map Prod.fst else createSnapshot tid m a.tables

/-- The new tables hold the descriptors that stay open, with their paths, offsets
and shared offsets. -/
structure RoundTrip (t t' : DescriptorTables) : Prop where
  kept : ∀ fd, fd ∈ t'.files ↔ ∃ file, t.files.lookup fd = some file ∧ file.isCloexec = false
  path : ∀ fd ∈ t'.files, t'.getCapioFdPath fd = t.getCapioFdPath fd
  offset : ∀ fd ∈ t'.files, t'.getCapioFdOffset fd = t.getCapioFdOffset fd
  shared : ∀ fd ∈ t'.files, ∀ i ∈ t'.files, t.SharesOffset fd i → t'.SharesOffset fd i

variable {tid fd : Int} {m m' : SnapshotMemory} {t t' : DescriptorTables}

/-- The path of a descriptor is read from memory that is not mapped any more. -/
theorem restoreFd_fails (tid : Int) (m : SnapshotMemory) (t : DescriptorTables) (fd : Int) :
    restoreFd tid m t fd = none := by
  rw [← Option.not_isSome_iff_eq_none, Option.isSome_iff_exists]
  rintro ⟨r, h⟩
  obtain ⟨⟨pathShm, m₁⟩, hpath, h⟩ := Option.bind_eq_some_iff.mp h
  obtain ⟨m₂, hunlink, h⟩ := Option.bind_eq_some_iff.mp h
  obtain ⟨⟨pShm, m₃⟩, hfile, h⟩ := Option.bind_eq_some_iff.mp h
  obtain ⟨segment, hload, _⟩ := Option.bind_eq_some_iff.mp h
  have hgone := SharedMemory.unmapped_attach
    (SharedMemory.unmapped_unlink (SharedMemory.unmapped_unmap hpath) hunlink) hfile
  rw [SharedMemory.load_unmapped hgone] at hload
  cases hload

/-- The index of a snapshot names a descriptor first. -/
def NamesDescriptor : Option Segment → Prop
  | some (.fds (fd :: _)) => fd ≠ -1
  | _ => False

theorem init_fails (h : NamesDescriptor (m.content (snapshotName tid))) : init tid m = none := by
  unfold init
  cases ha : m.attach (snapshotName tid) with
  | none =>
    exfalso
    have hname : m.names.lookup (snapshotName tid) = none := by
      cases hl : m.names.lookup (snapshotName tid) with
      | none => rfl
      | some object => simp [SharedMemory.attach, hl] at ha
    simp [SharedMemory.content, hname, NamesDescriptor] at h
  | some r =>
    obtain ⟨fdShm, m'⟩ := r
    dsimp only
    unfold initializeFromSnapshot
    rw [SharedMemory.load_attach ha]
    cases hc : m.content (snapshotName tid) with
    | none => rfl
    | some segment =>
      rw [hc] at h
      cases segment with
      | fds entries =>
        cases entries with
        | nil => exact h.elim
        | cons fd fds =>
          have hne : fd ≠ -1 := h
          simp only [Option.bind_eq_bind, Option.bind_some, restoreFds, if_neg hne, restoreFd_fails,
            Option.bind_none]
      | _ => rfl

private theorem names_ne (tid fd : Int) :
    snapshotName tid ≠ snapshotFileName tid fd ∧ snapshotName tid ≠ snapshotPathName tid fd := by
  have hshort : ("capio_snapshot_".toList).length = 15 := by decide
  have hlong : ("capio_snapshot_path_".toList).length = 20 := by decide
  unfold snapshotPathName snapshotFileName snapshotName
  generalize intText tid = thread
  generalize intText fd = number
  generalize "capio_snapshot_".toList = short at hshort ⊢
  generalize "capio_snapshot_path_".toList = long at hlong ⊢
  constructor
  · intro h
    have hlen := congrArg List.length h
    simp only [List.length_append, List.length_cons] at hlen
    omega
  · intro h
    have hlen := congrArg List.length h
    simp only [List.length_append, List.length_cons] at hlen
    omega

/-- Saving the descriptors leaves the index alone. -/
private theorem saveFds_index (fds : List Int) (ha : m.Apart)
    (h : fds.foldlM (saveFd tid t) m = some m') : m'.Apart ∧
      m'.names.lookup (snapshotName tid) = m.names.lookup (snapshotName tid) ∧
      m'.content (snapshotName tid) = m.content (snapshotName tid) := by
  induction fds generalizing m with
  | nil =>
    cases h
    exact ⟨ha, rfl, rfl⟩
  | cons fd fds ih =>
    rw [List.foldlM_cons] at h
    obtain ⟨m₂, hsave, h⟩ := Option.bind_eq_some_iff.mp h
    obtain ⟨offset, _, hsave⟩ := Option.bind_eq_some_iff.mp hsave
    obtain ⟨file, _, hsave⟩ := Option.bind_eq_some_iff.mp hsave
    obtain ⟨m₁, hfile, hsave⟩ := Option.bind_eq_some_iff.mp hsave
    obtain ⟨path, _, hpath⟩ := Option.bind_eq_some_iff.mp hsave
    obtain ⟨ha₁, _, hkeep₁⟩ := SharedMemory.put_spec ha hfile
    obtain ⟨ha₂, _, hkeep₂⟩ := SharedMemory.put_spec ha₁ hpath
    obtain ⟨hname₁, hcontent₁⟩ := hkeep₁ _ (names_ne tid fd).1
    obtain ⟨hname₂, hcontent₂⟩ := hkeep₂ _ (names_ne tid fd).2
    obtain ⟨ha', hname, hcontent⟩ := ih ha₂ h
    exact ⟨ha', by rw [hname, hname₂, hname₁], by rw [hcontent, hcontent₂, hcontent₁]⟩

/-- A snapshot of tracked descriptors leaves an index that names one. -/
private theorem createSnapshot_spec (ha : m.Apart) (hne : t.files.keys ≠ []) (hneg : -1 ∉ t.files)
    (h : createSnapshot tid m t = some m') :
    m'.Apart ∧ NamesDescriptor (m'.content (snapshotName tid)) := by
  unfold createSnapshot at h
  rw [if_neg hne] at h
  obtain ⟨m₁, hput, h⟩ := Option.bind_eq_some_iff.mp h
  obtain ⟨ha₁, hindex, _⟩ := SharedMemory.put_spec ha hput
  obtain ⟨ha', _, hcontent⟩ := saveFds_index _ ha₁ h
  refine ⟨ha', ?_⟩
  rw [hcontent, hindex]
  cases hkeys : t.files.keys with
  | nil => exact absurd hkeys hne
  | cons fd fds =>
    rintro rfl
    exact hneg (AList.mem_keys.mpr (by rw [hkeys]; exact List.mem_cons_self))

/-- A snapshot of tracked descriptors is never read to its end. -/
private theorem execve_fails (ha : m.Apart) (hne : t.files.keys ≠ []) (hneg : -1 ∉ t.files) :
    execve tid m t = none := by
  unfold execve
  cases hs : createSnapshot tid m t with
  | none => rfl
  | some m₁ =>
    obtain ⟨_, hfirst⟩ := createSnapshot_spec ha hne hneg hs
    exact init_fails (m := m₁.newImage) hfirst

/-- A process that has survived earlier attempts finds the index of a snapshot
exactly when a descriptor was tracked at one of them. -/
private structure Left (tid : Int) (history : List Attempt) (m : SnapshotMemory) : Prop where
  apart : m.Apart
  index : (m.names.lookup (snapshotName tid) = none ∧ ∀ a ∈ history, a.tables.files.keys = []) ∨
    NamesDescriptor (m.content (snapshotName tid)) ∧ ∃ a ∈ history, a.tables.files.keys ≠ []

private theorem init_empty (h : m.names.lookup (snapshotName tid) = none) :
    init tid m = some (m, initFilesystem) := by
  unfold init SharedMemory.attach
  rw [h]
  rfl

private theorem left_attempt {history : List Attempt} {a : Attempt} (hl : Left tid history m)
    (hneg : -1 ∉ a.tables.files) (h : attempt tid m a = some m') : Left tid (history ++ [a]) m' := by
  have hsnapshot {m₁ : SnapshotMemory} (hs : createSnapshot tid m a.tables = some m₁) :
      Left tid (history ++ [a]) m₁ := by
    by_cases hkeys : a.tables.files.keys = []
    · unfold createSnapshot at hs
      rw [if_pos hkeys] at hs
      cases hs
      refine ⟨hl.apart, hl.index.imp ?_ ?_⟩
      · rintro ⟨hname, hall⟩
        exact ⟨hname, List.forall_mem_append.mpr ⟨hall, List.forall_mem_singleton.mpr hkeys⟩⟩
      · rintro ⟨hindex, b, hb, hne⟩
        exact ⟨hindex, b, List.mem_append_left _ hb, hne⟩
    · obtain ⟨hapart, hindex⟩ := createSnapshot_spec hl.apart hkeys hneg hs
      exact ⟨hapart, .inr ⟨hindex, a, by simp, hkeys⟩⟩
  unfold attempt at h
  split_ifs at h with hsucceeds
  · obtain ⟨⟨m₂, t₂⟩, hexec, he⟩ := Option.map_eq_some_iff.mp h
    cases he
    obtain ⟨m₁, hs, hinit⟩ := Option.bind_eq_some_iff.mp hexec
    obtain ⟨hapart, ⟨hname, hall⟩ | ⟨hindex, _⟩⟩ := hsnapshot hs
    · rw [init_empty (m := m₁.newImage) hname] at hinit
      cases hinit
      exact ⟨hapart, .inl ⟨hname, hall⟩⟩
    · rw [init_fails (m := m₁.newImage) hindex] at hinit
      cases hinit
  · exact hsnapshot h

private theorem left_history (history : List Attempt) (hm : m.Apart)
    (hname : m.names.lookup (snapshotName tid) = none) (hneg : ∀ a ∈ history, -1 ∉ a.tables.files)
    (h : history.foldlM (attempt tid) m = some m') : Left tid history m' := by
  induction history using List.reverseRecOn generalizing m' with
  | nil =>
    cases h
    exact ⟨hm, .inl ⟨hname, fun a ha => absurd ha List.not_mem_nil⟩⟩
  | append_singleton history a ih =>
    rw [List.foldlM_append] at h
    obtain ⟨m₁, hprefix, h⟩ := Option.bind_eq_some_iff.mp h
    obtain ⟨m₂, hlast, h⟩ := Option.bind_eq_some_iff.mp h
    cases h
    rw [List.forall_mem_append, List.forall_mem_singleton] at hneg
    exact left_attempt (ih hneg.1 hprefix) hneg.2 hlast

/-- After any history of attempts that the process survived, the snapshot carries the
tables over to the new image exactly when nothing is tracked now and nothing was at
an earlier attempt. -/
theorem snapshot_round_trip_iff {history : List Attempt} (hm : m.Apart)
    (hname : snapshotName tid ∉ m.names) (hneg : ∀ a ∈ history, -1 ∉ a.tables.files)
    (hnow : -1 ∉ t.files) (h : history.foldlM (attempt tid) m = some m') :
    (∃ m'' t', execve tid m' t = some (m'', t') ∧ RoundTrip t t') ↔
      t.files.keys = [] ∧ ∀ a ∈ history, a.tables.files.keys = [] := by
  obtain ⟨hapart, hindex⟩ := left_history history hm (AList.lookup_eq_none.mpr hname) hneg h
  constructor
  · rintro ⟨m'', t', hexec, _⟩
    have hkeys : t.files.keys = [] := by
      by_contra hne
      rw [execve_fails hapart hne hnow] at hexec
      cases hexec
    refine ⟨hkeys, ?_⟩
    obtain ⟨m₁, hs, hinit⟩ := Option.bind_eq_some_iff.mp hexec
    unfold createSnapshot at hs
    rw [if_pos hkeys] at hs
    cases hs
    rcases hindex with ⟨_, hall⟩ | ⟨hfirst, _⟩
    · exact hall
    · rw [init_fails (m := m'.newImage) hfirst] at hinit
      cases hinit
  · rintro ⟨hkeys, hall⟩
    have habsent : m'.names.lookup (snapshotName tid) = none := by
      rcases hindex with ⟨hn, _⟩ | ⟨_, a, ha, hne⟩
      · exact hn
      · exact absurd (hall a ha) hne
    have hnone (fd : Int) : t.files.lookup fd = none := by
      rw [AList.lookup_eq_none, AList.mem_keys, hkeys]
      exact List.not_mem_nil
    refine ⟨m'.newImage, initFilesystem, ?_, ?_⟩
    · unfold execve createSnapshot
      rw [if_pos hkeys]
      exact init_empty (m := m'.newImage) habsent
    · constructor
      · intro fd
        rw [hnone]
        exact iff_of_false (AList.notMem_empty fd) (fun ⟨_, hf, _⟩ => nomatch hf)
      all_goals exact fun fd hfd => absurd hfd (AList.notMem_empty fd)

/-- No segment has been created yet. -/
def noSegments : SnapshotMemory := ⟨∅, [], []⟩

/-- A failed and a successful `execve` with nothing open, then another one. -/
theorem snapshot_round_trip_iff_nothingOpen : ∃ m, [⟨initFilesystem, false⟩, ⟨initFilesystem, true⟩].foldlM
    (attempt 7) noSegments = some m ∧
      ∃ m' t', execve 7 m initFilesystem = some (m', t') ∧ RoundTrip initFilesystem t' := by
  have hempty : -1 ∉ initFilesystem.files := AList.notMem_empty (-1)
  have hhistory : [⟨initFilesystem, false⟩, ⟨initFilesystem, true⟩].foldlM (attempt 7) noSegments =
      some noSegments := rfl
  refine ⟨noSegments, hhistory, (snapshot_round_trip_iff ?_ (AList.notMem_empty _) ?_ hempty hhistory).mpr ?_⟩
  · exact fun name object h => nomatch h
  · simpa using hempty
  · exact ⟨rfl, by simp [initFilesystem]⟩

/-- One file is open: the new image reads its path after the `munmap`. -/
theorem open_file_lost : ¬ ∀ t : DescriptorTables, -1 ∉ t.files →
    ∃ m t', execve 7 noSegments t = some (m, t') ∧ RoundTrip t t' := by
  intro hall
  obtain ⟨m, t', hexec, _⟩ := hall Session.opened (by decide)
  have hapart : noSegments.Apart := fun name object h => nomatch h
  rw [execve_fails hapart (by decide) (by decide)] at hexec
  cases hexec

end Capio.Posix
