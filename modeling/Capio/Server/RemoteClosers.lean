import Capio.Server.ClosingReaders
import Capio.Server.DocumentRules
import Capio.Server.LockProgress
import Capio.Server.MonitorScans

/-! A reader on one node and the servers of other nodes that close its file: the close counts that
they write under the lock file, and the monitor that looks at them. -/
namespace Capio.Server.System
open Library CapioServer Metadata

variable {env : Env} {engine : CapioCLEngine} {fs files : FileSystem} {path : CString} {tid : Tid}
  {ι : Type} [DecidableEq ι]

/-- The closes that a run has begun by some time, it has begun later too. -/
theorem begunIn_mono {s : Metadata ι} (q : Unending (Metadata.Step env) s) (tk : CString) {m n : Nat} (h : m ≤ n) :
    begunIn env tk (q.upTo m) ≤ begunIn env tk (q.upTo n) := by
  apply List.Sublist.countP_le
  apply List.Sublist.map
  exact List.range_sublist.mpr h

variable [Fintype ι]

/-- The file, and the token after one close. -/
def closedElsewhere : FileSystem := ⟨fun p =>
  if p = "/c/f".toList then some (.file []) else
    if p = Metadata.token ⟨"/c".toList, none⟩ "/c/f".toList then some (.file (printCount 1)) else none⟩

/-- A reader waits for a file that another node has not closed yet. -/
def remoteReader : List Action :=
  [.request (.handshakeNamed 2 2 "r".toList), .call, .request (.read "/c/f".toList 2 3 100), .call]

/-- The close is seen, and the monitor looks at the file. -/
def closeSeen : List Action := .environment closedElsewhere :: List.replicate 5 .monitor

/-- What is seen of the close. -/
def seen (fs : FileSystem) : Bool :=
  fs.fileExists "/c/f".toList && !fs.isDirectory "/c/f".toList &&
    decide (tokenCount fs (Metadata.token ⟨"/c".toList, none⟩ "/c/f".toList) = 1)

theorem remoteReader_goes_on : ∃ (r : Unending Step (boot ⟨"/c".toList, none⟩ closedOnce ⟨fun _ => none⟩)) (n k : Nat),
    ((r.state n).server.waitingData "/c/f".toList 2).isSome ∧
    ∀ m, (r.label (m + k)).action = .monitor ∧ seen (r.state (m + k)).fs = true := by
  let answered (_ : Trace) (u : System) : Bool :=
    u.server.fileManager.threadAwaitingFileCreation.entries.isEmpty &&
      u.server.fileManager.threadAwaitingData.entries.isEmpty && decide (u.monitor = .start) && seen u.fs
  obtain ⟨ts, s, hrun, _, hs⟩ := execute_any step (boot ⟨"/c".toList, none⟩ closedOnce ⟨fun _ => none⟩) remoteReader
    (fun _ s => (s.server.waitingData "/c/f".toList 2).isSome &&
      (execute step s closeSeen).any fun r => answered r.1 r.2) (by decide)
  obtain ⟨hwaits, hs⟩ := Bool.and_eq_true_iff.mp hs
  obtain ⟨us, u, hclose, _, hu⟩ := execute_any step s closeSeen answered hs
  simp only [answered, Bool.and_eq_true, decide_eq_true_eq, List.isEmpty_iff] at hu
  obtain ⟨⟨⟨hcreation, hdata⟩, hmonitor⟩, hseen⟩ := hu
  -- nobody waits any more, and the monitor goes round for ever
  have hgoes (u : System) (hi : OnlyOpeners u ∧ seen u.fs = true) : ∃ (e : Event) (t : System),
      e.action = .monitor ∧ Step u e t ∧ OnlyOpeners t ∧ seen t.fs = true := by
    obtain ⟨t, out, hstep, hsame, hafter⟩ := onlyOpeners_goes hi.1
    exact ⟨⟨.monitor, out⟩, t, rfl, hstep, hafter, hsame ▸ hi.2⟩
  have hnobody : OnlyOpeners u := by
    refine ⟨fun path tid hw => ?_, AList.ext hdata, by rw [hmonitor]; trivial⟩
    have hnone : u.server.fileManager.threadAwaitingFileCreation = ∅ := AList.ext hcreation
    rw [waitingCreation, hnone] at hw
    cases hw
  obtain ⟨tail, htail⟩ := Unending.exists_of _ _ hgoes ⟨hnobody, hseen⟩
  obtain ⟨later, hlater, _⟩ := tail.exists_after hclose
  obtain ⟨r, hr, _⟩ := later.exists_after hrun
  refine ⟨r, ts.length, us.length + ts.length, ?_, fun m => ?_⟩
  · have hstate : r.state (0 + ts.length) = later.state 0 := congrArg Transition.source (hr 0)
    rw [Nat.zero_add, later.starts] at hstate
    rw [hstate]
    exact hwaits
  · have hsame : r.transition (m + us.length + ts.length) = tail.transition m := (hr _).trans (hlater m)
    have hstate : r.state (m + us.length + ts.length) = tail.state m := congrArg Transition.source hsame
    have hlabel : r.label (m + us.length + ts.length) = tail.label m := congrArg Transition.label hsame
    rw [← Nat.add_assoc, hstate, hlabel]
    exact ⟨(htail m).2, (htail m).1.2⟩

end Capio.Server.System
