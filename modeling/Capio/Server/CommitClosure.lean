import Capio.Server.CommitRecursion
import Capio.Server.DependencyOrder
import Capio.Server.MissingDirectories
import Capio.Server.TokensInPlace

/-! The commit rule `on_file` without cycles: a path is committed when everything that its
dependencies lead to is committed by its own rule, unless the directories that are made for the
tokens get in the way. -/
namespace Capio.Server
open Library FileSystem CapioCLEngine Metadata Evaluation

/-- Committed by its own rule: enough entries, enough closes or a token. -/
def CommittedAlone (env : Env) (engine : CapioCLEngine) (fs : FileSystem) (path : CString) : Prop :=
  (∀ entries, fs.node path = some (.directory entries) →
      engine.getDirectoryFileCount path ≤ (countEntries entries : Int)) ∧
    (fs.isDirectory path = false →
      fs.fileExists (metadataToken env path) = true ∧
        (engine.getCommitRule path = capioFileCommittedOnClose →
          engine.getCommitCloseCount path = -1 ∨ engine.getCommitCloseCount path ≤
            tokenCount fs (metadataToken env path)))

/-- Everything that the path leads to and that does not commit on others is committed. -/
def ClosureCommitted (env : Env) (engine : CapioCLEngine) (fs : FileSystem) (path : CString) : Prop :=
  ∀ q, Reaches engine fs path q →
    (fs.isDirectory q = true ∨ engine.getCommitRule q ≠ capioFileCommittedOnFile) →
    CommittedAlone env engine fs q

/-- Tokens are added, counts grow, entries appear, and no path becomes a directory or ceases to
be one. -/
structure Grown (env : Env) (fs fs' : FileSystem) : Prop where
  kinds : ∀ path, fs'.isDirectory path = fs.isDirectory path
  entries : ∀ path entries entries', fs.node path = some (.directory entries) →
    fs'.node path = some (.directory entries') → entries.Subperm entries'
  tokens : ∀ path, fs.fileExists (metadataToken env path) = true →
    fs'.fileExists (metadataToken env path) = true
  counts : ∀ path, fs.fileExists (metadataToken env path) = true →
    tokenCount fs (metadataToken env path) ≤
      tokenCount fs' (metadataToken env path)

/-- None of the paths that are reached is made a directory. -/
def KindsKept (env : Env) (engine : CapioCLEngine) (fs : FileSystem) (path : CString) : Prop :=
  ∀ q, Reaches engine fs path q → ¬ MadeBelow env engine fs path q

/-- A state in which some of the directories for the tokens have been made. -/
abbrev Underway (env : Env) (engine : CapioCLEngine) (fs : FileSystem) (path : CString) (hs : FileSystem) : Prop :=
  Grows (MadeBelow env engine fs path) fs hs

/-- The directories that are made for the tokens do not decide the answer: all of them can be made,
none is a path that is looked at, and where something is not committed, something is not that they
do not touch. -/
structure Steady (env : Env) (engine : CapioCLEngine) (fs : FileSystem) (path : CString) : Prop where
  makeable : ∀ q, Reaches engine fs path q → fs.isDirectory q = false → Makeable env fs q
  kinds : KindsKept env engine fs path
  commits : ClosureCommitted env engine fs path ∨ ∃ q, Reaches engine fs path q ∧
    (fs.isDirectory q = true ∨ engine.getCommitRule q ≠ capioFileCommittedOnFile) ∧
    ¬ CommittedAlone env engine fs q ∧ ∀ m, MadeBelow env engine fs path m → Untouched env engine fs q m

/-- In every order of the dependencies, and however often each is named, an answer comes and is the
closure. -/
def AnswersClosure (env : Env) (engine : CapioCLEngine) (fs : FileSystem) (path : CString) : Prop :=
  ∀ engine', SameUpToRepetition engine engine' → ∃ committed, Answers env engine' fs path committed ∧
    (committed = true ↔ ClosureCommitted env engine fs path)

/-- The directories made for the tokens are none of the paths that are looked at, and lie in none. -/
def MadeApart (env : Env) (engine : CapioCLEngine) (fs : FileSystem) (path : CString) : Prop :=
  ∀ q m, Reaches engine fs path q → MadeBelow env engine fs path m → q ≠ m ∧ StdPath.parentPath m ≠ q

/-- At most one path still lacks something of its own. -/
def AllButOne (env : Env) (engine : CapioCLEngine) (fs : FileSystem) (path : CString) : Prop :=
  ∃ q, ∀ r, Reaches engine fs path r → r ≠ q →
    (fs.isDirectory r = true ∨ engine.getCommitRule r ≠ capioFileCommittedOnFile) → CommittedAlone env engine fs r

variable {env : Env} {engine engine' : CapioCLEngine} {fs fs' hs gs : FileSystem} {path q m : CString}

/-! ### The commit state of the files as they are -/

/-- A path decides against its commit exactly when its own rule does. -/
theorem ownAnswer_ne_false_iff : ownAnswer env engine fs path ≠ some false ↔
    (fs.isDirectory path = true ∨ engine.getCommitRule path ≠ capioFileCommittedOnFile →
      CommittedAlone env engine fs path) := by
  unfold ownAnswer CommittedAlone
  cases hdir : fs.isDirectory path with
  | true =>
    obtain ⟨entries, hn⟩ := FileSystem.isDirectory_iff.mp hdir
    rw [if_neg (by simp), isCommittedWithin_directory hn, hn]
    simp
  | false =>
    have hnot : ∀ entries, fs.node path ≠ some (.directory entries) := by
      intro entries hn
      rw [FileSystem.isDirectory, hn] at hdir
      cases hdir
    by_cases hfile : engine.getCommitRule path = capioFileCommittedOnFile
    · simp [hfile]
    · rw [if_neg (by simp [hfile])]
      by_cases hclose : engine.getCommitRule path = capioFileCommittedOnClose
      · rw [isCommittedWithin_onClose hdir hclose]
        simp only [ne_eq, Option.some.injEq, Bool.not_eq_false, Bool.and_eq_true, Bool.or_eq_true,
          decide_eq_true_eq, hclose, hnot, false_imp_iff, implies_true, true_and, true_imp_iff]
        exact ⟨fun h _ => h, fun h => h (Or.inr (by decide))⟩
      · rw [isCommittedWithin_other hdir hfile hclose]
        simp [hnot, hfile, hclose]

theorem reaches_iff : Reaches engine fs path q ↔
    RestsOn (ownAnswer env engine fs) engine.getFileDeps path q := by
  constructor
  · intro h
    induction h with
    | refl path => exact .refl
    | dep hdir hrule hmem _ ih => exact .head ((recurses_iff _ _).mpr ⟨⟨hdir, hrule⟩, hmem⟩) ih
  · intro h
    induction h using Relation.ReflTransGen.head_induction_on with
    | refl => exact .refl q
    | head hstep _ ih =>
      obtain ⟨⟨hdir, hrule⟩, hmem⟩ := (recurses_iff _ _).mp hstep
      exact .dep hdir hrule hmem ih

/-- Only paths with an entry recurse. -/
theorem mem_keys_of_recurses (a : CString) (ha : ownAnswer env engine fs a = none) :
    a ∈ engine.locations.keys := by
  by_contra hnot
  have hdefault : engine.getCommitRule a = capioFileCommittedOnTermination := by
    rw [← AList.mem_keys, ← AList.lookup_eq_none] at hnot
    rw [getCommitRule, hnot]
  have hother : ¬ (fs.isDirectory a = false ∧ engine.getCommitRule a = capioFileCommittedOnFile) :=
    fun h => absurd (hdefault.symm.trans h.2) (by decide)
  obtain ⟨committed, hown, _⟩ := ownAnswer_own hother
  rw [ha] at hown
  cases hown

/-- The recursion ends within the depth of `isCommitted`. -/
theorem isCommitted_ends (hacyclic : engine.AcyclicDeps) :
    isCommitted env engine fs path ≠ none := by
  have hrule (a b : CString) (h : Recurses (ownAnswer env engine fs) engine.getFileDeps a b) :
      engine.CommitsOn a b := by
    obtain ⟨⟨_, hr⟩, hmem⟩ := (recurses_iff a b).mp h
    exact ⟨hr, hmem⟩
  rw [isCommitted, isCommittedWithin_eq]
  exact holdsWithin_ne_none mem_keys_of_recurses
    fun a _ hcycle => hacyclic a (Relation.TransGen.mono hrule _ _ hcycle)

theorem isCommitted_iff_closure (hacyclic : engine.AcyclicDeps) :
    isCommitted env engine fs path = some true ↔ ClosureCommitted env engine fs path := by
  have hends : isCommitted env engine fs path ≠ none := isCommitted_ends hacyclic
  rw [isCommitted, isCommittedWithin_eq] at hends ⊢
  rw [holdsWithin_eq_true_iff hends]
  simp only [← reaches_iff, ownAnswer_ne_false_iff]
  rfl

/-! ### What the closure depends on -/

theorem committedAlone_congr (hsame : SameUpToRepetition engine engine') :
    CommittedAlone env engine' fs q ↔ CommittedAlone env engine fs q := by
  unfold CommittedAlone
  rw [hsame.fileCount, hsame.commitRule, hsame.closeCount]

theorem closureCommitted_congr (hsame : SameUpToRepetition engine engine')
    (h : ClosureCommitted env engine fs path) : ClosureCommitted env engine' fs path := by
  intro q hq hown
  rw [hsame.commitRule] at hown
  have halone := h q (reaches_congr hsame.symm hq) hown
  unfold CommittedAlone at halone ⊢
  rw [hsame.fileCount, hsame.commitRule, hsame.closeCount]
  exact halone

theorem countEntries_mono {entries entries' : List CString} (h : entries.Subperm entries') :
    countEntries entries ≤ countEntries entries' :=
  (h.filter _).length_le

/-- The kinds of paths decide which dependencies are followed. -/
theorem reaches_grown (hgrown : Grown env fs fs') (h : Reaches engine fs' path q) :
    Reaches engine fs path q := by
  induction h with
  | refl path => exact .refl path
  | dep hdir hrule hmem _ ih => exact .dep ((hgrown.kinds _).symm.trans hdir) hrule hmem ih

theorem committedAlone_grown (hgrown : Grown env fs fs') (h : CommittedAlone env engine fs q) :
    CommittedAlone env engine fs' q := by
  obtain ⟨hentries, htoken⟩ := h
  refine ⟨fun entries' hnode' => ?_, fun hdir' => ?_⟩
  · have hdir' : fs'.isDirectory q = true := FileSystem.isDirectory_iff.mpr ⟨entries', hnode'⟩
    obtain ⟨entries, hnode⟩ := FileSystem.isDirectory_iff.mp ((hgrown.kinds q).symm.trans hdir')
    have hle := countEntries_mono (hgrown.entries q entries entries' hnode hnode')
    have hcount := hentries entries hnode
    omega
  · obtain ⟨hexists, hclosed⟩ := htoken ((hgrown.kinds q).symm.trans hdir')
    refine ⟨hgrown.tokens q hexists, fun hrule => ?_⟩
    exact (hclosed hrule).imp_right fun hcount => hcount.trans (hgrown.counts q hexists)

theorem closureCommitted_grown (hgrown : Grown env fs fs')
    (h : ClosureCommitted env engine fs path) : ClosureCommitted env engine fs' path := by
  intro q hq hown
  rw [hgrown.kinds] at hown
  exact committedAlone_grown hgrown (h q (reaches_grown hgrown hq) hown)

theorem madeBelow_congr (hsame : SameUpToRepetition engine engine') {m : CString}
    (h : MadeBelow env engine' fs path m) : MadeBelow env engine fs path m := by
  obtain ⟨q, hq, hdir, hm⟩ := h
  exact ⟨q, reaches_congr hsame.symm hq, hdir, hm⟩

theorem untouched_congr (hsame : SameUpToRepetition engine engine') (h : Untouched env engine fs q m) :
    Untouched env engine' fs q m where
  kind := h.kind
  token := by
    rw [hsame.commitRule, hsame.closeCount]
    exact h.token
  entries := by
    rw [hsame.fileCount]
    exact h.entries

theorem kindsKept_congr (hsame : SameUpToRepetition engine engine') (h : KindsKept env engine fs path) :
    KindsKept env engine' fs path := fun q hq hm => h q (reaches_congr hsame.symm hq) (madeBelow_congr hsame hm)

theorem Steady.congr (hsame : SameUpToRepetition engine engine') (h : Steady env engine fs path) :
    Steady env engine' fs path where
  makeable q hq := h.makeable q (reaches_congr hsame.symm hq)
  kinds := kindsKept_congr hsame h.kinds
  commits := by
    rcases h.commits with hclosure | ⟨q, hq, hown, hnot, huntouched⟩
    · exact .inl (closureCommitted_congr hsame hclosure)
    · refine .inr ⟨q, reaches_congr hsame hq, ?_, mt (committedAlone_congr hsame).mp hnot, fun m hm => ?_⟩
      · rw [hsame.commitRule]
        exact hown
      · exact untouched_congr hsame (huntouched m (madeBelow_congr hsame hm))

/-- What is not disturbed is steady. -/
theorem Evaluation.Undisturbed.steady (h : Undisturbed env engine fs path) : Steady env engine fs path where
  makeable := h.makeable
  kinds q hq hm := (h.untouched q q hq hm).kind rfl
  commits := by
    by_cases hclosure : ClosureCommitted env engine fs path
    · exact .inl hclosure
    · unfold ClosureCommitted at hclosure
      push Not at hclosure
      obtain ⟨q, hq, hown, hnot⟩ := hclosure
      exact .inr ⟨q, hq, hown, hnot, fun m hm => h.untouched q m hq hm⟩

/-! ### The evaluation ends -/

theorem KindsKept.isDirectory_eq (h : KindsKept env engine fs path) (hq : Reaches engine fs path q)
    (hgrows : Underway env engine fs path hs) : hs.isDirectory q = fs.isDirectory q :=
  hgrows.isDirectory_eq (h q hq)

/-- What decides by itself is committed in this state, as far as the path leads to it. -/
def ClosureIn (env : Env) (engine : CapioCLEngine) (fs hs : FileSystem) (path : CString) : Prop :=
  ∀ q, Reaches engine fs path q →
    (fs.isDirectory q = true ∨ engine.getCommitRule q ≠ capioFileCommittedOnFile) →
    CommittedAlone env engine hs q

/-- Directories that appear take no commit back. -/
theorem committedAlone_grows {made : CString → Prop} (hgrows : Grows made hs gs)
    (hkind : gs.isDirectory q = hs.isDirectory q) (h : CommittedAlone env engine hs q) :
    CommittedAlone env engine gs q := by
  obtain ⟨hentries, htoken⟩ := h
  refine ⟨fun entries' hn' => ?_, fun hdir' => ?_⟩
  · have hdir : hs.isDirectory q = true := hkind.symm.trans (isDirectory_iff.mpr ⟨entries', hn'⟩)
    obtain ⟨entries, hn⟩ := isDirectory_iff.mp hdir
    obtain ⟨more, hgrown, _⟩ := hgrows.directory q entries hn
    rw [hn', Option.some.injEq, Node.directory.injEq] at hgrown
    have hcount := hentries entries hn
    rw [hgrown, countEntries_append]
    omega
  · obtain ⟨hexists, hclosed⟩ := htoken (hkind.symm.trans hdir')
    refine ⟨hgrows.fileExists hexists, fun hrule => ?_⟩
    rw [tokenCount_grown hgrows]
    exact hclosed hrule

theorem ClosureIn.grows {made : CString → Prop} (h : ClosureIn env engine fs hs q) (hkinds : KindsKept env engine fs path)
    (hq : Reaches engine fs path q) (hhs : Underway env engine fs path hs)
    (hgs : Underway env engine fs path gs) (hgrows : Grows made hs gs) : ClosureIn env engine fs gs q := by
  intro r hr hown
  have hreach := reaches_trans hq hr
  exact committedAlone_grows hgrows
    ((hkinds.isDirectory_eq hreach hgs).trans (hkinds.isDirectory_eq hreach hhs).symm) (h r hr hown)

/-- Within this bound, the evaluation of `q` ends: with a yes in a state in which everything is
committed, or with a no from a state in which something was not. -/
def EndsWithin (env : Env) (engine : CapioCLEngine) (fs : FileSystem) (path q : CString) (depth : Nat) : Prop :=
  ∀ hs, Underway env engine fs path hs →
    ∃ committed gs, Evaluation.isCommittedWithin env engine depth hs q = some (committed, gs) ∧
      Underway env engine fs path gs ∧
      (committed = true → ClosureIn env engine fs gs q) ∧ (committed = false → ¬ ClosureIn env engine fs hs q)

theorem EndsWithin.mono {depth depth' : Nat} (h : EndsWithin env engine fs path q depth) (hle : depth ≤ depth') :
    EndsWithin env engine fs path q depth' := by
  intro hs hgrows
  obtain ⟨committed, gs, heval, hleft⟩ := h hs hgrows
  exact ⟨committed, gs, isCommittedWithin_mono hle heval, hleft⟩

theorem turns_grow {depth : Nat} {files : List CString} {committed : Bool}
    (h : allInTurn (Evaluation.isCommittedWithin env engine depth) hs files = some (committed, gs)) :
    Grows (fun _ => True) hs gs :=
  allInTurn_keeps (Grows.refl _) (fun _ _ _ => Grows.trans) (fun _ _ _ _ hr => isCommittedWithin_grows hr) files h

theorem turns_end {depth : Nat} {files : List CString} (hkinds : KindsKept env engine fs path)
    (hreach : ∀ file ∈ files, Reaches engine fs path file)
    (h : ∀ file ∈ files, EndsWithin env engine fs path file depth) (hgrows : Underway env engine fs path hs) :
    ∃ committed gs, allInTurn (Evaluation.isCommittedWithin env engine depth) hs files = some (committed, gs) ∧
      Underway env engine fs path gs ∧
      (committed = true → ∀ file ∈ files, ClosureIn env engine fs gs file) ∧
      (committed = false → ∃ file ∈ files, ¬ ClosureIn env engine fs hs file) := by
  induction files generalizing hs with
  | nil => exact ⟨true, hs, rfl, hgrows, fun _ _ hfile => absurd hfile List.not_mem_nil, Bool.noConfusion⟩
  | cons file files ih =>
    obtain ⟨hfile, hfiles⟩ := List.forall_mem_cons.mp h
    obtain ⟨hto, htos⟩ := List.forall_mem_cons.mp hreach
    obtain ⟨first, s, heval, hgrows₁, hyes, hno⟩ := hfile hs hgrows
    rw [allInTurn_cons, heval, Option.bind_some]
    cases first with
    | false => exact ⟨false, s, rfl, hgrows₁, Bool.noConfusion, fun _ => ⟨file, List.mem_cons_self, hno rfl⟩⟩
    | true =>
      obtain ⟨committed, gs, hrest, hgrows₂, hyes', hno'⟩ := ih htos hfiles hgrows₁
      refine ⟨committed, gs, hrest, hgrows₂, fun hc => ?_, fun hc => ?_⟩
      · have hfirst := (hyes rfl).grows hkinds hto hgrows₁ hgrows₂ (turns_grow hrest)
        exact List.forall_mem_cons.mpr ⟨hfirst, hyes' hc⟩
      · obtain ⟨other, hother, hnot⟩ := hno' hc
        refine ⟨other, List.mem_cons_of_mem _ hother, fun hclosure => hnot ?_⟩
        exact hclosure.grows hkinds (htos other hother) hgrows hgrows₁ (isCommittedWithin_grows heval)

theorem closureIn_own (hown : fs.isDirectory q = true ∨ engine.getCommitRule q ≠ capioFileCommittedOnFile) :
    ClosureIn env engine fs hs q ↔ CommittedAlone env engine hs q := by
  constructor
  · intro h
    exact h q (.refl q) hown
  · intro h r hr _
    cases hr with
    | refl => exact h
    | dep hdir hrule _ _ =>
      rcases hown with hd | hne
      · rw [hdir] at hd
        cases hd
      · exact absurd hrule hne

theorem closureIn_onFile (hdir : fs.isDirectory q = false) (hrule : engine.getCommitRule q = capioFileCommittedOnFile) :
    ClosureIn env engine fs hs q ↔ ∀ file ∈ engine.getFileDeps q, ClosureIn env engine fs hs file := by
  constructor
  · intro h file hfile r hr
    exact h r (.dep hdir hrule hfile hr)
  · intro h r hr hown
    cases hr with
    | refl =>
      rcases hown with hd | hne
      · rw [hdir] at hd
        cases hd
      · exact absurd hrule hne
    | @dep _ file _ _ _ hfile hrest => exact h file hfile r hrest hown

/-- With the token's directories made, it remains to ask the dependencies or the token. -/
theorem ends_made {depth : Nat} {token : CString} (hq : Reaches engine fs path q) (hdir : fs.isDirectory q = false)
    (hkinds : KindsKept env engine fs path) (hdeps : ∀ file ∈ engine.getFileDeps q,
      engine.getCommitRule q = capioFileCommittedOnFile → EndsWithin env engine fs path file depth)
    (hgrows : Underway env engine fs path hs) (hgrows' : Underway env engine fs path gs)
    (hmade : getAndCreateMetadataPath env hs q = some (token, gs)) :
    ∃ committed gs', Evaluation.isCommittedWithin env engine (depth + 1) hs q = some (committed, gs') ∧
      Underway env engine fs path gs' ∧ Grows (fun _ => True) gs gs' ∧
      (committed = true → ClosureIn env engine fs gs' q) ∧ (committed = false → ¬ ClosureIn env engine fs gs q) := by
  obtain ⟨rfl, _⟩ := getAndCreateMetadataPath_grows hmade
  rw [Evaluation.isCommittedWithin_file ((hkinds.isDirectory_eq hq hgrows).trans hdir), hmade, Option.bind_some]
  by_cases hrule : engine.getCommitRule q = capioFileCommittedOnFile
  · have hto (file : CString) (hfile : file ∈ engine.getFileDeps q) : Reaches engine fs path file :=
      reaches_trans hq (.dep hdir hrule hfile (.refl file))
    obtain ⟨committed, gs', hturns, hgrows₁, hyes, hno⟩ :=
      turns_end hkinds hto (fun file hfile => hdeps file hfile hrule) hgrows'
    refine ⟨committed, gs', by rw [if_pos hrule]; exact hturns, hgrows₁, turns_grow hturns, fun hc => ?_, fun hc => ?_⟩
    · exact (closureIn_onFile hdir hrule).mpr (hyes hc)
    · obtain ⟨file, hfile, hnot⟩ := hno hc
      exact fun hclosure => hnot ((closureIn_onFile hdir hrule).mp hclosure file hfile)
  · have hdir' := (hkinds.isDirectory_eq hq hgrows').trans hdir
    have hnot (entries : List CString) : gs.node q ≠ some (.directory entries) := by
      intro hn
      rw [isDirectory_iff.mpr ⟨entries, hn⟩] at hdir'
      cases hdir'
    rw [if_neg hrule]
    have hown {hs : FileSystem} : ClosureIn env engine fs hs q ↔ CommittedAlone env engine hs q :=
      closureIn_own (.inr hrule)
    have hanswer : ∃ committed, (if engine.getCommitRule q = capioFileCommittedOnClose then
          some (gs.fileExists (metadataToken env q) && (decide (engine.getCommitCloseCount q = -1) ||
            decide (engine.getCommitCloseCount q ≤ tokenCount gs (metadataToken env q))), gs)
        else some (gs.fileExists (metadataToken env q), gs)) = some (committed, gs) ∧
        (committed = true ↔ CommittedAlone env engine gs q) := by
      by_cases hclose : engine.getCommitRule q = capioFileCommittedOnClose
      · refine ⟨_, if_pos hclose, ?_⟩
        simp [CommittedAlone, hnot, hdir', hclose]
      · refine ⟨_, if_neg hclose, ?_⟩
        simp [CommittedAlone, hnot, hdir', hclose]
    obtain ⟨committed, heval, hiff⟩ := hanswer
    refine ⟨committed, gs, heval, hgrows', .refl _ gs, fun hc => hown.mpr (hiff.mp hc), fun hc hclosure => ?_⟩
    rw [hiff.mpr (hown.mp hclosure)] at hc
    cases hc

theorem exists_ends (hacyclic : engine.AcyclicDeps) (hkinds : KindsKept env engine fs path)
    (hmakeable : ∀ q, Reaches engine fs path q → fs.isDirectory q = false → Makeable env fs q)
    (hq : Reaches engine fs path q) : ∃ depth, EndsWithin env engine fs path q depth := by
  induction q using (wellFounded_commitsOn hacyclic).induction with
  | _ q ih =>
    cases hdir : fs.isDirectory q with
    | true =>
      refine ⟨1, fun hs hgrows => ?_⟩
      obtain ⟨entries, hn⟩ := isDirectory_iff.mp ((hkinds.isDirectory_eq hq hgrows).trans hdir)
      have halone : CommittedAlone env engine hs q ↔ engine.getDirectoryFileCount q ≤ (countEntries entries : Int) := by
        simp [CommittedAlone, hn, FileSystem.isDirectory]
      refine ⟨_, hs, Evaluation.isCommittedWithin_directory hn, hgrows, fun hc => ?_, fun hc hclosure => ?_⟩
      · exact (closureIn_own (.inl hdir)).mpr (halone.mpr (of_decide_eq_true hc))
      · exact of_decide_eq_false hc (halone.mp ((closureIn_own (.inl hdir)).mp hclosure))
    | false =>
      have hdeps : ∀ file ∈ engine.getFileDeps q, ∃ depth,
          engine.getCommitRule q = capioFileCommittedOnFile → EndsWithin env engine fs path file depth := by
        intro file hfile
        by_cases hrule : engine.getCommitRule q = capioFileCommittedOnFile
        · obtain ⟨depth, hends⟩ := ih file ⟨hrule, hfile⟩ (reaches_trans hq (.dep hdir hrule hfile (.refl file)))
          exact ⟨depth, fun _ => hends⟩
        · exact ⟨0, fun hr => absurd hr hrule⟩
      obtain ⟨depth, hdepth⟩ := exists_common_bound (fun _ _ _ hle he hr => (he hr).mono hle) _ hdeps
      refine ⟨depth + 1, fun hs hgrows => ?_⟩
      obtain ⟨gs, hmade, hgrows'⟩ := getAndCreateMetadataPath_grown (hmakeable q hq hdir) hgrows
        fun x hx => ⟨q, hq, hdir, hx⟩
      obtain ⟨committed, gs', heval, hgrows₁, _, hyes, hno⟩ := ends_made hq hdir hkinds hdepth hgrows hgrows' hmade
      refine ⟨committed, gs', heval, hgrows₁, hyes, fun hc hclosure => hno hc ?_⟩
      exact hclosure.grows hkinds hq hgrows hgrows' (getAndCreateMetadataPath_grows hmade).2

theorem committedAlone_untouched {made : CString → Prop}
    (hown : fs.isDirectory q = true ∨ engine.getCommitRule q ≠ capioFileCommittedOnFile)
    (huntouched : ∀ m, made m → Untouched env engine fs q m)
    (hgrows : Grows made fs gs) (h : CommittedAlone env engine gs q) : CommittedAlone env engine fs q := by
  have hkind : gs.isDirectory q = fs.isDirectory q := hgrows.isDirectory_eq fun hm => (huntouched q hm).kind rfl
  refine ⟨fun entries hn => ?_, fun hdir => ?_⟩
  · obtain ⟨more, hn', hmore⟩ := hgrows.directory q entries hn
    refine (fileCount_le_grown (engine.getDirectoryFileCount q) fun name hname => ?_).mp (h.1 _ hn')
    obtain ⟨m, hm, hparent, hfilename⟩ := hmore name hname
    rw [← hfilename]
    exact (huntouched m hm).entries entries hn hparent
  · have hrule := hown.resolve_left (by simp [hdir])
    obtain ⟨hexists, hclosed⟩ := h.2 (hkind.trans hdir)
    by_cases hcounted : engine.getCommitRule q = capioFileCommittedOnClose ∧ 0 < engine.getCommitCloseCount q
    · obtain ⟨hclose, hpos⟩ := hcounted
      have hcount := (hclosed hclose).resolve_left (by omega)
      rw [tokenCount_grown hgrows] at hcount
      refine ⟨?_, fun _ => .inr hcount⟩
      rw [FileSystem.fileExists, Option.isSome_iff_ne_none]
      intro hn
      have hzero : tokenCount fs (metadataToken env q) = 0 := by rw [tokenCount, hn]
      omega
    · have hnot : ¬ made (metadataToken env q) := fun hm => (huntouched _ hm).token hdir hrule
        (fun hclose => not_lt.mp fun hpos => hcounted ⟨hclose, hpos⟩) rfl
      refine ⟨(fileExists_grown hgrows hnot).symm.trans hexists, fun hclose => ?_⟩
      rw [← tokenCount_grown hgrows]
      exact hclosed hclose

theorem Steady.answersClosure (hacyclic : engine.AcyclicDeps) (h : Steady env engine fs path) :
    AnswersClosure env engine fs path := by
  intro engine' hsame
  have h' := h.congr hsame
  obtain ⟨depth, hends⟩ := exists_ends ((acyclicDeps_congr hsame).mpr hacyclic) h'.kinds h'.makeable (.refl path)
  obtain ⟨committed, gs, heval, hgrows, hyes, hno⟩ := hends fs (.refl _ fs)
  refine ⟨committed, ⟨gs, depth, heval⟩, fun hc => ?_, fun hclosure => ?_⟩
  · rcases h'.commits with hclosure | ⟨q, hq, hown, hnot, huntouched⟩
    · exact closureCommitted_congr hsame.symm hclosure
    · exact absurd (committedAlone_untouched hown huntouched hgrows (hyes hc q hq hown)) hnot
  · by_contra hfalse
    exact hno (Bool.eq_false_iff.mpr hfalse) (closureCommitted_congr hsame hclosure)

/-! ### What can come first -/

/-- What comes first throws where its directories cannot be made. -/
theorem blocked_first (hkinds : KindsKept env engine fs path)
    (hfirst : LeadsFirst engine fs fun t => fs.isDirectory t = false ∧ ¬ Makeable env fs t)
    (hq : Reaches engine fs path q) (hleads : LeadsTo engine fs (fun t => fs.isDirectory t = false ∧ ¬ Makeable env fs t) q)
    (hgrows : Underway env engine fs path hs) (depth : Nat) :
    Evaluation.isCommittedWithin env engine depth hs q = none := by
  have hmadeFor (x : CString) (hx : MadeBelow env engine fs path x) : ∃ q, MadeFor env fs q x := by
    obtain ⟨q, _, _, hmade⟩ := hx
    exact ⟨q, hmade⟩
  induction depth generalizing q hs with
  | zero => rfl
  | succ depth ih =>
    by_cases htarget : fs.isDirectory q = false ∧ ¬ Makeable env fs q
    · have hdir := (hkinds.isDirectory_eq hq hgrows).trans htarget.1
      rw [Evaluation.isCommittedWithin_file hdir, getAndCreateMetadataPath_blocked htarget.2 hgrows hmadeFor]
      rfl
    · obtain ⟨hfile, hrule⟩ := hleads.onFile htarget
      have hdir := (hkinds.isDirectory_eq hq hgrows).trans hfile
      have hmakeable : Makeable env fs q := by
        by_contra hnot
        exact htarget ⟨hfile, hnot⟩
      obtain ⟨gs, hmade, hgrows'⟩ := getAndCreateMetadataPath_grown hmakeable hgrows
        fun x hx => ⟨q, hq, hfile, hx⟩
      obtain ⟨first, rest, hdeps, hleads'⟩ := hfirst q htarget hleads
      have hmem : first ∈ engine.getFileDeps q := by
        rw [hdeps]
        exact List.mem_cons_self
      have hnone := ih (reaches_trans hq (.dep hfile hrule hmem (.refl first))) hleads' hgrows'
      rw [Evaluation.isCommittedWithin_file hdir, hmade, Option.bind_some, if_pos hrule, hdeps, allInTurn_cons,
        hnone, Option.bind_none]

/-- All that a file commits on ends within one bound. -/
theorem exists_deps_end (hacyclic : engine.AcyclicDeps) (hkinds : KindsKept env engine fs path)
    (hmakeable : ∀ q, Reaches engine fs path q → fs.isDirectory q = false → Makeable env fs q)
    (hq : Reaches engine fs path q) : ∃ depth, ∀ file ∈ engine.getFileDeps q,
      fs.isDirectory q = false → engine.getCommitRule q = capioFileCommittedOnFile →
        EndsWithin env engine fs path file depth := by
  refine exists_common_bound (fun _ _ _ hle he hd hr => (he hd hr).mono hle) _ fun file hfile => ?_
  by_cases hrec : fs.isDirectory q = false ∧ engine.getCommitRule q = capioFileCommittedOnFile
  · obtain ⟨depth, hends⟩ := exists_ends hacyclic hkinds hmakeable
      (reaches_trans hq (.dep hrec.1 hrec.2 hfile (.refl file)))
    exact ⟨depth, fun _ _ => hends⟩
  · exact ⟨0, fun hd hr => absurd ⟨hd, hr⟩ hrec⟩

/-- Made for a file that the path leads to, and nothing that has this directory above it. -/
def MadeBeside (env : Env) (engine : CapioCLEngine) (fs : FileSystem) (path m x : CString) : Prop :=
  MadeBelow env engine fs path x ∧ ∀ ms, fs.missing x = some ms → m ∉ ms

/-- What makes the directory comes first; where this is all that is missing, the answer is yes. -/
theorem made_first (hacyclic : engine.AcyclicDeps) (hkinds : KindsKept env engine fs path)
    (hmakeable : ∀ q, Reaches engine fs path q → fs.isDirectory q = false → Makeable env fs q)
    (hfirst : LeadsFirst engine fs fun t => fs.isDirectory t = false ∧ MadeFor env fs t m)
    (hall : ∀ hs, Underway env engine fs path hs → hs.isDirectory m = true →
      ClosureIn env engine fs hs path)
    (hq : Reaches engine fs path q)
    (hleads : LeadsTo engine fs (fun t => fs.isDirectory t = false ∧ MadeFor env fs t m) q) :
    ∃ depth, ∀ hs, Grows (MadeBeside env engine fs path m) fs hs →
      ∃ gs, Evaluation.isCommittedWithin env engine depth hs q = some (true, gs) ∧
        Underway env engine fs path gs ∧ gs.isDirectory m = true := by
  have hclosure {hs : FileSystem} {r : CString} (hr : Reaches engine fs path r)
      (hgrows : Underway env engine fs path hs) (hm : hs.isDirectory m = true) :
      ClosureIn env engine fs hs r := fun x hx hown => hall hs hgrows hm x (reaches_trans hr hx) hown
  induction q using (wellFounded_commitsOn hacyclic).induction with
  | _ q ih =>
    obtain ⟨depth, hdepth⟩ := exists_deps_end hacyclic hkinds hmakeable hq
    have hbelow {hs : FileSystem} (h : Grows (MadeBeside env engine fs path m) fs hs) :
        Underway env engine fs path hs := h.mono fun _ => And.left
    by_cases htarget : fs.isDirectory q = false ∧ MadeFor env fs q m
    · obtain ⟨hdir, hm⟩ := htarget
      refine ⟨depth + 1, fun hs hgrows => ?_⟩
      obtain ⟨gs, hmade, hgrows'⟩ := getAndCreateMetadataPath_grown (hmakeable q hq hdir) (hbelow hgrows)
        fun x hx => ⟨q, hq, hdir, hx⟩
      have hthere := getAndCreateMetadataPath_makes (hmakeable q hq hdir) hm hgrows (fun _ hx => hx.2) hmade
      obtain ⟨committed, gs', heval, hgrows₁, hlater, _, hno⟩ := ends_made hq hdir hkinds
        (fun file hfile => hdepth file hfile hdir) (hbelow hgrows) hgrows' hmade
      cases committed with
      | false => exact absurd (hclosure hq hgrows' hthere) (hno rfl)
      | true => exact ⟨gs', heval, hgrows₁, hlater.isDirectory hthere⟩
    · obtain ⟨hdir, hrule⟩ := hleads.onFile htarget
      obtain ⟨first, rest, hlist, hleads'⟩ := hfirst q htarget hleads
      have hmem : first ∈ engine.getFileDeps q := by
        rw [hlist]
        exact List.mem_cons_self
      obtain ⟨depth', hyes⟩ := ih first ⟨hrule, hmem⟩ (reaches_trans hq (.dep hdir hrule hmem (.refl first))) hleads'
      refine ⟨max depth depth' + 1, fun hs hgrows => ?_⟩
      -- nothing above the directory that matters is made before
      obtain ⟨gs, hmade, hgrows'⟩ := getAndCreateMetadataPath_grown (hmakeable q hq hdir) hgrows fun x hx =>
        ⟨⟨q, hq, hdir, hx⟩, fun ms hms hm => htarget ⟨hdir, hx.above hms hm⟩⟩
      obtain ⟨s, heval, hgrows₁, hthere⟩ := hyes gs hgrows'
      have hto (file : CString) (hfile : file ∈ rest) : Reaches engine fs path file := by
        have hmem' : file ∈ engine.getFileDeps q := by
          rw [hlist]
          exact List.mem_cons_of_mem _ hfile
        exact reaches_trans hq (.dep hdir hrule hmem' (.refl file))
      have hends (file : CString) (hfile : file ∈ rest) : EndsWithin env engine fs path file (max depth depth') := by
        refine (hdepth file ?_ hdir hrule).mono (le_max_left _ _)
        rw [hlist]
        exact List.mem_cons_of_mem _ hfile
      obtain ⟨committed, gs', hturns, hgrows₂, _, hno⟩ := turns_end hkinds hto hends hgrows₁
      rw [Evaluation.isCommittedWithin_file ((hkinds.isDirectory_eq hq (hbelow hgrows)).trans hdir), hmade,
        Option.bind_some, if_pos hrule, hlist, allInTurn_cons,
        isCommittedWithin_mono (le_max_right depth depth') heval, Option.bind_some]
      cases committed with
      | false =>
        obtain ⟨file, hfile, hnot⟩ := hno rfl
        exact absurd (hclosure (hto file hfile) hgrows₁ hthere) hnot
      | true => exact ⟨gs', hturns, hgrows₂, (turns_grow hturns).isDirectory hthere⟩

theorem MadeApart.kindsKept (h : MadeApart env engine fs path) : KindsKept env engine fs path :=
  fun q hq hm => (h q q hq hm).1 rfl

theorem makeable_of_answersClosure (hkinds : KindsKept env engine fs path) (h : AnswersClosure env engine fs path)
    (hq : Reaches engine fs path q) (hdir : fs.isDirectory q = false) : Makeable env fs q := by
  by_contra hnot
  obtain ⟨engine', hsame, hfirst⟩ := exists_leadsFirst engine fs fun t => fs.isDirectory t = false ∧ ¬ Makeable env fs t
  obtain ⟨committed, ⟨gs, depth, heval⟩, _⟩ := h engine' hsame
  rw [blocked_first (kindsKept_congr hsame hkinds) hfirst (.refl path) ⟨q, ⟨hdir, hnot⟩, reaches_congr hsame hq⟩
    (.refl _ fs)] at heval
  cases heval

/-- A directory in the place of the token is all that was missing. -/
theorem made_commits (hacyclic : engine.AcyclicDeps) (hkinds : KindsKept env engine fs path)
    (hmakeable : ∀ q, Reaches engine fs path q → fs.isDirectory q = false → Makeable env fs q)
    (hm : MadeBelow env engine fs path m) (hall : ∀ hs, Underway env engine fs path hs →
      hs.isDirectory m = true → ClosureIn env engine fs hs path) (h : AnswersClosure env engine fs path) :
    ClosureCommitted env engine fs path := by
  obtain ⟨t, ht, hdir, hmade⟩ := hm
  obtain ⟨engine', hsame, hfirst⟩ := exists_leadsFirst engine fs fun t => fs.isDirectory t = false ∧ MadeFor env fs t m
  have hbelow (x : CString) (hx : MadeBelow env engine' fs path x) := madeBelow_congr hsame hx
  have hall' (hs : FileSystem) (hgrows : Underway env engine' fs path hs) (hm : hs.isDirectory m = true) :
      ClosureIn env engine' fs hs path := by
    intro r hr hown
    rw [hsame.commitRule] at hown
    exact (committedAlone_congr hsame).mpr (hall hs (hgrows.mono hbelow) hm r (reaches_congr hsame.symm hr) hown)
  obtain ⟨depth, hyes⟩ := made_first ((acyclicDeps_congr hsame).mpr hacyclic) (kindsKept_congr hsame hkinds)
    (fun q hq => hmakeable q (reaches_congr hsame.symm hq)) hfirst hall' (.refl path)
    ⟨t, ⟨hdir, hmade⟩, reaches_congr hsame ht⟩
  obtain ⟨gs, heval, _⟩ := hyes fs (.refl _ fs)
  obtain ⟨committed, hanswer, hiff⟩ := h engine' hsame
  rw [answers_iff heval] at hanswer
  exact hiff.mp hanswer.symm

theorem AnswersClosure.steady (hacyclic : engine.AcyclicDeps) (hapart : MadeApart env engine fs path)
    (hone : AllButOne env engine fs path) (h : AnswersClosure env engine fs path) : Steady env engine fs path := by
  have hkinds := hapart.kindsKept
  have hmakeable (q : CString) (hq : Reaches engine fs path q) (hdir : fs.isDirectory q = false) : Makeable env fs q :=
    makeable_of_answersClosure hkinds h hq hdir
  refine ⟨hmakeable, hkinds, ?_⟩
  by_cases hclosure : ClosureCommitted env engine fs path
  · exact .inl hclosure
  · have hsome := hclosure
    unfold ClosureCommitted at hsome
    push Not at hsome
    obtain ⟨q, hq, hown, hnot⟩ := hsome
    refine .inr ⟨q, hq, hown, hnot, fun m hm => ⟨(hapart q m hq hm).1, fun hdir hrule hclose htoken => ?_,
      fun _ _ hparent => absurd hparent (hapart q m hq hm).2⟩⟩
    -- with the directory in its place everything is committed
    refine hclosure (made_commits hacyclic hkinds hmakeable hm (fun hs hgrows hthere => ?_) h)
    intro r hr hown'
    by_cases hr' : r = q
    · subst hr'
      have hfalse : hs.isDirectory r = false := (hkinds.isDirectory_eq hr hgrows).trans hdir
      refine ⟨fun entries hn => ?_, fun _ => ⟨?_, fun hc => .inr ?_⟩⟩
      · rw [isDirectory_iff.mpr ⟨entries, hn⟩] at hfalse
        cases hfalse
      · obtain ⟨entries, hn⟩ := isDirectory_iff.mp hthere
        rw [htoken, FileSystem.fileExists, hn]
        rfl
      · obtain ⟨entries, hn⟩ := isDirectory_iff.mp hthere
        have hzero : tokenCount hs m = 0 := by rw [tokenCount, hn]
        rw [htoken, hzero]
        exact hclose hc
    · obtain ⟨q', hothers⟩ := hone
      have hq' : q = q' := by
        by_contra hne
        exact hnot (hothers q hq hne hown)
      subst hq'
      exact committedAlone_grows hgrows (hkinds.isDirectory_eq hr hgrows) (hothers r hr hr' hown')

/-- A file that commits on two others, one of them named twice. -/
def restingOnTwo : CapioCLEngine :=
  ⟨(∅ : UnorderedMap CString Location).insert "/c/f".toList { freshLocation defaultRules with
    commitRule := capioFileCommittedOnFile
    fileDependencies := ["/c/g".toList, "/c/h".toList, "/c/g".toList] }⟩

/-- The directory of the workflow with the directories of its tokens, and no tokens yet. -/
def metadataReady : FileSystem :=
  ⟨fun p => if p = "/c".toList then some (.directory [".capio_metadata".toList])
    else if p = "/c/.capio_metadata".toList then some (.directory ["c".toList])
    else if p = "/c/.capio_metadata/c".toList then some (.directory [])
    else none⟩

private theorem restingOnTwo_commitsOn {path dependency : CString}
    (h : restingOnTwo.CommitsOn path dependency) :
    path = "/c/f".toList ∧ dependency ∈ ["/c/g".toList, "/c/h".toList] := by
  obtain ⟨hrule, hmem⟩ := h
  have hpath : path = "/c/f".toList := by
    by_contra hne
    have hnone : restingOnTwo.locations.lookup path = none := by
      rw [restingOnTwo, AList.lookup_insert_ne hne]
      rfl
    rw [getCommitRule, hnone] at hrule
    exact absurd hrule (by decide)
  subst hpath
  have hdeps : restingOnTwo.getFileDeps "/c/f".toList = ["/c/g".toList, "/c/h".toList, "/c/g".toList] := by decide
  rw [hdeps] at hmem
  refine ⟨rfl, ?_⟩
  simp only [List.mem_cons, List.not_mem_nil, or_false] at hmem ⊢
  rcases hmem with h | h | h <;> simp [h]

private theorem restingOnTwo_acyclic : restingOnTwo.AcyclicDeps := by
  apply acyclic_of_one "/c/f".toList
  intro p dependency h
  obtain ⟨hp, hmem⟩ := restingOnTwo_commitsOn h
  refine ⟨hp, ?_⟩
  rintro rfl
  exact absurd hmem (by decide)

private theorem restingOnTwo_inPlace : AllInPlace listingEnv restingOnTwo metadataReady "/c/f".toList := by
  intro q hq _
  have hmem : q ∈ ["/c/f".toList, "/c/g".toList, "/c/h".toList] := by
    cases hq with
    | refl => decide
    | @dep _ file _ _ hrule hdep hrest =>
      obtain ⟨_, hfile⟩ := restingOnTwo_commitsOn ⟨hrule, hdep⟩
      cases hrest with
      | refl => exact List.mem_cons_of_mem _ hfile
      | dep _ hrule' hdep' _ =>
        obtain ⟨rfl, _⟩ := restingOnTwo_commitsOn ⟨hrule', hdep'⟩
        exact absurd hfile (by decide)
  have hall : ∀ p ∈ ["/c/f".toList, "/c/g".toList, "/c/h".toList],
      metadataReady.toBeMade (StdPath.parentPath (metadataToken listingEnv p)) = some [] := by decide +kernel
  exact ⟨by decide, by decide, hall q hmem⟩

/-- A file that commits on these, of which the one in the directory called like a token commits on
nothing. -/
def restingOnNames (dependencies : List CString) : CapioCLEngine :=
  ⟨((∅ : UnorderedMap CString Location).insert "/c/a.capio/b".toList { freshLocation defaultRules with
      commitRule := capioFileCommittedOnFile }).insert "/c/f".toList { freshLocation defaultRules with
    commitRule := capioFileCommittedOnFile
    fileDependencies := dependencies }⟩

private theorem restingOnNames_commitsOn {path dependency : CString} {dependencies : List CString}
    (h : (restingOnNames dependencies).CommitsOn path dependency) :
    path = "/c/f".toList ∧ dependency ∈ dependencies := by
  obtain ⟨_, hmem⟩ := h
  unfold getFileDeps restingOnNames at hmem
  by_cases hpath : path = "/c/f".toList
  · subst hpath
    rw [AList.lookup_insert] at hmem
    exact ⟨rfl, hmem⟩
  · rw [AList.lookup_insert_ne hpath] at hmem
    by_cases hpath' : path = "/c/a.capio/b".toList
    · subst hpath'
      rw [AList.lookup_insert] at hmem
      cases hmem
    · rw [AList.lookup_insert_ne hpath', AList.lookup_empty] at hmem
      cases hmem

/-- In the other order it is not committed. -/
example : (Evaluation.isCommittedWithin listingEnv (restingOnNames ["/c/a".toList, "/c/a.capio/b".toList]) 2
    metadataReady "/c/f".toList).map Prod.fst = some false := by decide +kernel

end Capio.Server
