import Capio.Server.CommitEvaluation
import Capio.Server.ParseSurvival

/-! Files that inherit the commit rule of a directory: `newFile` copies the rule and leaves the
close number at -1 and the dependencies empty. -/
namespace Capio.Server
open Library CapioCLEngine Evaluation FileSystem

/-- `newFile` gives the path the rules of the directory. -/
structure CapioCLEngine.InheritsFrom (engine : CapioCLEngine) (directory path : CString) : Prop where
  fresh : path ∉ engine.locations
  returns : ¬ engine.GlobThrows path
  longest : engine.longestMatch path engine.locations.keys = some directory

def CapioCLEngine.withLocation (engine : CapioCLEngine) (path : CString) (location : Location) :
    CapioCLEngine := ⟨engine.locations.insert path location⟩

/-- The rule of the directory with its close number and its dependencies. -/
def CapioCLEngine.declaredRules (engine : CapioCLEngine) (directory : CString) : Location :=
  { freshLocation (engine.ruleOf directory) with
    commitOnCloseNumber := engine.getCommitCloseCount directory
    fileDependencies := engine.getFileDeps directory }

/-- The path with an entry of its own that repeats the rule of the directory and its parameters. -/
def CapioCLEngine.declaredLike (engine : CapioCLEngine) (directory path : CString) : CapioCLEngine :=
  engine.withLocation path (engine.declaredRules directory)

/-- The path inherits the rule as if it had been declared with it: the same answers of `isCommitted`. -/
def KeepsParameters (env : Env) (engine : CapioCLEngine) (fs : FileSystem)
    (directory path : CString) : Prop :=
  ∃ engine', engine.newFile path = some engine' ∧ ∀ committed,
    Answers env engine' fs path committed ↔ Answers env (engine.declaredLike directory path) fs path committed

/-- The parameters of the directory's rule are met when the directories above the token of the path
can be made, so that it does not matter that they are lost: the count has been reached, or the
dependencies of the directory are found committed, one after the other. -/
structure ParametersMet (env : Env) (engine : CapioCLEngine) (fs : FileSystem)
    (directory path : CString) : Prop where
  onClose : engine.getCommitRule directory = capioFileCommittedOnClose →
    ∀ token gs, getAndCreateMetadataPath env fs path = some (token, gs) → gs.fileExists token = true →
    engine.getCommitCloseCount directory = -1 ∨ engine.getCommitCloseCount directory ≤ tokenCount gs token
  onFile : engine.getCommitRule directory = capioFileCommittedOnFile →
    ∀ token gs, getAndCreateMetadataPath env fs path = some (token, gs) →
    ∃ fs', Walk env (engine.declaredLike directory path) gs (engine.getFileDeps directory) fs'

variable {env : Env} {engine : CapioCLEngine} {fs : FileSystem} {directory path : CString}

theorem newFile_inherits (h : engine.InheritsFrom directory path) :
    engine.newFile path = some (engine.withLocation path (freshLocation (engine.ruleOf directory))) := by
  rw [newFile_of_not_mem h.fresh h.returns, inherited, h.longest, Option.elim_some,
    UnorderedMap.emplace, if_neg h.fresh]
  rfl

/-! ### One entry replaced -/

section OneEntry
variable {location : Location} {q : CString}

@[simp] theorem getCommitRule_withLocation :
    (engine.withLocation path location).getCommitRule path = location.commitRule := by
  simp [withLocation, getCommitRule]

@[simp] theorem getCommitCloseCount_withLocation :
    (engine.withLocation path location).getCommitCloseCount path = location.commitOnCloseNumber := by
  simp [withLocation, getCommitCloseCount]

@[simp] theorem getFileDeps_withLocation :
    (engine.withLocation path location).getFileDeps path = location.fileDependencies := by
  simp [withLocation, getFileDeps]

end OneEntry

/-! ### The inherited rule and the declared one -/

theorem keepsParameters_iff (h : engine.InheritsFrom directory path) :
    KeepsParameters env engine fs directory path ↔ ∀ committed,
      Answers env (engine.withLocation path (freshLocation (engine.ruleOf directory))) fs path committed ↔
        Answers env (engine.declaredLike directory path) fs path committed := by
  rw [KeepsParameters, newFile_inherits h]
  simp

section Evaluated
variable {location : Location} {token : CString} {gs : FileSystem} {committed : Bool}

/-- Where the directories cannot be made, nothing is answered. -/
theorem not_answers_withLocation (hfile : fs.isDirectory path = false)
    (hmade : getAndCreateMetadataPath env fs path = none) :
    ¬ Answers env (engine.withLocation path location) fs path committed := by
  rintro ⟨fs', depth, h⟩
  cases depth with
  | zero => cases h
  | succ depth =>
    rw [isCommittedWithin_file hfile, hmade] at h
    cases h

/-- A file that commits on others answers yes when the walk over them comes to its end. -/
theorem answers_withLocation_onFile (hfile : fs.isDirectory path = false)
    (hmade : getAndCreateMetadataPath env fs path = some (token, gs))
    (hrule : location.commitRule = capioFileCommittedOnFile) :
    Answers env (engine.withLocation path location) fs path true ↔
      ∃ fs', Walk env (engine.withLocation path location) gs location.fileDependencies fs' := by
  unfold Answers
  refine exists_congr fun fs' => ?_
  rw [evaluates_true_iff]
  constructor
  · intro h
    cases h with
    | directory hn _ _ =>
      rw [isDirectory_iff.mpr ⟨_, hn⟩] at hfile
      cases hfile
    | token _ hnot _ _ _ _ => exact absurd (getCommitRule_withLocation.trans hrule) hnot
    | dependencies _ _ hmade' hwalk =>
      rw [hmade] at hmade'
      cases hmade'
      rwa [getFileDeps_withLocation, List.append_nil] at hwalk
  · intro hwalk
    refine .dependencies hfile (getCommitRule_withLocation.trans hrule) hmade ?_
    rwa [getFileDeps_withLocation, List.append_nil]

theorem answers_withLocation_noDeps (hfile : fs.isDirectory path = false)
    (hmade : getAndCreateMetadataPath env fs path = some (token, gs))
    (hrule : location.commitRule = capioFileCommittedOnFile) (hdeps : location.fileDependencies = []) :
    Answers env (engine.withLocation path location) fs path true := by
  rw [answers_withLocation_onFile hfile hmade hrule, hdeps]
  exact ⟨gs, .done gs⟩

theorem answers_withLocation_onClose (hfile : fs.isDirectory path = false)
    (hmade : getAndCreateMetadataPath env fs path = some (token, gs))
    (hrule : location.commitRule = capioFileCommittedOnClose) :
    Answers env (engine.withLocation path location) fs path committed ↔
      (gs.fileExists token && (decide (location.commitOnCloseNumber = -1) ||
        decide (location.commitOnCloseNumber ≤ tokenCount gs token))) = committed := by
  have hnot : ¬ capioFileCommittedOnClose = capioFileCommittedOnFile := by decide
  have heval : Evaluation.isCommittedWithin env (engine.withLocation path location) 1 fs path = _ :=
    isCommittedWithin_file hfile
  rw [hmade, Option.bind_some, getCommitRule_withLocation, hrule, if_neg hnot, if_pos rfl,
    getCommitCloseCount_withLocation] at heval
  exact answers_iff heval

theorem answers_withLocation_other (hfile : fs.isDirectory path = false)
    (hmade : getAndCreateMetadataPath env fs path = some (token, gs))
    (hf : location.commitRule ≠ capioFileCommittedOnFile)
    (hc : location.commitRule ≠ capioFileCommittedOnClose) :
    Answers env (engine.withLocation path location) fs path committed ↔ gs.fileExists token = committed := by
  have heval : Evaluation.isCommittedWithin env (engine.withLocation path location) 1 fs path = _ :=
    isCommittedWithin_file hfile
  rw [hmade, Option.bind_some, getCommitRule_withLocation, if_neg hf, if_neg hc] at heval
  exact answers_iff heval

/-- The rule `on_file`: the inherited one has no dependencies and says yes. -/
theorem keeps_onFile_iff (hfile : fs.isDirectory path = false)
    (hmade : getAndCreateMetadataPath env fs path = some (token, gs))
    (hf : engine.getCommitRule directory = capioFileCommittedOnFile) :
    (∀ committed, Answers env (engine.withLocation path (freshLocation (engine.ruleOf directory))) fs path committed ↔
        Answers env (engine.declaredLike directory path) fs path committed) ↔
      ∃ fs', Walk env (engine.declaredLike directory path) gs (engine.getFileDeps directory) fs' := by
  have hinherited : Answers env (engine.withLocation path (freshLocation (engine.ruleOf directory))) fs path true :=
    answers_withLocation_noDeps hfile hmade hf rfl
  obtain ⟨left, heval⟩ := hinherited
  have hdeclared : Answers env (engine.declaredLike directory path) fs path true ↔ _ :=
    answers_withLocation_onFile hfile hmade hf
  constructor
  · exact fun hsame => hdeclared.mp ((hsame true).mp ⟨left, heval⟩)
  · intro hwalk committed
    obtain ⟨left', heval'⟩ := hdeclared.mpr hwalk
    constructor
    · rintro ⟨_, hanswer⟩
      exact (heval.unique hanswer).1 ▸ ⟨left', heval'⟩
    · rintro ⟨_, hanswer⟩
      exact (heval'.unique hanswer).1 ▸ ⟨left, heval⟩

/-- The rule `on_close`: the inherited one asks for a token and for no count. -/
theorem keeps_onClose_iff (hfile : fs.isDirectory path = false)
    (hmade : getAndCreateMetadataPath env fs path = some (token, gs))
    (hc : engine.getCommitRule directory = capioFileCommittedOnClose) :
    (∀ committed, Answers env (engine.withLocation path (freshLocation (engine.ruleOf directory))) fs path committed ↔
        Answers env (engine.declaredLike directory path) fs path committed) ↔
      (gs.fileExists token = true → engine.getCommitCloseCount directory = -1 ∨
        engine.getCommitCloseCount directory ≤ tokenCount gs token) := by
  have hinherited (committed : Bool) :
      Answers env (engine.withLocation path (freshLocation (engine.ruleOf directory))) fs path committed ↔
        gs.fileExists token = committed := by
    have hanswer : Answers env (engine.withLocation path (freshLocation (engine.ruleOf directory))) fs path committed ↔
        (gs.fileExists token && (decide ((-1 : Int) = -1) || decide (-1 ≤ tokenCount gs token))) = committed :=
      answers_withLocation_onClose hfile hmade hc
    simpa using hanswer
  have hdeclared (committed : Bool) : Answers env (engine.declaredLike directory path) fs path committed ↔
      (gs.fileExists token && (decide (engine.getCommitCloseCount directory = -1) ||
        decide (engine.getCommitCloseCount directory ≤ tokenCount gs token))) = committed :=
    answers_withLocation_onClose hfile hmade hc
  simp only [hinherited, hdeclared]
  cases gs.fileExists token with
  | false => simp
  | true =>
    simp only [Bool.true_and, forall_const, Bool.forall_bool, Bool.or_eq_true, Bool.or_eq_false_iff,
      decide_eq_true_eq, decide_eq_false_iff_not, reduceCtorEq]
    tauto

end Evaluated

/-- The commit state of a file that inherits its rule is that of a declared one exactly in the
states in which the lost parameters are met. -/
theorem inherited_commit_iff (env : Env) (engine : CapioCLEngine) (fs : FileSystem)
    (directory path : CString) (h : engine.InheritsFrom directory path)
    (hfile : fs.isDirectory path = false) :
    KeepsParameters env engine fs directory path ↔ ParametersMet env engine fs directory path := by
  rw [keepsParameters_iff h]
  cases hmade : getAndCreateMetadataPath env fs path with
  | none =>
    refine iff_of_true (fun _ => iff_of_false ?_ ?_) ⟨?_, ?_⟩
    · exact not_answers_withLocation hfile hmade
    · exact not_answers_withLocation hfile hmade
    · simp [hmade]
    · simp [hmade]
  | some made =>
    obtain ⟨token, gs⟩ := made
    -- the directories are made in one way only
    have hmade' {P : CString → FileSystem → Prop} :
        (∀ token' gs', getAndCreateMetadataPath env fs path = some (token', gs') → P token' gs') ↔ P token gs := by
      rw [hmade]
      constructor
      · exact fun hall => hall token gs rfl
      · intro hp token' gs' he
        cases he
        exact hp
    by_cases hf : engine.getCommitRule directory = capioFileCommittedOnFile
    · have hclose : engine.getCommitRule directory ≠ capioFileCommittedOnClose := by
        rw [hf]
        decide
      rw [keeps_onFile_iff hfile hmade hf]
      exact ⟨fun hmet => ⟨fun hc => absurd hc hclose, fun _ => hmade'.mpr hmet⟩,
        fun hmet => hmade'.mp (hmet.onFile hf)⟩
    · by_cases hc : engine.getCommitRule directory = capioFileCommittedOnClose
      · rw [keeps_onClose_iff hfile hmade hc]
        exact ⟨fun hmet => ⟨fun _ => hmade'.mpr hmet, fun hf' => absurd hf' hf⟩,
          fun hmet => hmade'.mp (hmet.onClose hc)⟩
      · refine iff_of_true (fun committed => ?_) ⟨fun hc' => absurd hc' hc, fun hf' => absurd hf' hf⟩
        have hinherited : Answers env (engine.withLocation path (freshLocation (engine.ruleOf directory))) fs path
            committed ↔ gs.fileExists token = committed := answers_withLocation_other hfile hmade hf hc
        have hdeclared : Answers env (engine.declaredLike directory path) fs path committed ↔
            gs.fileExists token = committed := answers_withLocation_other hfile hmade hf hc
        exact hinherited.trans hdeclared.symm

/-- A directory whose files are committed when they have been closed twice. -/
def closedTwiceDirectory : CapioCLEngine :=
  ⟨(∅ : UnorderedMap CString Location).insert "/c/d".toList { freshLocation defaultRules with
    commitRule := capioFileCommittedOnClose, isFile := false, commitOnCloseNumber := 2 }⟩

/-- The file and its token, which counts one close. -/
def closedOnceFile : FileSystem :=
  ⟨fun path => if path = "/c/d/x".toList then some (.file [])
    else if path = "/c/.capio_metadata/c/d/x.capio".toList then some (.file (printCount 1))
    else if path = "/c".toList then some (.directory ["d".toList, ".capio_metadata".toList])
    else if path = "/c/d".toList then some (.directory ["x".toList])
    else if path = "/c/.capio_metadata".toList then some (.directory ["c".toList])
    else if path = "/c/.capio_metadata/c".toList then some (.directory ["d".toList])
    else if path = "/c/.capio_metadata/c/d".toList then some (.directory ["x.capio".toList])
    else none⟩

private theorem closedTwiceDirectory_inherits :
    closedTwiceDirectory.InheritsFrom "/c/d".toList "/c/d/x".toList where
  fresh := by decide
  returns := by
    rintro ⟨filename, hmem, hnone⟩
    rw [AList.mem_keys] at hmem
    have hall : ∀ filename ∈ closedTwiceDirectory.locations.keys,
        matchGlobs filename "/c/d/x".toList ≠ none := by decide
    exact hall filename hmem hnone
  longest := by decide

theorem inherited_commit_iff_closedTwice :
    KeepsParameters listingEnv closedTwiceDirectory closedOnceFile "/c/d".toList "/c/d/x".toList ↔
      ParametersMet listingEnv closedTwiceDirectory closedOnceFile "/c/d".toList "/c/d/x".toList :=
  inherited_commit_iff _ _ _ _ _ closedTwiceDirectory_inherits (by decide)

/-- After one close of two the file is committed already. -/
theorem inherited_count_lost : ¬ ∀ (env : Env) (engine : CapioCLEngine) (fs : FileSystem)
    (directory path : CString), engine.InheritsFrom directory path →
      engine.getCommitRule directory = capioFileCommittedOnClose →
      (∃ content, fs.node path = some (.file content)) →
      KeepsParameters env engine fs directory path := by
  intro hall
  obtain ⟨engine', hnew, hkept⟩ := hall listingEnv closedTwiceDirectory closedOnceFile "/c/d".toList
    "/c/d/x".toList closedTwiceDirectory_inherits (by decide) ⟨[], by decide⟩
  rw [newFile_inherits closedTwiceDirectory_inherits, Option.some.injEq] at hnew
  subst hnew
  obtain ⟨r, heval, hyes⟩ : ∃ r, Evaluation.isCommittedWithin listingEnv (closedTwiceDirectory.withLocation "/c/d/x".toList
      (freshLocation (closedTwiceDirectory.ruleOf "/c/d".toList))) 1 closedOnceFile "/c/d/x".toList = some r ∧
        r.1 = true := Option.map_eq_some_iff.mp (by decide +kernel)
  obtain ⟨r', heval', hno⟩ : ∃ r, Evaluation.isCommittedWithin listingEnv (closedTwiceDirectory.declaredLike "/c/d".toList
      "/c/d/x".toList) 1 closedOnceFile "/c/d/x".toList = some r ∧ r.1 = false :=
    Option.map_eq_some_iff.mp (by decide +kernel)
  have hdeclared := (hkept true).mp ((answers_iff heval).mpr hyes)
  rw [answers_iff heval', hno] at hdeclared
  cases hdeclared

end Capio.Server
