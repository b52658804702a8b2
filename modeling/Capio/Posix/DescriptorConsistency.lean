import Capio.Posix.DescriptorHandlers

/-! When the three descriptor tables stay consistent over a sequence of calls. -/
namespace Capio.Posix
open Library DescriptorTables

namespace Process
variable {env : ClientEnv} {view : KernelView} {t : DescriptorTables} {opened : Finset Int} {tid : Int}

/-- A copy gets a number that is tracked under another path. -/
def TakesNumber (t : DescriptorTables) (fd res : Int) : Prop :=
  res ≠ -1 ∧ ∃ p q, t.capioFilesDescriptors.lookup fd = some p ∧
    t.capioFilesDescriptors.lookup res = some q ∧ q ≠ p

/-- The calls that spoil consistent tables. -/
def Clashes (env : ClientEnv) (t : DescriptorTables) (c : Call) : Prop :=
  match c.call with
  | .dup fd res | .dup2 fd _ res => TakesNumber t fd res
  | .dup3 fd fd2 _ res => fd ≠ fd2 ∧ TakesNumber t fd res
  | .rename oldpath newpath =>
    let oldpathAbs := capioAbsolute env c.view oldpath
    let newpathAbs := capioAbsolute env c.view newpath
    isPrefix oldpathAbs newpathAbs = false ∧ isCapioPath env.capioDir oldpathAbs = true ∧
      t.LosesSet oldpathAbs newpathAbs
  | _ => False

/-- A tracked descriptor is open in the kernel, or the number of an error. -/
def Tracked (opened : Finset Int) (t : DescriptorTables) : Prop := ∀ fd ∈ t.files, 0 ≤ fd → fd ∈ opened

private theorem Tracked.handOut {fd : Int} (ht : Tracked opened t) : Tracked (handOut opened fd) t := by
  intro i hi hpos
  unfold Process.handOut
  split_ifs
  · exact Finset.mem_insert_of_mem (ht i hi hpos)
  · exact ht i hi hpos

private theorem Tracked.register {t' : DescriptorTables} {fd : Int} (ht : Tracked opened t)
    (h : ∀ i ∈ t'.files, i = fd ∨ i ∈ t.files) : Tracked (Process.handOut opened fd) t' := by
  intro i hi hpos
  rcases h i hi with rfl | hmem
  · rw [Process.handOut, if_pos hpos]
    exact Finset.mem_insert_self i opened
  · exact ht.handOut i hmem hpos

/-- No lookup of the handler fails, and it leaves consistent tables unless the call
is a bad one. -/
def Handles (opened : Finset Int) (result : Option Outcome) (bad : Prop) : Prop :=
  ∃ o, result = some o ∧ (Consistent o.tables ↔ ¬ bad) ∧ Tracked opened o.tables

private theorem unchanged_handles (hc : Consistent t) (ht : Tracked opened t) (sent : List Request)
    (result : Option Int) {bad : Prop} (h : ¬ bad) : Handles opened (some ⟨t, sent, result⟩) bad :=
  ⟨_, rfl, iff_of_true hc h, ht⟩

private theorem openPath_handles (hc : Consistent t) (ht : Tracked opened t) (path : CString)
    (create cloexec : Bool) {fd : Int} (hfd : 0 ≤ fd → fd ∉ opened) :
    Handles (handOut opened fd) (openPath env t tid path create cloexec fd) False := by
  unfold openPath
  by_cases hreg : isCapioPath env.capioDir path ∧ 0 ≤ fd
  · obtain ⟨fds, _, heq⟩ := addCapioFd_eq t path fd 0 cloexec
    rw [if_pos hreg, heq]
    refine ⟨_, rfl, iff_of_true ?_ not_false, ht.register ?_⟩
    · apply (addCapioFd_consistent_iff hc heq).mpr
      intro q hq
      have hmem : fd ∈ t.files := (hc.sameKeys fd).mp (AList.lookup_isSome.mp (by rw [hq]; rfl))
      exact absurd (ht fd hmem hreg.2) (hfd hreg.2)
    · intro i hi
      exact (UnorderedMap.mem_emplace _ _ _ _).mp hi
  · rw [if_neg hreg]
    exact unchanged_handles hc ht.handOut _ _ not_false

private theorem not_takesNumber {fd res : Int} (hc : Consistent t) (h : fd ∉ t.files) :
    ¬ TakesNumber t fd res := by
  rintro ⟨_, p, _, hp, _⟩
  exact h ((hc.sameKeys fd).mp (AList.lookup_isSome.mp (by rw [hp]; rfl)))

private theorem copyFd_handles (hc : Consistent t) (ht : Tracked opened t) {fd res : Int}
    {registers : Bool} (cloexec : Bool) (hreg : registers = true ∨ fd = res) :
    Handles (handOut opened res) (copyFd view t fd res registers cloexec) (TakesNumber t fd res) := by
  unfold copyFd
  by_cases hfd : fd ∈ t.files
  · rw [if_pos (existsCapioFd_iff.mpr hfd)]
    by_cases hres : res = -1
    · rw [if_pos hres]
      exact unchanged_handles hc ht.handOut _ _ (fun h => h.1 hres)
    · rw [if_neg hres]
      cases registers with
      | true =>
        obtain ⟨t', heq⟩ := Option.isSome_iff_exists.mp (dupCapioFd_isSome hc hfd res cloexec)
        rw [if_pos rfl, heq]
        refine ⟨_, rfl, (dupCapioFd_consistent_iff hc heq).trans ?_, ht.register ?_⟩
        · rw [TakesNumber, and_iff_right hres]
          push Not
          exact Iff.rfl
        · exact fun i => dupCapioFd_files heq
      | false =>
        obtain rfl := hreg.resolve_left Bool.false_ne_true
        apply unchanged_handles hc ht.handOut _ _
        rintro ⟨_, p, q, hp, hq, hne⟩
        rw [hp] at hq
        exact hne (Option.some.inj hq).symm
  · rw [if_neg (fun he => hfd (existsCapioFd_iff.mp he))]
    exact unchanged_handles hc ht.handOut _ _ (not_takesNumber hc hfd)

private theorem closeHandler_handles (hc : Consistent t) (ht : Tracked opened t) (fd : Int) :
    Handles (opened.erase fd) (closeHandler t tid fd) False := by
  unfold closeHandler
  by_cases hfd : fd ∈ t.files
  · obtain ⟨path, hpath⟩ :=
      Option.isSome_iff_exists.mp (AList.lookup_isSome.mpr ((hc.sameKeys fd).mpr hfd))
    obtain ⟨fds, _, heq⟩ := deleteCapioFd_eq hc hpath
    rw [if_pos (existsCapioFd_iff.mpr hfd), hpath, Option.bind_eq_bind, Option.bind_some, heq]
    refine ⟨_, rfl, iff_of_true (deleteCapioFd_consistent hc heq) not_false, ?_⟩
    intro i hi hpos
    obtain ⟨hne, hmem⟩ := AList.mem_erase.mp hi
    exact Finset.mem_erase.mpr ⟨hne, ht i hmem hpos⟩
  · rw [if_neg (fun he => hfd (existsCapioFd_iff.mp he))]
    refine unchanged_handles hc ?_ _ _ not_false
    intro i hi hpos
    exact Finset.mem_erase.mpr ⟨ne_of_mem_of_not_mem hi hfd, ht i hi hpos⟩

private theorem renameHandler_handles (hc : Consistent t) (ht : Tracked opened t)
    (oldpath newpath : CString) : Handles opened (renameHandler env view t tid oldpath newpath)
      (Clashes env t ⟨tid, view, .rename oldpath newpath⟩) := by
  unfold renameHandler Clashes
  dsimp only
  by_cases hprefix : isPrefix (capioAbsolute env view oldpath) (capioAbsolute env view newpath) = true
  · rw [if_pos hprefix]
    exact unchanged_handles hc ht _ _ (fun h => Bool.false_ne_true (h.1.symm.trans hprefix))
  · rw [if_neg hprefix, and_iff_right (Bool.eq_false_iff.mpr hprefix)]
    by_cases hcapio : isCapioPath env.capioDir (capioAbsolute env view oldpath) = true
    · obtain ⟨t', heq, hfiles, hiff, _⟩ :=
        renameCapioPath_spec hc (capioAbsolute env view oldpath) (capioAbsolute env view newpath)
      rw [if_pos hcapio, heq, and_iff_right hcapio]
      exact ⟨_, rfl, hiff, fun i hi => ht i (hfiles ▸ hi)⟩
    · rw [if_neg hcapio]
      exact unchanged_handles hc ht _ _ (fun h => hcapio h.1)

private theorem unlinkPath_handles (hc : Consistent t) (ht : Tracked opened t) (path : CString) :
    Handles opened (unlinkPath env t path) False := by
  unfold unlinkPath
  by_cases hcapio : isCapioPath env.capioDir path = true
  · obtain ⟨t', heq, hc', _, hfiles, _⟩ := deleteCapioPath_spec hc path
    rw [if_pos hcapio, heq]
    refine ⟨_, rfl, iff_of_true hc' not_false, ?_⟩
    intro i hi
    refine ht i (AList.lookup_isSome.mp ?_)
    have hsome := AList.lookup_isSome.mpr hi
    rw [hfiles i] at hsome
    split_ifs at hsome
    · cases hsome
    · exact hsome
  · rw [if_neg hcapio]
    exact unchanged_handles hc ht _ _ not_false

/-- One call on consistent tables. -/
theorem handle_handles (hc : Consistent t) (ht : Tracked opened t) {c : Call}
    (hr : returns opened c.call = true) :
    Handles (openedAfter opened c.call) (handle env t c) (Clashes env t c) := by
  obtain ⟨tid, view, call⟩ := c
  cases call with
  | creat pathname fd => exact openPath_handles hc ht _ _ _ (of_decide_eq_true hr)
  | openFile pathname flags fd => exact openPath_handles hc ht _ _ _ (of_decide_eq_true hr)
  | openat dirfd pathname flags fd => exact openPath_handles hc ht _ _ _ (of_decide_eq_true hr)
  | dup fd res => exact copyFd_handles hc ht false (.inl rfl)
  | dup2 fd fd2 res => exact copyFd_handles hc ht false (by by_cases h : fd = res <;> simp [h])
  | dup3 fd fd2 flags res =>
    change Handles _ (dup3Handler view t fd fd2 flags res) (fd ≠ fd2 ∧ TakesNumber t fd res)
    unfold dup3Handler
    by_cases heq : t.existsCapioFd fd ∧ fd = fd2
    · rw [if_pos heq]
      exact unchanged_handles hc ht.handOut _ _ (fun h => h.1 heq.2)
    · obtain ⟨o, ho, hiff, hto⟩ := copyFd_handles hc ht (flags &&& oCloexec = oCloexec) (.inl rfl)
      rw [if_neg heq]
      refine ⟨o, ho, hiff.trans (not_congr ⟨fun htakes => ⟨?_, htakes⟩, And.right⟩), hto⟩
      rintro rfl
      by_cases hfd : fd ∈ t.files
      · exact heq ⟨existsCapioFd_iff.mpr hfd, rfl⟩
      · exact not_takesNumber hc hfd htakes
  | close fd => exact closeHandler_handles hc ht fd
  | rename oldpath newpath => exact renameHandler_handles hc ht oldpath newpath
  | unlink pathname => exact unlinkPath_handles hc ht pathname
  | unlinkat pathname => exact unlinkPath_handles hc ht _

theorem step_cases {p q : Process} {e : Event} (h : Step env p e q) :
    returns p.opened e.action.call = true ∧ q.opened = openedAfter p.opened e.action.call ∧
      ∃ o, handle env p.tables e.action = some o ∧ q.tables = o.tables := by
  obtain ⟨c, sent⟩ := e
  change step env p c = some (q, sent) at h
  unfold step at h
  split_ifs at h with hr
  obtain ⟨o, ho, h⟩ := Option.bind_eq_some_iff.mp h
  cases h
  exact ⟨hr, rfl, o, ho, rfl⟩

/-- The tables stay consistent through a run exactly when no call in it takes a
tracked number or path for another file; until then no lookup can fail. -/
theorem tables_consistent_iff {opened : Finset Int} {ts : Trace} {p : Process}
    (h : Run (Step env) (start opened) ts p) :
    ((∀ x ∈ ts, Consistent x.target.tables) ↔
      ∀ x ∈ ts, ¬ Clashes env x.source.tables x.label.action) ∧
    ((∀ x ∈ ts, Consistent x.target.tables) →
      ∀ c, returns p.opened c.call = true → (handle env p.tables c).isSome) := by
  have hstep (p : Process) (e : Event) (q : Process)
      (hi : Consistent p.tables ∧ Tracked p.opened p.tables) (hs : Step env p e q) :
      (Consistent q.tables ↔ ¬ Clashes env p.tables e.action) ∧ Tracked q.opened q.tables := by
    obtain ⟨hr, hopened, o, ho, htables⟩ := step_cases hs
    obtain ⟨o', ho', hiff, ht⟩ := handle_handles hi.1 hi.2 hr
    rw [hopened, htables, Option.some.inj (ho.symm.trans ho')]
    exact ⟨hiff, ht⟩
  obtain ⟨hiff, hlast⟩ := h.forall_target_iff (fun p => Consistent p.tables ∧ Tracked p.opened p.tables)
    (fun p => Consistent p.tables) (fun x => ¬ Clashes env x.source.tables x.label.action)
    ⟨consistent_init, fun fd hfd => absurd hfd (AList.notMem_empty fd)⟩
    (fun p e q hi hs => (hstep p e q hi hs).1) (fun p e q hi hs hc => ⟨hc, (hstep p e q hi hs).2⟩)
  refine ⟨hiff, ?_⟩
  intro hall c hr
  obtain ⟨hc, ht⟩ := hlast hall
  obtain ⟨o, ho, _⟩ := handle_handles hc ht hr
  rw [ho]
  rfl

/-- What the operations on the tables keep: additions of CAPIO paths, copies to any number but
that of an error, deletions, and renames to a path with `good`. -/
structure KeptByTables (capioDir : CString) (good : CString → Prop) (I : DescriptorTables → Prop) : Prop where
  add : ∀ {t t' path fd cloexec}, isCapioPath capioDir path = true → 0 ≤ fd → I t →
    t.addCapioFd path fd 0 cloexec = some t' → I t'
  dup : ∀ {t t' fd res cloexec}, res ≠ -1 → I t → t.dupCapioFd fd res cloexec = some t' → I t'
  deleteFd : ∀ {t t' fd}, I t → t.deleteCapioFd fd = some t' → I t'
  deletePath : ∀ {t t' path}, I t → t.deleteCapioPath path = some t' → I t'
  rename : ∀ {t t' oldpath newpath}, good newpath → I t → t.renameCapioPath oldpath newpath = some t' → I t'

namespace KeptByTables
variable {good : CString → Prop} {I : DescriptorTables → Prop}

theorem openPath (k : KeptByTables env.capioDir good I) {path : CString} {create cloexec : Bool} {fd : Int}
    {o : Outcome} (ht : I t) (h : Posix.openPath env t tid path create cloexec fd = some o) : I o.tables := by
  unfold Posix.openPath at h
  dsimp only at h
  generalize (if isCapioPath env.capioDir path = true then
    [if create = true then Request.create tid (-1) path else Request.openFile tid (-1) path] else []) = sent at h
  split_ifs at h with hreg
  · obtain ⟨t', htables, h⟩ := Option.bind_eq_some_iff.mp h
    cases h
    exact k.add hreg.1 hreg.2 ht htables
  · cases h
    exact ht

theorem copyFd (k : KeptByTables env.capioDir good I) {fd res : Int} {registers cloexec : Bool} {o : Outcome}
    (ht : I t) (h : Posix.copyFd view t fd res registers cloexec = some o) : I o.tables := by
  unfold Posix.copyFd at h
  dsimp only at h
  split_ifs at h with hfd hres
  · cases h
    exact ht
  · obtain ⟨t', htables, h⟩ := Option.bind_eq_some_iff.mp h
    cases h
    exact k.dup hres ht htables
  all_goals
    cases h
    exact ht

theorem unlinkPath (k : KeptByTables env.capioDir good I) {path : CString} {o : Outcome} (ht : I t)
    (h : Posix.unlinkPath env t path = some o) : I o.tables := by
  unfold Posix.unlinkPath at h
  dsimp only at h
  split_ifs at h
  · obtain ⟨t', htables, h⟩ := Option.bind_eq_some_iff.mp h
    cases h
    exact k.deletePath ht htables
  · cases h
    exact ht

/-- A call keeps what the operations of its handler keep. -/
theorem handle (k : KeptByTables env.capioDir good I) {c : Call} {o : Outcome}
    (hgood : ∀ oldpath newpath, c.call = .rename oldpath newpath → good (capioAbsolute env c.view newpath))
    (ht : I t) (h : Process.handle env t c = some o) : I o.tables := by
  obtain ⟨tid, view, call⟩ := c
  cases call with
  | creat pathname fd | openFile pathname flags fd | openat dirfd pathname flags fd => exact k.openPath ht h
  | dup fd res | dup2 fd fd2 res => exact k.copyFd ht h
  | dup3 fd fd2 flags res =>
    change dup3Handler view t fd fd2 flags res = some o at h
    unfold dup3Handler at h
    split_ifs at h
    · cases h
      exact ht
    · exact k.copyFd ht h
  | close fd =>
    change closeHandler t tid fd = some o at h
    unfold closeHandler at h
    split_ifs at h
    · obtain ⟨path, _, h⟩ := Option.bind_eq_some_iff.mp h
      obtain ⟨t', htables, h⟩ := Option.bind_eq_some_iff.mp h
      cases h
      exact k.deleteFd ht htables
    · cases h
      exact ht
  | rename oldpath newpath =>
    change renameHandler env view t tid oldpath newpath = some o at h
    unfold renameHandler at h
    dsimp only at h
    generalize (if (isCapioPath env.capioDir (capioAbsolute env view oldpath) ||
        isCapioPath env.capioDir (capioAbsolute env view newpath)) = true then
      [Request.rename tid (capioAbsolute env view oldpath) (capioAbsolute env view newpath)] else []) = sent at h
    split_ifs at h
    · cases h
      exact ht
    · obtain ⟨t', htables, h⟩ := Option.bind_eq_some_iff.mp h
      cases h
      exact k.rename (hgood oldpath newpath rfl) ht htables
    · cases h
      exact ht
  | unlink pathname | unlinkat pathname => exact k.unlinkPath ht h

/-- What every operation keeps holds at the end of a run. -/
theorem run (k : KeptByTables env.capioDir good I) {opened : Finset Int} {ts : Trace} {p : Process}
    (hinit : I initFilesystem)
    (hgood : ∀ x ∈ ts, ∀ oldpath newpath, x.label.action.call = .rename oldpath newpath →
      good (capioAbsolute env x.label.action.view newpath))
    (h : Run (Step env) (start opened) ts p) : I p.tables := by
  refine h.invariant_of (fun x => ∀ oldpath newpath, x.label.action.call = .rename oldpath newpath →
    good (capioAbsolute env x.label.action.view newpath)) (fun p => I p.tables) hinit ?_ hgood
  intro p e q ht hs hrenames
  obtain ⟨_, _, o, ho, htables⟩ := step_cases hs
  rw [htables]
  exact k.handle hrenames ht ho

end KeptByTables

/-- No call ever registers −1, the result of a failing call. -/
theorem minusOne_untracked {opened : Finset Int} {ts : Trace} {p : Process}
    (h : Run (Step env) (start opened) ts p) : p.tables.Untracked (-1) := by
  have hkept : KeptByTables env.capioDir (fun _ => True) (Untracked · (-1)) :=
    { add := fun _ hfd ht h => addCapioFd_untracked h (by omega) ht
      dup := fun hres ht h => dupCapioFd_untracked h (Ne.symm hres) ht
      deleteFd := fun ht h => (deleteCapioFd_spec h).1 _ ht
      deletePath := fun ht h => (deleteCapioPath_keys h).1 _ ht
      rename := fun _ ht h => renameCapioPath_untracked h ht }
  exact hkept.run ⟨AList.notMem_empty _, AList.notMem_empty _⟩ (fun _ _ _ _ _ => trivial) h

/-- Two files are opened, then the descriptor of the first is copied onto that of the second. -/
def reuse : List Call :=
  let view : KernelView := ⟨fun _ => none, fun _ => none, fun _ => none, 0⟩
  [⟨7, view, .openFile "/c/a".toList 0 3⟩, ⟨7, view, .openFile "/c/b".toList 0 4⟩,
    ⟨7, view, .dup2 3 4 4⟩]

/-- Descriptor 4 stays registered as the second file, and is listed under the first. -/
private theorem reuse_runs : ∃ ts p, Run (Step ⟨"/c".toList, "/c".toList⟩) (start {0, 1, 2}) ts p ∧
    ∃ x ∈ ts, ¬ Consistent x.target.tables := by
  obtain ⟨ts, p, hrun, _, hp⟩ := execute_any (step ⟨"/c".toList, "/c".toList⟩) (start {0, 1, 2}) reuse
    (fun ts _ => ts.any (fun x =>
      decide (x.target.tables.capioFilesDescriptors.lookup 4 = some "/c/b".toList) &&
        (x.target.tables.capioFilesPaths.lookup "/c/a".toList).any (fun fds => decide (4 ∈ fds)))) (by decide)
  obtain ⟨x, hx, hp⟩ := List.any_eq_true.mp hp
  rw [Bool.and_eq_true, decide_eq_true_eq, Option.any_eq_true] at hp
  obtain ⟨hpath, fds, hfds, hmem⟩ := hp
  refine ⟨ts, p, hrun, x, hx, ?_⟩
  intro hc
  have hother := (hc.indexed.mem_iff hfds).mp (of_decide_eq_true hmem)
  rw [hpath] at hother
  exact absurd hother (by decide)

theorem tables_consistent_iff_reuse : ∃ (ts : Trace) (p : Process),
    Run (Step ⟨"/c".toList, "/c".toList⟩) (start {0, 1, 2}) ts p ∧
      ¬ ∀ x ∈ ts, ¬ Clashes ⟨"/c".toList, "/c".toList⟩ x.source.tables x.label.action := by
  obtain ⟨ts, p, hrun, x, hx, hbad⟩ := reuse_runs
  refine ⟨ts, p, hrun, ?_⟩
  intro hquiet
  exact hbad ((tables_consistent_iff hrun).1.mpr hquiet x hx)

theorem descriptor_reused : ¬ ∀ (ts : Trace) (p : Process),
    Run (Step ⟨"/c".toList, "/c".toList⟩) (start {0, 1, 2}) ts p →
      ∀ x ∈ ts, Consistent x.target.tables := by
  intro hall
  obtain ⟨ts, p, hrun, x, hx, hbad⟩ := reuse_runs
  exact hbad (hall ts p hrun x hx)

end Process
end Capio.Posix
