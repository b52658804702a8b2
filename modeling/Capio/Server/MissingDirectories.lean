import Capio.Server.TokenDirectories

/-! While directories are made: what is in the way stays in the way, and what has to be made for a
token is still made for it as long as nothing below it has been made. -/
namespace Capio.Server
open StdPath

namespace FileSystem

variable {made : CString → Prop} {fs fs' : FileSystem} {path m : CString} {ms : List CString}

/-- What is missing from the path upwards. -/
abbrev missing (fs : FileSystem) (path : CString) : Option (List CString) :=
  fs.missingDirectories path.length path

/-- A longer bound finds nothing else. -/
theorem missingDirectories_eq {length : Nat} (h : path.length ≤ length) :
    fs.missingDirectories length path = fs.missing path := by
  have hbound (length length' : Nat) (path : CString) (h : path.length ≤ length) (h' : path.length ≤ length') :
      fs.missingDirectories length path = fs.missingDirectories length' path := by
    induction length generalizing length' path with
    | zero =>
      obtain rfl : path = [] := List.eq_nil_of_length_eq_zero (Nat.le_zero.mp h)
      cases length' with
      | zero => rfl
      | succ length' => rfl
    | succ length ih =>
      cases length' with
      | zero =>
        obtain rfl : path = [] := List.eq_nil_of_length_eq_zero (Nat.le_zero.mp h')
        rfl
      | succ length' =>
        unfold missingDirectories
        by_cases hnames : names path = []
        · rw [if_pos hnames, if_pos hnames]
        · have hlt := parentPath_length_lt hnames
          rw [if_neg hnames, if_neg hnames, ih length' (parentPath path) (by omega) (by omega)]
  exact hbound length path.length path h (Nat.le_refl _)

theorem missing_file {content : List Char} (hnames : names path ≠ []) (h : fs.node path = some (.file content)) :
    fs.missing path = none := by
  rw [← missingDirectories_eq (Nat.le_succ _), missingDirectories, if_neg hnames, h]

/-- A missing path is missing with what is missing above it. -/
theorem missing_missing (hnames : names path ≠ []) (h : fs.node path = none) :
    fs.missing path = (fs.missing (parentPath path)).map fun above =>
      if filename path = dot ∨ filename path = dotdot then above else path :: above := by
  rw [← missingDirectories_eq (Nat.le_succ _), missingDirectories, if_neg hnames, h,
    missingDirectories_eq (Nat.le_of_lt (parentPath_length_lt hnames))]
  cases fs.missing (parentPath path) <;> rfl

/-- Only a path with a name can be in the way or be made. -/
theorem missing_root (hnames : names path = []) : fs.missing path = some [] := by
  rw [← missingDirectories_eq (Nat.le_succ _), missingDirectories, if_pos hnames]

theorem missing_directory {entries : List CString} (h : fs.node path = some (.directory entries)) :
    fs.missing path = some [] := by
  rw [← missingDirectories_eq (Nat.le_succ _), missingDirectories, h]
  split_ifs <;> rfl

/-- The paths from the one given up to the root. -/
theorem path_induction {P : CString → Prop} (root : ∀ path, names path = [] → P path)
    (below : ∀ path, names path ≠ [] → P (parentPath path) → P path) (path : CString) : P path := by
  induction hlength : path.length using Nat.strongRecOn generalizing path with
  | ind length ih =>
    by_cases hnames : names path = []
    · exact root path hnames
    · exact below path hnames (ih _ (hlength ▸ parentPath_length_lt hnames) _ rfl)

/-- With a directory, all that is missing above it is made. -/
theorem missing_of_mem (h : fs.missing path = some ms) (hm : m ∈ ms) :
    ∃ above, fs.missing m = some above ∧ ∀ x ∈ above, x ∈ ms := by
  induction path using path_induction generalizing ms with
  | root path hnames =>
    rw [missing_root hnames, Option.some.injEq] at h
    subst h
    cases hm
  | below path hnames ih =>
    cases hn : fs.node path with
    | some n =>
      cases n with
      | file content =>
        rw [missing_file hnames hn] at h
        cases h
      | directory entries =>
        rw [missing_directory hn, Option.some.injEq] at h
        subst h
        cases hm
    | none =>
      have hall := h
      rw [missing_missing hnames hn] at h
      obtain ⟨above, habove, he⟩ := Option.map_eq_some_iff.mp h
      split_ifs at he
      · exact ih (he ▸ habove) hm
      · subst he
        rcases List.mem_cons.mp hm with rfl | hm
        · exact ⟨_, hall, fun _ hx => hx⟩
        · obtain ⟨above', habove', hsub⟩ := ih habove hm
          exact ⟨above', habove', fun x hx => List.mem_cons_of_mem _ (hsub x hx)⟩

/-- What is in the way stays in the way. -/
theorem missing_none_grown (hgrows : Grows made fs fs') (hfree : ∀ y, made y → fs.missing y ≠ none)
    (h : fs.missing path = none) : fs'.missing path = none := by
  induction path using path_induction with
  | root path hnames =>
    rw [missing_root hnames] at h
    cases h
  | below path hnames ih =>
    cases hn : fs.node path with
    | some n =>
      cases n with
      | file content => exact missing_file hnames (hgrows.file path content hn)
      | directory entries =>
        rw [missing_directory hn] at h
        cases h
    | none =>
      have hn' := (hgrows.missing path hn).resolve_right fun hm => hfree path hm.1 h
      rw [missing_missing hnames hn, Option.map_eq_none_iff] at h
      rw [missing_missing hnames hn', ih h]
      rfl

/-- What has to be made stays to be made as long as nothing below it is made. -/
theorem missing_mem_grown (hgrows : Grows made fs fs')
    (hfree : ∀ y, made y → ∀ ms, fs.missing y = some ms → m ∉ ms) (h : fs.missing path = some ms) (hm : m ∈ ms) :
    ∃ ms', fs'.missing path = some ms' ∧ m ∈ ms' := by
  induction path using path_induction generalizing ms with
  | root path hnames =>
    rw [missing_root hnames, Option.some.injEq] at h
    subst h
    cases hm
  | below path hnames ih =>
    cases hn : fs.node path with
    | some n =>
      cases n with
      | file content =>
        rw [missing_file hnames hn] at h
        cases h
      | directory entries =>
        rw [missing_directory hn, Option.some.injEq] at h
        subst h
        cases hm
    | none =>
      have hn' := (hgrows.missing path hn).resolve_right fun hmade => hfree path hmade.1 ms h hm
      rw [missing_missing hnames hn] at h
      obtain ⟨above, habove, he⟩ := Option.map_eq_some_iff.mp h
      rw [missing_missing hnames hn']
      split_ifs at he with hdot
      · obtain ⟨ms', hms', hm'⟩ := ih (he ▸ habove) hm
        exact ⟨ms', by rw [hms', Option.map_some, if_pos hdot], hm'⟩
      · subst he
        rcases List.mem_cons.mp hm with rfl | hm
        · obtain ⟨above', hstill, _⟩ := missingDirectories_grown hgrows habove
          have habove' : fs'.missing (parentPath m) = some above' := hstill
          exact ⟨_, by rw [habove', Option.map_some, if_neg hdot], List.mem_cons_self⟩
        · obtain ⟨ms', hms', hm'⟩ := ih habove hm
          exact ⟨_, by rw [hms', Option.map_some, if_neg hdot], List.mem_cons_of_mem _ hm'⟩

/-- A path that has become a directory has been made. -/
theorem made_of_isDirectory (hgrows : Grows made fs fs') (hdir : fs.isDirectory path = false)
    (hdir' : fs'.isDirectory path = true) : made path ∧ fs.node path = none := by
  cases hn : fs.node path with
  | none =>
    rcases hgrows.missing path hn with hn' | hm
    · rw [FileSystem.isDirectory, hn'] at hdir'
      cases hdir'
    · exact ⟨hm.1, rfl⟩
  | some n =>
    cases n with
    | file content =>
      rw [FileSystem.isDirectory, hgrows.file path content hn] at hdir'
      cases hdir'
    | directory entries =>
      rw [isDirectory_iff.mpr ⟨entries, hn⟩] at hdir
      cases hdir

theorem toBeMade_of_mem (h : fs.toBeMade path = some ms) (hm : m ∈ ms) :
    ∃ above, fs.missing m = some above ∧ ∀ x ∈ above, x ∈ ms := by
  unfold toBeMade at h
  split_ifs at h
  · cases h
    cases hm
  · exact missing_of_mem h hm
  · exact missing_of_mem h hm

/-- Something is to be made for a path only where the path is missing. -/
theorem toBeMade_missing_path (hname : hasFilename path = true) (h : fs.toBeMade path = some ms) (hm : m ∈ ms) :
    fs.node path = none ∧ fs.missing path = some ms := by
  have hmissing : fs.missing path = some ms ∧ fs.isDirectory path = false := by
    unfold toBeMade at h
    split_ifs at h with hempty hdir hslash
    · cases h
      cases hm
    · exact absurd hname hslash.2
    · exact ⟨h, Bool.eq_false_iff.mpr hdir⟩
  obtain ⟨hmissing, hdir⟩ := hmissing
  refine ⟨?_, hmissing⟩
  by_contra hsome
  obtain ⟨n, hn⟩ := Option.ne_none_iff_exists'.mp hsome
  cases n with
  | directory entries =>
    rw [isDirectory_iff.mpr ⟨entries, hn⟩] at hdir
    cases hdir
  | file content =>
    by_cases hnames : names path = []
    · rw [missing_root hnames, Option.some.injEq] at hmissing
      subst hmissing
      cases hm
    · rw [missing_file hnames hn] at hmissing
      cases hmissing

theorem toBeMade_none_grown (hgrows : Grows made fs fs') (hfree : ∀ y, made y → fs.missing y ≠ none)
    (h : fs.toBeMade path = none) : fs'.toBeMade path = none := by
  unfold toBeMade at h ⊢
  by_cases hempty : path = []
  · rw [if_pos hempty]
  · rw [if_neg hempty] at h ⊢
    cases hdir : fs.isDirectory path with
    | true =>
      rw [hdir, if_pos rfl] at h
      cases h
    | false =>
      rw [hdir, if_neg (by simp)] at h
      have hdir' : ¬ fs'.isDirectory path = true := by
        intro hdir'
        obtain ⟨hmade, hn⟩ := made_of_isDirectory hgrows hdir hdir'
        refine hfree path hmade ?_
        by_cases hslash : names path ≠ [] ∧ ¬ hasFilename path
        · rw [if_pos hslash] at h
          rw [missing_missing hslash.1 hn]
          exact Option.map_eq_none_iff.mpr h
        · rw [if_neg hslash] at h
          exact h
      rw [if_neg hdir']
      exact missing_none_grown hgrows hfree h

theorem toBeMade_mem_grown (hgrows : Grows made fs fs')
    (hfree : ∀ y, made y → ∀ ms, fs.missing y = some ms → m ∉ ms) (h : fs.toBeMade path = some ms) (hm : m ∈ ms) :
    ∃ ms', fs'.toBeMade path = some ms' ∧ m ∈ ms' := by
  unfold toBeMade at h ⊢
  by_cases hempty : path = []
  · rw [if_pos hempty] at h
    cases h
  · rw [if_neg hempty] at h ⊢
    cases hdir : fs.isDirectory path with
    | true =>
      rw [hdir, if_pos rfl, Option.some.injEq] at h
      subst h
      cases hm
    | false =>
      rw [hdir, if_neg (by simp)] at h
      have hdir' : ¬ fs'.isDirectory path = true := by
        intro hdir'
        obtain ⟨hmade, hn⟩ := made_of_isDirectory hgrows hdir hdir'
        by_cases hslash : names path ≠ [] ∧ ¬ hasFilename path
        · rw [if_pos hslash] at h
          have habove : fs.missing (parentPath path) = some ms := h
          refine hfree path hmade _ (by rw [missing_missing hslash.1 hn, habove, Option.map_some]) ?_
          split_ifs
          · exact hm
          · exact List.mem_cons_of_mem _ hm
        · rw [if_neg hslash] at h
          exact hfree path hmade ms h hm
      rw [if_neg hdir']
      exact missing_mem_grown hgrows hfree h hm

theorem createDirectory_isDirectory : (fs.createDirectory path).isDirectory path = true := by
  unfold createDirectory
  split_ifs with hdir
  · exact hdir
  · split
    · exact isDirectory_iff.mpr ⟨[], by rw [set_node, if_pos rfl]⟩
    · exact isDirectory_iff.mpr ⟨[], by rw [set_node, if_pos rfl]⟩

theorem createDirectory_keeps {q : CString} (h : fs.isDirectory q = true) :
    (fs.createDirectory path).isDirectory q = true := by
  by_cases hq : q = path
  · rw [hq]
    exact createDirectory_isDirectory
  · unfold createDirectory
    split_ifs
    · exact h
    · split
      · obtain ⟨entries, hn⟩ := isDirectory_iff.mp h
        rw [isDirectory_iff]
        simp only [set_node, if_neg hq]
        split_ifs
        · exact ⟨_, rfl⟩
        · exact ⟨entries, hn⟩
      · obtain ⟨entries, hn⟩ := isDirectory_iff.mp h
        exact isDirectory_iff.mpr ⟨entries, by rw [set_node, if_neg hq, hn]⟩

/-- What is to be made has been made. -/
theorem createDirectories_makes (h : fs.createDirectories path = some fs') (hms : fs.toBeMade path = some ms) :
    ∀ m ∈ ms, fs'.isDirectory m = true := by
  rw [createDirectories, hms] at h
  cases h
  clear hms
  intro m hm
  induction ms with
  | nil => cases hm
  | cons first ms ih =>
    rcases List.mem_cons.mp hm with rfl | hm
    · exact createDirectory_isDirectory
    · exact createDirectory_keeps (ih hm)

end FileSystem

/-! ### The directories of a token -/

open FileSystem

variable {env : Env} {made : CString → Prop} {fs fs' gs : FileSystem} {path token m : CString}

theorem MadeFor.missing_ne_none (h : MadeFor env fs path m) : fs.missing m ≠ none := by
  rcases h with ⟨ms, hms, hm⟩ | ⟨ms, hms, hm⟩
  · obtain ⟨above, habove, _⟩ := toBeMade_of_mem hms hm
    rw [habove]
    exact Option.some_ne_none above
  · obtain ⟨above, habove, _⟩ := toBeMade_of_mem hms hm
    rw [habove]
    exact Option.some_ne_none above

/-- Who makes a directory makes those above it. -/
theorem MadeFor.above {x : CString} {ms : List CString} (h : MadeFor env fs path x) (hms : fs.missing x = some ms)
    (hm : m ∈ ms) : MadeFor env fs path m := by
  rcases h with ⟨all, hall, hx⟩ | ⟨all, hall, hx⟩
  · obtain ⟨above, habove, hsub⟩ := toBeMade_of_mem hall hx
    obtain rfl := Option.some.inj (hms.symm.trans habove)
    exact .inl ⟨all, hall, hsub m hm⟩
  · obtain ⟨above, habove, hsub⟩ := toBeMade_of_mem hall hx
    obtain rfl := Option.some.inj (hms.symm.trans habove)
    exact .inr ⟨all, hall, hsub m hm⟩

/-- Where the directories cannot be made, they cannot be made later either. -/
theorem getAndCreateMetadataPath_blocked (h : ¬ Makeable env fs path) (hgrows : Grows made fs fs')
    (hmade : ∀ m, made m → ∃ q, MadeFor env fs q m) : getAndCreateMetadataPath env fs' path = none := by
  have hfree (y : CString) (hy : ∃ q, MadeFor env fs q y) : fs.missing y ≠ none := by
    obtain ⟨q, hq⟩ := hy
    exact hq.missing_ne_none
  have hgrows' := hgrows.mono hmade
  unfold getAndCreateMetadataPath createMetadataPath
  by_cases hknown : getCapioMetadataPath env = []
  · rw [if_pos hknown]
    rfl
  · rw [if_neg hknown]
    by_cases hbase : fs.fileExists (getCapioMetadataPath env) = true ∨ fs.toBeMade (getCapioMetadataPath env) ≠ none
    · obtain ⟨gs, hfirst, hgrows₁⟩ := createMetadataDir_grown hbase hgrows'
        fun ms hms m hm => ⟨path, .inl ⟨ms, hms, hm⟩⟩
      have habove : fs.toBeMade (parentPath (metadataToken env path)) = none := by
        by_contra habove
        exact h ⟨hknown, hbase, habove⟩
      have hnone : gs.createDirectories (parentPath (metadataToken env path)) = none := by
        rw [createDirectories, toBeMade_none_grown hgrows₁ hfree habove]
        rfl
      simp only [Option.bind_eq_bind, Option.bind_some, hfirst, hnone, Option.bind_none]
    · obtain ⟨hexists, hnone⟩ := not_or.mp hbase
      have hstill := toBeMade_none_grown hgrows' hfree (not_not.mp hnone)
      have hfirst : createMetadataDir env fs' = none := by
        rw [createMetadataDir, createDirectories, hstill, if_neg]
        · rfl
        · intro hexists'
          have hn : fs.node (getCapioMetadataPath env) = none := by
            simpa [FileSystem.fileExists] using hexists
          rcases hgrows.missing _ hn with hn' | ⟨_, hdir⟩
          · rw [FileSystem.fileExists, hn'] at hexists'
            cases hexists'
          · rw [toBeMade, if_neg hknown, if_pos hdir] at hstill
            cases hstill
      simp only [Option.bind_eq_bind, Option.bind_some, hfirst, Option.bind_none]

theorem hasFilename_getCapioMetadataPath (h : getCapioMetadataPath env ≠ []) :
    hasFilename (getCapioMetadataPath env) = true := by
  unfold getCapioMetadataPath at h ⊢
  cases hdir : env.capioMetadataDir with
  | some dir =>
    rw [hdir] at h
    exact absurd rfl h
  | none =>
    dsimp only
    unfold append
    rw [if_neg (by decide)]
    split_ifs <;> simp [hasFilename]

/-- As long as nothing below a directory is made that has to be made for the token, it is made then. -/
theorem getAndCreateMetadataPath_makes (hmakeable : Makeable env fs path) (hm : MadeFor env fs path m) (hgrows : Grows made fs fs')
    (hfree : ∀ y, made y → ∀ ms, fs.missing y = some ms → m ∉ ms)
    (h : getAndCreateMetadataPath env fs' path = some (token, gs)) : gs.isDirectory m = true := by
  obtain ⟨t, ht, h⟩ := Option.bind_eq_some_iff.mp h
  obtain ⟨fs₁, hbase, h⟩ := Option.bind_eq_some_iff.mp h
  obtain ⟨fs₂, habove, he⟩ := Option.bind_eq_some_iff.mp h
  cases he
  have hknown : getCapioMetadataPath env ≠ [] := by
    intro hempty
    rw [createMetadataPath, if_pos hempty] at ht
    cases ht
  rw [createMetadataPath, if_neg hknown, Option.some.injEq] at ht
  subst ht
  by_cases hfirst : ∃ ms, fs.toBeMade (getCapioMetadataPath env) = some ms ∧ m ∈ ms
  · obtain ⟨ms, hms, hmem⟩ := hfirst
    have hexists' : ¬ fs'.fileExists (getCapioMetadataPath env) = true := by
      intro hexists'
      obtain ⟨hn, hmissing⟩ := toBeMade_missing_path (hasFilename_getCapioMetadataPath hknown) hms hmem
      rcases hgrows.missing _ hn with hn' | ⟨hmade, _⟩
      · rw [FileSystem.fileExists, hn'] at hexists'
        cases hexists'
      · exact hfree _ hmade ms hmissing hmem
    rw [createMetadataDir, if_neg hexists'] at hbase
    obtain ⟨ms', hms', hmem'⟩ := toBeMade_mem_grown hgrows hfree hms hmem
    obtain ⟨_, _, hgrows₂⟩ := createDirectories_grows habove
    exact hgrows₂.isDirectory (createDirectories_makes hbase hms' m hmem')
  · obtain ⟨ms, hms, hmem⟩ := hm.resolve_left hfirst
    have hgrows₀ : Grows (fun y => made y ∨ ∃ ms, fs.toBeMade (getCapioMetadataPath env) = some ms ∧ y ∈ ms)
        fs fs' := hgrows.mono fun _ => .inl
    obtain ⟨gs₁, hbase', hgrows₁⟩ := createMetadataDir_grown hmakeable.metadata hgrows₀
      fun ms hms y hy => .inr ⟨ms, hms, hy⟩
    obtain rfl := Option.some.inj (hbase.symm.trans hbase')
    have hfree₁ : ∀ y, (made y ∨ ∃ ms, fs.toBeMade (getCapioMetadataPath env) = some ms ∧ y ∈ ms) →
        ∀ ms, fs.missing y = some ms → m ∉ ms := by
      rintro y (hy | ⟨all, hall, hy⟩) above habove hmem
      · exact hfree y hy above habove hmem
      · obtain ⟨above', habove', hsub⟩ := toBeMade_of_mem hall hy
        obtain rfl := Option.some.inj (habove.symm.trans habove')
        exact hfirst ⟨all, hall, hsub m hmem⟩
    obtain ⟨ms', hms', hmem'⟩ := toBeMade_mem_grown hgrows₁ hfree₁ hms hmem
    exact createDirectories_makes habove hms' m hmem'

end Capio.Server
