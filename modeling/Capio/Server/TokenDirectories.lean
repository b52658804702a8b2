import Capio.Server.FileSystem

/-! The directories above a token: every function that asks for a token makes those that are
missing, and makes none where a file is in the way. -/
namespace Capio.Server
open StdPath

namespace FileSystem

/-- `std::filesystem::path::filename` of a path that ends in a name. -/
def filename (path : CString) : CString := (names path).getLastD []

/-- `std::filesystem::create_directory`: a directory that is there stays; a new one is an entry of the
directory it is made in. -/
def createDirectory (fs : FileSystem) (path : CString) : FileSystem :=
  if fs.isDirectory path then fs
  else match fs.node (parentPath path) with
    | some (.directory entries) =>
      (fs.set (parentPath path) (some (.directory (entries ++ [filename path])))).set path
        (some (.directory []))
    | _ => fs.set path (some (.directory []))

/-- The first loop of `create_directories`: what is missing from the path upwards, innermost first.
Anything but a directory on the way is an exception. The bound is the length of the path. -/
def missingDirectories (fs : FileSystem) : Nat → CString → Option (List CString)
  | 0, _ => some []
  | length + 1, path =>
    if names path = [] then some []
    else match fs.node path with
      | some (.directory _) => some []
      | some (.file _) => none
      | none => do
        let above ← missingDirectories fs length (parentPath path)
        some (if filename path = dot ∨ filename path = dotdot then above else path :: above)

/-- What `create_directories` makes. It throws on the empty path. -/
def toBeMade (fs : FileSystem) (path : CString) : Option (List CString) :=
  if path = [] then none
  else if fs.isDirectory path then some []
  else
    let path := if names path ≠ [] ∧ ¬ hasFilename path then parentPath path else path
    fs.missingDirectories path.length path

/-- `std::filesystem::create_directories`. -/
def createDirectories (fs : FileSystem) (path : CString) : Option FileSystem := do
  let missing ← fs.toBeMade path
  some (missing.foldr (fun path fs => fs.createDirectory path) fs)

end FileSystem

/-- The directory that `get_capio_metadata_path` makes when it is asked for the path. -/
def createMetadataDir (env : Env) (fs : FileSystem) : Option FileSystem :=
  if fs.fileExists (getCapioMetadataPath env) then some fs
  else fs.createDirectories (getCapioMetadataPath env)

/-- `getAndCreateMetadataPath`. An exception of `create_directories` is `none`. -/
def getAndCreateMetadataPath (env : Env) (fs : FileSystem) (path : CString) :
    Option (CString × FileSystem) := do
  let token ← createMetadataPath env path
  let fs ← createMetadataDir env fs
  let fs ← fs.createDirectories (parentPath token)
  some (token, fs)

/-! ### Directories appear -/

namespace FileSystem

/-- Only these directories have been made in between. -/
structure Grows (made : CString → Prop) (fs fs' : FileSystem) : Prop where
  file : ∀ path content, fs.node path = some (.file content) → fs'.node path = some (.file content)
  directory : ∀ path entries, fs.node path = some (.directory entries) →
    ∃ more, fs'.node path = some (.directory (entries ++ more)) ∧
      ∀ name ∈ more, ∃ m, made m ∧ parentPath m = path ∧ filename m = name
  missing : ∀ path, fs.node path = none →
    fs'.node path = none ∨ made path ∧ fs'.isDirectory path = true

variable {made made' : CString → Prop} {fs fs' fs'' : FileSystem} {path : CString} {ms : List CString}

theorem Grows.refl (made : CString → Prop) (fs : FileSystem) : Grows made fs fs where
  file _ _ h := h
  directory _ entries h := ⟨[], by rw [h, List.append_nil], by simp⟩
  missing _ h := .inl h

theorem Grows.mono (h : Grows made fs fs') (hmade : ∀ m, made m → made' m) : Grows made' fs fs' where
  file := h.file
  directory path entries hn := by
    obtain ⟨more, hn', hmore⟩ := h.directory path entries hn
    refine ⟨more, hn', fun name hname => ?_⟩
    obtain ⟨m, hm, hparent⟩ := hmore name hname
    exact ⟨m, hmade m hm, hparent⟩
  missing path hn := (h.missing path hn).imp_right fun hm => ⟨hmade path hm.1, hm.2⟩

theorem Grows.isDirectory (h : Grows made fs fs') (hdir : fs.isDirectory path = true) :
    fs'.isDirectory path = true := by
  obtain ⟨entries, hn⟩ := isDirectory_iff.mp hdir
  obtain ⟨more, hn', _⟩ := h.directory path entries hn
  exact isDirectory_iff.mpr ⟨_, hn'⟩

theorem Grows.fileExists (h : Grows made fs fs') (hfile : fs.fileExists path = true) :
    fs'.fileExists path = true := by
  unfold FileSystem.fileExists at hfile ⊢
  cases hn : fs.node path with
  | none =>
    rw [hn] at hfile
    cases hfile
  | some n =>
    cases n with
    | file content =>
      rw [h.file path content hn]
      rfl
    | directory entries =>
      obtain ⟨more, hn', _⟩ := h.directory path entries hn
      rw [hn']
      rfl

theorem Grows.trans (h : Grows made fs fs') (h' : Grows made fs' fs'') : Grows made fs fs'' where
  file path content hn := h'.file path content (h.file path content hn)
  directory path entries hn := by
    obtain ⟨more, hn', hmore⟩ := h.directory path entries hn
    obtain ⟨more', hn'', hmore'⟩ := h'.directory path _ hn'
    refine ⟨more ++ more', by rw [hn'', List.append_assoc], fun name hname => ?_⟩
    exact (List.mem_append.mp hname).elim (hmore name) (hmore' name)
  missing path hn := by
    rcases h.missing path hn with hn' | ⟨hm, hdir⟩
    · exact h'.missing path hn'
    · exact .inr ⟨hm, h'.isDirectory hdir⟩

/-- A path that has not been made is what it was, but for its entries. -/
theorem Grows.isDirectory_eq (h : Grows made fs fs') (hnot : ¬ made path) :
    fs'.isDirectory path = fs.isDirectory path := by
  cases hn : fs.node path with
  | none =>
    rcases h.missing path hn with hn' | ⟨hm, _⟩
    · rw [FileSystem.isDirectory, FileSystem.isDirectory, hn, hn']
    · exact absurd hm hnot
  | some n =>
    cases n with
    | file content => rw [FileSystem.isDirectory, FileSystem.isDirectory, hn, h.file path content hn]
    | directory entries =>
      have hdir : fs.isDirectory path = true := isDirectory_iff.mpr ⟨entries, hn⟩
      rw [hdir, h.isDirectory hdir]

/-- Where nothing has been made, nothing has changed. -/
theorem Grows.eq (h : Grows (fun _ => False) fs fs') : fs' = fs := by
  have hnode : fs'.node = fs.node := by
    funext path
    cases hn : fs.node path with
    | none => exact (h.missing path hn).resolve_right fun hm => hm.1
    | some n =>
      cases n with
      | file content => exact h.file path content hn
      | directory entries =>
        obtain ⟨more, hn', hmore⟩ := h.directory path entries hn
        have hnil : more = [] := List.eq_nil_iff_forall_not_mem.mpr fun name hname => by
          obtain ⟨_, hm, _⟩ := hmore name hname
          exact hm
        rw [hn', hnil, List.append_nil]
  cases fs
  cases fs'
  exact congrArg FileSystem.mk hnode

theorem createDirectory_grows (h : ∀ content, fs.node path ≠ some (.file content)) :
    Grows (· = path) fs (fs.createDirectory path) := by
  unfold createDirectory
  split_ifs with hdir
  · exact .refl _ fs
  · have hnone : fs.node path = none := by
      cases hn : fs.node path with
      | none => rfl
      | some n =>
        cases n with
        | file content => exact absurd hn (h content)
        | directory entries => exact absurd (isDirectory_iff.mpr ⟨entries, hn⟩) hdir
    have hmade (gs : FileSystem) : (gs.set path (some (.directory []))).isDirectory path = true :=
      isDirectory_iff.mpr ⟨[], by rw [set_node, if_pos rfl]⟩
    split
    · rename_i entries habove
      have hparent : parentPath path ≠ path := fun he => by
        rw [he, hnone] at habove
        cases habove
      constructor
      · intro q content hn
        have hq : q ≠ path := fun he => by rw [he, hnone] at hn; cases hn
        have hq' : q ≠ parentPath path := fun he => by rw [he, habove] at hn; cases hn
        rw [set_node, if_neg hq, set_node, if_neg hq', hn]
      · intro q more hn
        have hq : q ≠ path := fun he => by rw [he, hnone] at hn; cases hn
        rw [set_node, if_neg hq, set_node]
        split_ifs with hq'
        · subst hq'
          rw [habove, Option.some.injEq, Node.directory.injEq] at hn
          subst hn
          exact ⟨_, rfl, fun name hname => ⟨path, rfl, rfl, (List.mem_singleton.mp hname).symm⟩⟩
        · exact ⟨[], by rw [hn, List.append_nil], by simp⟩
      · intro q hn
        by_cases hq : q = path
        · exact .inr ⟨hq, by rw [hq]; exact hmade _⟩
        · have hq' : q ≠ parentPath path := fun he => by rw [he, habove] at hn; cases hn
          exact .inl (by rw [set_node, if_neg hq, set_node, if_neg hq', hn])
    · constructor
      · intro q content hn
        have hq : q ≠ path := fun he => by rw [he, hnone] at hn; cases hn
        rw [set_node, if_neg hq, hn]
      · intro q entries hn
        have hq : q ≠ path := fun he => by rw [he, hnone] at hn; cases hn
        exact ⟨[], by rw [set_node, if_neg hq, hn, List.append_nil], by simp⟩
      · intro q hn
        by_cases hq : q = path
        · exact .inr ⟨hq, by rw [hq]; exact hmade _⟩
        · exact .inl (by rw [set_node, if_neg hq, hn])

theorem missingDirectories_missing {length : Nat} (h : fs.missingDirectories length path = some ms) :
    ∀ m ∈ ms, fs.node m = none := by
  induction length generalizing path ms with
  | zero =>
    cases h
    simp
  | succ length ih =>
    unfold missingDirectories at h
    by_cases hnames : names path = []
    · rw [if_pos hnames] at h
      cases h
      simp
    · rw [if_neg hnames] at h
      split at h
      · cases h
        simp
      · cases h
      · rename_i hn
        obtain ⟨above, habove, he⟩ := Option.bind_eq_some_iff.mp h
        have hms := Option.some.inj he
        split_ifs at hms
        · exact hms ▸ ih habove
        · exact hms ▸ List.forall_mem_cons.mpr ⟨hn, ih habove⟩

theorem missingDirectories_grown {length : Nat} (hgrows : Grows made fs fs')
    (h : fs.missingDirectories length path = some ms) :
    ∃ ms', fs'.missingDirectories length path = some ms' ∧ ∀ m ∈ ms', m ∈ ms := by
  induction length generalizing path ms with
  | zero => exact ⟨[], rfl, by simp⟩
  | succ length ih =>
    unfold missingDirectories at h ⊢
    by_cases hnames : names path = []
    · rw [if_pos hnames]
      exact ⟨[], rfl, by simp⟩
    · rw [if_neg hnames] at h ⊢
      cases hn : fs.node path with
      | some n =>
        rw [hn] at h
        cases n with
        | file content => cases h
        | directory entries =>
          obtain ⟨more, hn', _⟩ := hgrows.directory path entries hn
          rw [hn']
          exact ⟨[], rfl, by simp⟩
      | none =>
        rw [hn] at h
        obtain ⟨above, habove, he⟩ := Option.bind_eq_some_iff.mp h
        obtain ⟨above', habove', hsub⟩ := ih habove
        rcases hgrows.missing path hn with hn' | ⟨_, hdir⟩
        · rw [hn']
          simp only [habove', Option.bind_eq_bind, Option.bind_some]
          refine ⟨_, rfl, ?_⟩
          rw [← Option.some.inj he]
          split_ifs
          · exact hsub
          · exact fun m hm => (List.mem_cons.mp hm).elim (fun he => he ▸ List.mem_cons_self)
              fun hm => List.mem_cons_of_mem _ (hsub m hm)
        · obtain ⟨entries, hn'⟩ := isDirectory_iff.mp hdir
          rw [hn']
          exact ⟨[], rfl, by simp⟩

theorem toBeMade_missing (h : fs.toBeMade path = some ms) : ∀ m ∈ ms, fs.node m = none := by
  unfold toBeMade at h
  split_ifs at h
  · cases h
    simp
  · exact missingDirectories_missing h
  · exact missingDirectories_missing h

theorem toBeMade_grown (hgrows : Grows made fs fs') (h : fs.toBeMade path = some ms) :
    ∃ ms', fs'.toBeMade path = some ms' ∧ ∀ m ∈ ms', m ∈ ms := by
  unfold toBeMade at h ⊢
  by_cases hempty : path = []
  · rw [if_pos hempty] at h
    cases h
  · rw [if_neg hempty] at h ⊢
    by_cases hdir' : fs'.isDirectory path = true
    · exact ⟨[], if_pos hdir', by simp⟩
    · have hdir : ¬ fs.isDirectory path = true := fun hdir => hdir' (hgrows.isDirectory hdir)
      rw [if_neg hdir] at h
      rw [if_neg hdir']
      exact missingDirectories_grown hgrows h

/-- Making missing directories makes these and changes nothing else. -/
theorem foldr_createDirectory_grows (h : ∀ m ∈ ms, ∀ content, fs.node m ≠ some (.file content)) :
    Grows (· ∈ ms) fs (ms.foldr (fun path fs => fs.createDirectory path) fs) := by
  induction ms with
  | nil => exact .refl _ fs
  | cons m ms ih =>
    obtain ⟨hm, hms⟩ := List.forall_mem_cons.mp h
    have hrest := ih hms
    have hfirst : ∀ content, (ms.foldr (fun path fs => fs.createDirectory path) fs).node m ≠ some (.file content) := by
      intro content hn
      cases hold : fs.node m with
      | none =>
        rcases hrest.missing m hold with hn' | ⟨_, hdir⟩
        · rw [hn'] at hn
          cases hn
        · obtain ⟨entries, hn'⟩ := isDirectory_iff.mp hdir
          rw [hn'] at hn
          cases hn
      | some n =>
        cases n with
        | file content => exact hm content hold
        | directory entries =>
          obtain ⟨more, hn', _⟩ := hrest.directory m entries hold
          rw [hn'] at hn
          cases hn
    have hmake := createDirectory_grows hfirst
    exact (hrest.mono fun _ => List.mem_cons_of_mem m).trans
      (hmake.mono fun _ he => he ▸ List.mem_cons_self)

theorem createDirectories_grows (h : fs.createDirectories path = some fs') :
    ∃ ms, fs.toBeMade path = some ms ∧ Grows (· ∈ ms) fs fs' := by
  obtain ⟨ms, hms, he⟩ := Option.bind_eq_some_iff.mp h
  cases he
  refine ⟨ms, hms, foldr_createDirectory_grows fun m hm content hn => ?_⟩
  rw [toBeMade_missing hms m hm] at hn
  cases hn

/-- What could be made can be made later, and no more is made then. -/
theorem createDirectories_grown (hgrows : Grows made fs fs') (h : fs.toBeMade path = some ms)
    (hmade : ∀ m ∈ ms, made m) :
    ∃ fs'', fs'.createDirectories path = some fs'' ∧ Grows made fs fs'' := by
  obtain ⟨ms', hms', hsub⟩ := toBeMade_grown hgrows h
  have hmake : fs'.createDirectories path =
      some (ms'.foldr (fun path fs => fs.createDirectory path) fs') := by
    rw [createDirectories, hms']
    rfl
  obtain ⟨_, hsame, hmore⟩ := createDirectories_grows hmake
  obtain rfl := Option.some.inj (hms'.symm.trans hsame)
  exact ⟨_, hmake, hgrows.trans (hmore.mono fun m hm => hmade m (hsub m hm))⟩

end FileSystem

/-! ### The directories of a token -/

open FileSystem

/-- The directory is made for the token of the path. -/
def MadeFor (env : Env) (fs : FileSystem) (path m : CString) : Prop :=
  (∃ ms, fs.toBeMade (getCapioMetadataPath env) = some ms ∧ m ∈ ms) ∨
    ∃ ms, fs.toBeMade (parentPath (metadataToken env path)) = some ms ∧ m ∈ ms

/-- The metadata directory is known, and no file is in the way of the directories above the token. -/
structure Makeable (env : Env) (fs : FileSystem) (path : CString) : Prop where
  known : getCapioMetadataPath env ≠ []
  metadata : fs.fileExists (getCapioMetadataPath env) = true ∨
    fs.toBeMade (getCapioMetadataPath env) ≠ none
  above : fs.toBeMade (parentPath (metadataToken env path)) ≠ none

variable {env : Env} {made : CString → Prop} {fs fs' : FileSystem} {path token : CString}

theorem getAndCreateMetadataPath_grows (h : getAndCreateMetadataPath env fs path = some (token, fs')) :
    token = metadataToken env path ∧ Grows (fun _ => True) fs fs' := by
  obtain ⟨t, ht, h⟩ := Option.bind_eq_some_iff.mp h
  obtain ⟨fs₁, hbase, h⟩ := Option.bind_eq_some_iff.mp h
  obtain ⟨fs₂, habove, he⟩ := Option.bind_eq_some_iff.mp h
  cases he
  unfold createMetadataPath at ht
  split_ifs at ht
  cases ht
  refine ⟨rfl, ?_⟩
  obtain ⟨_, _, hgrows⟩ := createDirectories_grows habove
  have hfirst : Grows (fun _ => True) fs fs₁ := by
    unfold createMetadataDir at hbase
    split_ifs at hbase
    · cases hbase
      exact .refl _ fs
    · obtain ⟨_, _, hgrows⟩ := createDirectories_grows hbase
      exact hgrows.mono fun _ _ => trivial
  exact hfirst.trans (hgrows.mono fun _ _ => trivial)

theorem createMetadataDir_grown (h : fs.fileExists (getCapioMetadataPath env) = true ∨
      fs.toBeMade (getCapioMetadataPath env) ≠ none) (hgrows : Grows made fs fs')
    (hmade : ∀ ms, fs.toBeMade (getCapioMetadataPath env) = some ms → ∀ m ∈ ms, made m) :
    ∃ gs, createMetadataDir env fs' = some gs ∧ Grows made fs gs := by
  unfold createMetadataDir
  by_cases hexists : fs'.fileExists (getCapioMetadataPath env) = true
  · exact ⟨fs', if_pos hexists, hgrows⟩
  · rw [if_neg hexists]
    obtain ⟨ms, hms⟩ := Option.ne_none_iff_exists'.mp
      (h.resolve_left fun hold => hexists (hgrows.fileExists hold))
    exact createDirectories_grown hgrows hms (hmade ms hms)

theorem getAndCreateMetadataPath_grown (h : Makeable env fs path) (hgrows : Grows made fs fs')
    (hmade : ∀ m, MadeFor env fs path m → made m) :
    ∃ fs'', getAndCreateMetadataPath env fs' path = some (metadataToken env path, fs'') ∧
      Grows made fs fs'' := by
  obtain ⟨fs₁, hfirst, hgrows₁⟩ := createMetadataDir_grown h.metadata hgrows
    fun ms hms m hm => hmade m (.inl ⟨ms, hms, hm⟩)
  obtain ⟨ms, hms⟩ := Option.ne_none_iff_exists'.mp h.above
  obtain ⟨fs₂, hsecond, hgrows₂⟩ := createDirectories_grown hgrows₁ hms
    fun m hm => hmade m (.inr ⟨ms, hms, hm⟩)
  refine ⟨fs₂, ?_, hgrows₂⟩
  unfold getAndCreateMetadataPath createMetadataPath
  rw [if_neg h.known]
  simp only [Option.bind_eq_bind, Option.bind_some, hfirst, hsecond]

end Capio.Server
