import Capio.Server.EngineSetters
import Capio.Server.HashOrder

/-! Who is a producer of a path before and after `addProducer`, which may make the first entry of
the path's own name. -/
namespace Capio.Server
open Library CapioCLEngine

namespace CapioCLEngine

/-- The entry at which `isProducer` stops for a path without an entry. -/
def firstMatching (engine : CapioCLEngine) (path : CString) : Option (Σ _ : CString, Location) :=
  engine.locations.entries.find? (fun entry => matchGlobs entry.1 path = some true)

/-- `addProducer` returns; nobody loses the role for the path, the application gains it, and the
other entries are as before. -/
structure RolesKept (engine engine' : CapioCLEngine) (clients : ClientManager)
    (path application : CString) : Prop where
  kept : ∀ pid, engine.isProducer clients path pid = some true →
    engine'.isProducer clients path pid = some true
  gained : ∀ pid, clients.getAppName pid = some application →
    engine'.isProducer clients path pid = some true
  others : ∀ q ∈ engine.locations, q ≠ path → ∀ pid,
    engine'.isProducer clients q pid = engine.isProducer clients q pid

def CreateKeepsRoles (engine : CapioCLEngine) (clients : ClientManager)
    (path application : CString) : Prop :=
  ∃ engine', engine.addProducer path application = some engine' ∧
    RolesKept engine engine' clients path application

/-- No connected application has the role through a pattern alone, except the one that gets it. -/
structure NoPatternRole (engine : CapioCLEngine) (clients : ClientManager)
    (path application : CString) : Prop where
  returns : path ∉ engine.locations → ¬ engine.GlobThrows path
  pattern : path ∉ engine.locations → ∀ entry, engine.firstMatching path = some entry →
    ∀ pid name, clients.getAppName pid = some name → name ∈ entry.2.producers →
      name = withoutSpaces application
  named : ∀ pid, clients.getAppName pid = some application →
    (∀ c ∈ application, isSpace c = false) ∨
      ∃ location, engine.locations.lookup path = some location ∧ application ∈ location.producers

variable {engine engine' : CapioCLEngine} {clients : ClientManager} {path application q : CString}
  {pid : Tid}

theorem withoutSpaces_eq_iff : withoutSpaces application = application ↔
    ∀ c ∈ application, isSpace c = false := by
  rw [withoutSpaces, List.filter_eq_self]
  simp only [Bool.not_eq_true']

/-- With an entry, its list decides. -/
theorem isProducer_entry_iff {location : Location} (h : engine.locations.lookup q = some location) :
    engine.isProducer clients q pid = some true ↔
      ∃ name, clients.getAppName pid = some name ∧ name ∈ location.producers := by
  rw [isProducer, h]
  cases clients.getAppName pid with
  | none => simp
  | some name => simp

theorem globProducer_returns {name : CString} {entries : List (Σ _ : CString, Location)}
    (h : ∀ entry ∈ entries, matchGlobs entry.1 path ≠ none) :
    globProducer path name entries = some true ↔
      ∃ entry, entries.find? (fun entry => matchGlobs entry.1 path = some true) = some entry ∧
        name ∈ entry.2.producers := by
  induction entries with
  | nil => simp [globProducer]
  | cons entry entries ih =>
    obtain ⟨hentry, hentries⟩ := List.forall_mem_cons.mp h
    obtain ⟨isMatch, hmatch⟩ := Option.ne_none_iff_exists'.mp hentry
    rw [globProducer, List.find?_cons, hmatch]
    cases isMatch with
    | true => simp
    | false => exact ih hentries

/-- Without one, the first pattern that matches does. -/
theorem isProducer_pattern_iff (h : path ∉ engine.locations) (hglob : ¬ engine.GlobThrows path) :
    engine.isProducer clients path pid = some true ↔ ∃ name, clients.getAppName pid = some name ∧
      ∃ entry, engine.firstMatching path = some entry ∧ name ∈ entry.2.producers := by
  have hentries : ∀ entry ∈ engine.locations.entries, matchGlobs entry.1 path ≠ none :=
    fun entry hmem hnone => hglob ⟨entry.1, AList.mem_keys.mpr (List.mem_map_of_mem hmem), hnone⟩
  rw [isProducer, AList.lookup_eq_none.mpr h]
  cases clients.getAppName pid with
  | none => simp
  | some name =>
    simp only [Option.bind_eq_bind, Option.bind_some, Option.some.injEq, exists_eq_left',
      globProducer_returns hentries]
    rfl

theorem isProducer_congr (h : engine'.locations.lookup q = engine.locations.lookup q)
    (hq : q ∈ engine.locations) :
    engine'.isProducer clients q pid = engine.isProducer clients q pid := by
  obtain ⟨location, hl⟩ := Option.isSome_iff_exists.mp (AList.lookup_isSome.mpr hq)
  rw [isProducer, isProducer, h, hl]

/-! ### What `addProducer` writes -/

/-- The producers that the path's own entry lists. -/
def ownProducers (engine : CapioCLEngine) (path : CString) : List CString :=
  (engine.locations.lookup path).elim [] Location.producers

theorem addProducer_throws (h : path ∉ engine.locations) (hglob : engine.GlobThrows path) :
    engine.addProducer path application = none := by
  rw [addProducer, newFile_throws h hglob]
  rfl

/-- `newFile` makes an entry where there is none, without producers. -/
theorem newFile_writes (h : path ∉ engine.locations → ¬ engine.GlobThrows path) :
    ∃ engine' location, engine.newFile path = some engine' ∧
      engine'.locations.lookup path = some location ∧
      location.producers = engine.ownProducers path ∧
      ∀ q, q ≠ path → engine'.locations.lookup q = engine.locations.lookup q := by
  by_cases hmem : path ∈ engine.locations
  · obtain ⟨location, hl⟩ := Option.isSome_iff_exists.mp (AList.lookup_isSome.mpr hmem)
    refine ⟨engine, location, newFile_of_mem hmem, hl, ?_, fun _ _ => rfl⟩
    rw [ownProducers, hl]
    rfl
  · obtain ⟨engine', hnew, hlookup, hothers⟩ := newFile_lookup hmem (h hmem)
    refine ⟨engine', _, hnew, hlookup, ?_, hothers⟩
    rw [ownProducers, AList.lookup_eq_none.mpr hmem]
    rfl

/-- The entry is there afterwards and lists one more producer. -/
theorem addProducer_writes (application : CString)
    (h : path ∉ engine.locations → ¬ engine.GlobThrows path) :
    ∃ engine' location, engine.addProducer path application = some engine' ∧
      engine'.locations.lookup path = some location ∧
      location.producers = engine.ownProducers path ++ [withoutSpaces application] ∧
      ∀ q, q ≠ path → engine'.locations.lookup q = engine.locations.lookup q := by
  obtain ⟨made, location, hnew, hl, hproducers, hothers⟩ := newFile_writes h
  refine ⟨⟨made.locations.insert path { location with
    producers := location.producers ++ [withoutSpaces application] }⟩, _, ?_,
    AList.lookup_insert _, ?_, fun q hq => ?_⟩
  · rw [addProducer, hnew, Option.bind_eq_bind, Option.bind_some, hl]
    rfl
  · rw [hproducers]
  · exact (AList.lookup_insert_ne hq).trans (hothers q hq)

/-! ### Who keeps the role -/

theorem mem_ownProducers_iff {name : CString} : name ∈ engine.ownProducers path ↔
    ∃ location, engine.locations.lookup path = some location ∧ name ∈ location.producers := by
  rw [ownProducers]
  cases engine.locations.lookup path with
  | none => simp
  | some location => simp

theorem ownProducers_fresh (h : path ∉ engine.locations) : engine.ownProducers path = [] := by
  rw [ownProducers, AList.lookup_eq_none.mpr h]
  rfl

/-- The role is kept by everybody exactly when no connected application has it through a pattern
alone and the name is stored as it is asked for. -/
theorem create_keeps_roles_iff (engine : CapioCLEngine) (clients : ClientManager)
    (path application : CString) :
    engine.CreateKeepsRoles clients path application ↔
      engine.NoPatternRole clients path application := by
  by_cases hthrows : path ∉ engine.locations ∧ engine.GlobThrows path
  · refine iff_of_false ?_ fun hroles => hroles.returns hthrows.1 hthrows.2
    rintro ⟨engine', hadd, _⟩
    rw [addProducer_throws hthrows.1 hthrows.2] at hadd
    cases hadd
  · have hreturns : path ∉ engine.locations → ¬ engine.GlobThrows path :=
      fun hmem hglob => hthrows ⟨hmem, hglob⟩
    obtain ⟨engine', location, hadd, hl, hproducers, hothers⟩ :=
      addProducer_writes application hreturns
    have hafter (pid : Tid) : engine'.isProducer clients path pid = some true ↔
        ∃ name, clients.getAppName pid = some name ∧
          (name ∈ engine.ownProducers path ∨ name = withoutSpaces application) := by
      rw [isProducer_entry_iff hl, hproducers]
      simp only [List.mem_append, List.mem_singleton]
    have hothers' : ∀ q ∈ engine.locations, q ≠ path → ∀ pid,
        engine'.isProducer clients q pid = engine.isProducer clients q pid :=
      fun q hq hne pid => isProducer_congr (hothers q hne) hq
    constructor
    · rintro ⟨engine'', hadd', hkept, hgained, _⟩
      obtain rfl := Option.some.inj (hadd.symm.trans hadd')
      refine ⟨hreturns, fun hmem entry hentry pid name hname hlisted => ?_, fun pid hname => ?_⟩
      · have hbefore := (isProducer_pattern_iff hmem (hreturns hmem)).mpr
          ⟨name, hname, entry, hentry, hlisted⟩
        obtain ⟨name', hname', hrole⟩ := (hafter pid).mp (hkept pid hbefore)
        obtain rfl := Option.some.inj (hname.symm.trans hname')
        exact hrole.resolve_left (ownProducers_fresh hmem ▸ List.not_mem_nil)
      · obtain ⟨name', hname', hrole⟩ := (hafter pid).mp (hgained pid hname)
        obtain rfl := Option.some.inj (hname.symm.trans hname')
        rw [← withoutSpaces_eq_iff, ← mem_ownProducers_iff, eq_comm, or_comm]
        exact hrole
    · intro hroles
      refine ⟨engine', hadd, fun pid hbefore => (hafter pid).mpr ?_,
        fun pid hname => (hafter pid).mpr ⟨application, hname, ?_⟩, hothers'⟩
      · by_cases hmem : path ∈ engine.locations
        · obtain ⟨before, hbeforel⟩ := Option.isSome_iff_exists.mp (AList.lookup_isSome.mpr hmem)
          obtain ⟨name, hname, hlisted⟩ := (isProducer_entry_iff hbeforel).mp hbefore
          exact ⟨name, hname, .inl (mem_ownProducers_iff.mpr ⟨before, hbeforel, hlisted⟩)⟩
        · obtain ⟨name, hname, entry, hentry, hlisted⟩ :=
            (isProducer_pattern_iff hmem (hreturns hmem)).mp hbefore
          exact ⟨name, hname, .inr (hroles.pattern hmem entry hentry pid name hname hlisted)⟩
      · have hnamed := hroles.named pid hname
        rw [← withoutSpaces_eq_iff, ← mem_ownProducers_iff, eq_comm, or_comm] at hnamed
        exact hnamed

/-- Two applications write the files of one pattern. -/
def sharedPattern : CapioCLEngine :=
  ⟨(∅ : UnorderedMap CString Location).insert "/c/a*".toList { freshLocation defaultRules with
    producers := ["w".toList, "v".toList] }⟩

/-- The first of them to create a file takes the role from the other. -/
theorem create_takes_role : ¬ ∀ (engine : CapioCLEngine) (clients : ClientManager)
    (path application : CString), engine.CreateKeepsRoles clients path application := by
  intro hall
  obtain ⟨engine', hadd, hkept, _⟩ := hall sharedPattern
    ((ClientManager.initial.registerNewClient 1 "w".toList).registerNewClient 2 "v".toList)
    "/c/a1".toList "v".toList
  have hafter : (sharedPattern.addProducer "/c/a1".toList "v".toList).map (fun engine =>
      engine.isProducer ((ClientManager.initial.registerNewClient 1 "w".toList).registerNewClient 2
        "v".toList) "/c/a1".toList 1) = some (some false) := by decide
  rw [hadd, Option.map_some, hkept 1 (by decide)] at hafter
  exact absurd hafter (by decide)

end CapioCLEngine
end Capio.Server
