import Capio.Server.ConfigScript

/-! What a run of updates leaves: which paths have an entry, what stands in it, and where the run
throws. -/
namespace Capio.Server
open Library CapioCLEngine

def Update.created : Update → Option CString
  | .create path => some path
  | _ => none

/-- The paths that the updates name with `newFile`. -/
def named (us : List Update) : List CString := us.filterMap Update.created

theorem named_concat (us : List Update) (u : Update) :
    named (us ++ [u]) = named us ++ u.created.toList := by
  unfold named
  rw [List.filterMap_append]
  cases h : u.created <;> simp [h]

theorem created_eq_some_iff {u : Update} {path : CString} :
    u.created = some path ↔ u = .create path := by
  cases u <;> simp [Update.created]

theorem mem_named_iff {us : List Update} {path : CString} :
    path ∈ named us ↔ .create path ∈ us := by
  unfold named
  rw [List.mem_filterMap]
  constructor
  · intro ⟨u, hu, hpath⟩
    exact created_eq_some_iff.mp hpath ▸ hu
  · exact fun h => ⟨_, h, rfl⟩

/-! ### One update -/

/-- The entry that an update writes to. -/
def Update.target : Update → Option CString
  | .consumer path _ | .producer path _ | .streaming path _ | .permanent path | .exclude path =>
    some path
  | .create _ | .halt _ => none

theorem Update.write_of_ne {u : Update} {path : CString} (h : u.target ≠ some path) :
    u.write path = fun l => l := by
  funext l
  cases u with
  | create _ | halt _ => rfl
  | consumer p _ | producer p _ | streaming p _ | permanent p | exclude p =>
    exact if_neg fun heq => h (congrArg some heq)

/-- What an update may have written to an entry. -/
theorem Update.write_cases {path : CString} {l : Location} (P : Location → Prop) (u : Update)
    (same : P l)
    (consumer : ∀ appName, P { l with consumers := l.consumers ++ [withoutSpaces appName] })
    (producer : ∀ appName, P { l with producers := l.producers ++ [withoutSpaces appName] })
    (streaming : ∀ rules, u = .streaming path rules → P (rules.assign l))
    (permanent : u = .permanent path → P { l with permanent := true })
    (exclude : u = .exclude path → P { l with exclude := true }) : P (u.write path l) := by
  by_cases htarget : u.target = some path
  · cases u with
    | create _ | halt _ => exact same
    | consumer p appName =>
      simp only [Update.write, Option.some.inj htarget, if_true]
      exact consumer appName
    | producer p appName =>
      simp only [Update.write, Option.some.inj htarget, if_true]
      exact producer appName
    | streaming p rules =>
      simp only [Update.write, Option.some.inj htarget, if_true]
      exact streaming rules (by rw [Option.some.inj htarget])
    | permanent p =>
      simp only [Update.write, Option.some.inj htarget, if_true]
      exact permanent (by rw [Option.some.inj htarget])
    | exclude p =>
      simp only [Update.write, Option.some.inj htarget, if_true]
      exact exclude (by rw [Option.some.inj htarget])
  · rwa [Update.write_of_ne htarget]

theorem orThrow_eq_ok_iff {α : Type} {result : Option α} {a : α} :
    orThrow result = .ok a ↔ result = some a := by
  cases result <;> simp [orThrow]

theorem Update.run_of_target {engine engine' : CapioCLEngine} {u : Update} {path : CString}
    (htarget : u.target = some path) (h : u.run engine = .ok engine') :
    engine' = engine.update path (u.write path) := by
  cases u with
  | create _ | halt _ => cases htarget
  | streaming p rules =>
    obtain rfl : p = path := Option.some.inj htarget
    unfold Update.run at h
    dsimp only at h
    split_ifs at h
    exact (Except.ok.inj h).symm
  | consumer p _ | producer p _ | permanent p | exclude p =>
    obtain rfl : p = path := Option.some.inj htarget
    exact (Except.ok.inj h).symm

/-- Everything a successful update does to the table. -/
structure Update.Effect (u : Update) (engine engine' : CapioCLEngine) : Prop where
  mem : ∀ path, path ∈ engine'.locations ↔ u.created = some path ∨ path ∈ engine.locations
  kept : ∀ path l, engine.locations.lookup path = some l →
    engine'.locations.lookup path = some (u.write path l)
  fresh : ∀ path, u.created = some path → path ∉ engine.locations →
    ∃ rules, engine'.locations.lookup path = some (freshLocation rules)

theorem Update.run_effect {engine engine' : CapioCLEngine} {u : Update}
    (h : u.run engine = .ok engine') : u.Effect engine engine' := by
  cases htarget : u.target with
  | some target =>
    have hnot : u.created = none := by
      cases u <;> simp_all [Update.target, Update.created]
    obtain rfl := Update.run_of_target htarget h
    refine ⟨fun path => ?_, fun path l hl => ?_, fun path hcreated => ?_⟩
    · rw [mem_update, hnot]
      simp
    · rw [lookup_update]
      split_ifs with heq
      · rw [← heq, hl]
        rfl
      · have hwrite : u.write path = fun l => l := Update.write_of_ne fun hsome =>
          heq (Option.some.inj (htarget.symm.trans hsome)).symm
        rw [hl, hwrite]
    · rw [hnot] at hcreated
      cases hcreated
  | none =>
    cases u with
    | create p =>
      have hspec := newFile_spec (orThrow_eq_ok_iff.mp h)
      refine ⟨fun path => ?_, fun path l hl => ?_, fun path hcreated hmem => ?_⟩
      · rw [hspec.1, Update.created, Option.some.injEq, eq_comm]
      · have hmem : path ∈ engine.locations := by
          rw [← AList.lookup_isSome, hl]
          rfl
        rw [hspec.2.1 path (.inl hmem), hl]
        rfl
      · obtain rfl : p = path := Option.some.inj hcreated
        exact hspec.2.2 hmem
    | halt stop => cases h
    | consumer _ _ | producer _ _ | streaming _ _ | permanent _ | exclude _ => cases htarget

/-- The update throws after those before it. -/
def Throws (before : List Update) : Update → Prop
  | .create path => path ∉ named before ∧ ∃ filename ∈ named before, matchGlobs filename path = none
  | .streaming path _ => path ∉ named before
  | .halt .thrown => True
  | _ => False

theorem Update.run_thrown_iff {engine : CapioCLEngine} {before : List Update} {u : Update}
    (hnamed : ∀ path, path ∈ engine.locations ↔ path ∈ named before) :
    u.run engine = .error .thrown ↔ Throws before u := by
  cases u with
  | create path =>
    have hsome : orThrow (engine.newFile path) = .error .thrown ↔
        ¬ ∃ engine', engine.newFile path = some engine' := by
      cases engine.newFile path <;> simp [orThrow]
    have hglob : engine.GlobThrows path ↔
        ∃ filename ∈ named before, matchGlobs filename path = none := by
      simp only [GlobThrows, hnamed]
    change orThrow (engine.newFile path) = .error .thrown ↔ _
    rw [hsome, newFile_isSome_iff, hnamed, hglob, not_or, not_not]
    rfl
  | streaming path rules =>
    change (if path ∈ engine.locations then _ else _) = _ ↔ path ∉ named before
    rw [← hnamed]
    split_ifs with hmem <;> simp [hmem]
  | halt stop =>
    cases stop with
    | thrown => exact iff_of_true rfl trivial
    | errExit message => exact iff_of_false (fun h => by cases h) id
  | consumer _ _ | producer _ _ | permanent _ | exclude _ =>
    exact iff_of_false (fun h => by cases h) id

theorem Update.run_errExit {engine : CapioCLEngine} {u : Update} {message : CString}
    (h : u.run engine = .error (.errExit message)) : u = .halt (.errExit message) := by
  cases u with
  | create path =>
    change orThrow (engine.newFile path) = _ at h
    cases hnew : engine.newFile path <;> rw [hnew] at h <;> cases h
  | streaming path rules =>
    change (if path ∈ engine.locations then _ else _) = _ at h
    split_ifs at h
    cases h
  | halt stop => exact congrArg Update.halt (Except.error.inj h)
  | consumer _ _ | producer _ _ | permanent _ | exclude _ => cases h

/-! ### A run from the empty table -/

/-- The updates run to the end, each on the table in some order. -/
inductive RunsTo : List Update → CapioCLEngine → Prop
  | start : RunsTo [] ⟨∅⟩
  | step {us : List Update} {u : Update} {m m₁ m' : CapioCLEngine} : RunsTo us m →
      UnorderedMap.Reordered m.locations m₁.locations → u.run m₁ = .ok m' → RunsTo (us ++ [u]) m'

theorem Update.effect_reordered {u : Update} {m m₁ m' : CapioCLEngine}
    (horder : UnorderedMap.Reordered m.locations m₁.locations) (h : u.run m₁ = .ok m') :
    u.Effect m m' := by
  have heffect := Update.run_effect h
  refine ⟨fun path => ?_, fun path l hl => ?_, fun path hcreated hmem => ?_⟩
  · rw [heffect.mem, horder.mem]
  · exact heffect.kept path l ((horder.lookup path).trans hl)
  · exact heffect.fresh path hcreated fun hmem₁ => hmem ((horder.mem path).mp hmem₁)

section Runs
variable {us before after : List Update} {engine : CapioCLEngine}

/-- The run of the model is one of them. -/
theorem RunsTo.of_runScript (h : runScript Update.run us ⟨∅⟩ = .ok engine) : RunsTo us engine :=
  runScript_invariant RunsTo .start (fun _ _ _ _ hm hu => hm.step (List.Perm.refl _) hu) h

theorem RunsTo.mem_iff (h : RunsTo us engine) (path : CString) :
    path ∈ engine.locations ↔ path ∈ named us := by
  induction h with
  | start => simp [named, AList.mem_keys]
  | step _ horder hu ih =>
    rw [(Update.effect_reordered horder hu).mem, ih, named_concat, List.mem_append,
      Option.mem_toList, or_comm]

theorem RunsTo.no_halt (h : RunsTo us engine) (stop : Stop) : .halt stop ∉ us := by
  induction h with
  | start => exact List.not_mem_nil
  | step _ _ hu ih =>
    intro hmem
    rcases List.mem_append.mp hmem with hmem | hmem
    · exact ih hmem
    · rw [← List.mem_singleton.mp hmem] at hu
      cases hu

/-- The run before one of its updates. -/
theorem RunsTo.split {u : Update} (h : RunsTo us engine) (heq : us = before ++ u :: after) :
    ∃ m m₁ m', RunsTo before m ∧ UnorderedMap.Reordered m.locations m₁.locations ∧
      u.run m₁ = .ok m' := by
  induction h generalizing after with
  | start => cases before <;> cases heq
  | @step us v m m₁ m' hm horder hu ih =>
    cases after using List.reverseRecOn with
    | nil =>
      obtain ⟨rfl, hlast⟩ := List.append_inj' heq rfl
      cases hlast
      exact ⟨m, m₁, m', hm, horder, hu⟩
    | append_singleton after w =>
      rw [← List.cons_append, ← List.append_assoc] at heq
      exact ih (List.append_inj' heq rfl).1

theorem runScript_named (h : runScript Update.run us ⟨∅⟩ = .ok engine) :
    ∀ path, path ∈ engine.locations ↔ path ∈ named us :=
  (RunsTo.of_runScript h).mem_iff

theorem runScript_no_halt (h : runScript Update.run us ⟨∅⟩ = .ok engine) (stop : Stop) :
    .halt stop ∉ us :=
  (RunsTo.of_runScript h).no_halt stop

/-- The run throws at an update that no failed check comes before. -/
theorem runScript_thrown_iff : runScript Update.run us ⟨∅⟩ = .error .thrown ↔
    ∃ before u after, us = before ++ u :: after ∧ (∀ message, .halt (.errExit message) ∉ before) ∧
      Throws before u := by
  constructor
  · intro h
    obtain ⟨before, u, after, m, hus, hm, hu⟩ := runScript_error_iff.mp h
    exact ⟨before, u, after, hus, fun message => runScript_no_halt hm _,
      (Update.run_thrown_iff (runScript_named hm)).mp hu⟩
  · intro ⟨before, u, after, hus, hcheck, hthrows⟩
    cases hbefore : runScript Update.run before ⟨∅⟩ with
    | ok m =>
      exact runScript_error_iff.mpr ⟨before, u, after, m, hus, hbefore,
        (Update.run_thrown_iff (runScript_named hbefore)).mpr hthrows⟩
    | error stop =>
      obtain ⟨first, v, rest, m, rfl, hm, hv⟩ := runScript_error_iff.mp hbefore
      cases stop with
      | thrown =>
        exact runScript_error_iff.mpr ⟨first, v, rest ++ u :: after, m, by simp [hus], hm, hv⟩
      | errExit message =>
        exact absurd (by simp [Update.run_errExit hv]) (hcheck message)

end Runs

/-! ### What a run keeps of one entry -/

/-- A path has one entry. -/
theorem holds_of_lookup {engine : CapioCLEngine} {path : CString} {l : Location}
    {Q : Location → Prop} (hl : engine.locations.lookup path = some l)
    (h : ∃ l', engine.locations.lookup path = some l' ∧ Q l') : Q l := by
  obtain ⟨l', hl', hq⟩ := h
  rw [hl, Option.some.injEq] at hl'
  exact hl' ▸ hq

section Entry
variable {us : List Update} {engine : CapioCLEngine} {path : CString} (Q : Location → Prop)

/-- A property that only updates of one kind can bring about. -/
theorem RunsTo.brought (Brings : Update → Prop) (hfresh : ∀ rules, ¬ Q (freshLocation rules))
    (hwrite : ∀ (u : Update) (l : Location), ¬ Brings u → Q (u.write path l) → Q l)
    (h : RunsTo us engine) {l : Location}
    (hl : engine.locations.lookup path = some l) (hq : Q l) : ∃ u ∈ us, Brings u := by
  induction h generalizing l with
  | start => cases hl
  | @step us u m m₁ m' _ horder hu ih =>
    by_cases hbrings : Brings u
    · exact ⟨u, by simp, hbrings⟩
    · have heffect := Update.effect_reordered horder hu
      cases hml : m.locations.lookup path with
      | some l' =>
        rw [heffect.kept path l' hml, Option.some.injEq] at hl
        obtain ⟨u', hu', hbrings'⟩ := ih hml (hwrite u l' hbrings (hl ▸ hq))
        exact ⟨u', List.mem_append_left _ hu', hbrings'⟩
      | none =>
        have hmem : path ∉ m.locations := AList.lookup_eq_none.mp hml
        have hcreated : u.created = some path := by
          have hin : path ∈ m'.locations := by
            rw [← AList.lookup_isSome, hl]
            rfl
          exact ((heffect.mem path).mp hin).resolve_right hmem
        obtain ⟨rules, hrules⟩ := heffect.fresh path hcreated hmem
        rw [hrules, Option.some.injEq] at hl
        exact absurd (hl ▸ hq) (hfresh rules)

theorem runScript_brought (Brings : Update → Prop) (hfresh : ∀ rules, ¬ Q (freshLocation rules))
    (hwrite : ∀ (u : Update) (l : Location), ¬ Brings u → Q (u.write path l) → Q l)
    (h : runScript Update.run us ⟨∅⟩ = .ok engine) {l : Location}
    (hl : engine.locations.lookup path = some l) (hq : Q l) : ∃ u ∈ us, Brings u :=
  RunsTo.brought Q Brings hfresh hwrite (RunsTo.of_runScript h) hl hq

/-- A property that `u₀` brings about and no update takes away. -/
theorem runScript_kept {before after : List Update} {u₀ : Update}
    (hset : ∀ l, Q (u₀.write path l)) (hkeep : ∀ (u : Update) (l : Location), Q l → Q (u.write path l))
    (hnamed : path ∈ named before)
    (h : runScript Update.run (before ++ u₀ :: after) ⟨∅⟩ = .ok engine) :
    ∃ l, engine.locations.lookup path = some l ∧ Q l := by
  obtain ⟨m, hbefore, hrest⟩ := runScript_append_ok_iff.mp h
  obtain ⟨m', hu₀, hafter⟩ := runScript_cons_ok_iff.mp hrest
  have hmem := (runScript_named hbefore path).mpr hnamed
  obtain ⟨l, hl⟩ := Option.isSome_iff_exists.mp (AList.lookup_isSome.mpr hmem)
  refine runScript_invariant (fun _ engine => ∃ l, engine.locations.lookup path = some l ∧ Q l)
    ⟨_, (Update.run_effect hu₀).kept path l hl, hset l⟩ (fun _ n u n' ⟨l', hl', hq⟩ hu => ?_) hafter
  exact ⟨_, (Update.run_effect hu).kept path l' hl', hkeep u l' hq⟩

end Entry

end Capio.Server
