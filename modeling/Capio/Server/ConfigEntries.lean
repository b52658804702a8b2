import Capio.Server.HashOrder
import Capio.Server.ParseSurvival

/-! What a completed run leaves in one entry: the rules inherited when the entry is made and what
the updates write to it from then on. -/
namespace Capio.Server
open Library CapioCLEngine

/-- No update of the run fails. -/
structure Completes (us : List Update) : Prop where
  noHalt : ∀ stop, .halt stop ∉ us
  noThrow : ∀ before u after, us = before ++ u :: after → ¬ Throws before u

/-- The updates from the one that makes the entry. -/
def since (path : CString) (us : List Update) : List Update :=
  us.dropWhile (fun u => u.created ≠ some path)

/-- A directory of the streaming entries so far that the glob comparison accepts for the path. -/
structure Offers (before : List Update) (path directory : CString) (rules : StreamingRules) : Prop where
  accepted : matchGlobs directory path = some true
  last : lastRules directory (before.filterMap Update.written) = some rules
  isDirectory : rules.isFile = false

/-- The rules of a longest directory so far, or the defaults. -/
inductive InheritsAt (before : List Update) (path : CString) : CString × CString → Prop
  | directory {directory : CString} {rules : StreamingRules} :
      Offers before path directory rules →
      (∀ other rules', Offers before path other rules' → other.length ≤ directory.length) →
      InheritsAt before path (rules.commitRule, rules.fireRule)
  | default : (∀ directory rules, ¬ Offers before path directory rules) →
      InheritsAt before path (capioFileCommittedOnTermination, capioFileModeUpdate)

/-- The commit and fire rules that the path may inherit when the updates make its entry. -/
def Inherits (us : List Update) (path : CString) (inherited : CString × CString) : Prop :=
  ∃ before after, us = before ++ .create path :: after ∧ path ∉ named before ∧
    InheritsAt before path inherited

/-- What the updates leave of an entry. -/
def writeAll (path : CString) (us : List Update) (l : Location) : Location :=
  us.foldl (fun l u => u.write path l) l

/-! ### Completed runs -/

section Runs
variable {us before after : List Update} {engine : CapioCLEngine} {path : CString}

theorem RunsTo.completes (h : RunsTo us engine) : Completes us := by
  refine ⟨h.no_halt, fun before u after heq hthrows => ?_⟩
  obtain ⟨m, m₁, m', hm, horder, hu⟩ := h.split heq
  have hnamed (path : CString) : path ∈ m₁.locations ↔ path ∈ named before :=
    (horder.mem path).trans (hm.mem_iff path)
  rw [(Update.run_thrown_iff hnamed).mpr hthrows] at hu
  cases hu

/-- From a table with the entries named so far the rest of the updates does not fail. -/
theorem Completes.run_from (h : Completes us) (heq : us = before ++ after)
    (hnamed : ∀ path, path ∈ engine.locations ↔ path ∈ named before) :
    ∃ engine', runScript Update.run after engine = .ok engine' := by
  induction after generalizing before engine with
  | nil => exact ⟨engine, rfl⟩
  | cons u after ih =>
    cases hu : u.run engine with
    | error stop =>
      cases stop with
      | errExit message =>
        have hhalt := Update.run_errExit hu
        subst hhalt
        exact absurd (by simp [heq]) (h.noHalt (.errExit message))
      | thrown => exact absurd ((Update.run_thrown_iff hnamed).mp hu) (h.noThrow before u after heq)
    | ok m =>
      have heq' : us = (before ++ [u]) ++ after := by simp [heq]
      obtain ⟨engine', hrun⟩ := ih heq' fun path => by
        rw [(Update.run_effect hu).mem, hnamed, named_concat, List.mem_append, Option.mem_toList,
          or_comm]
      exact ⟨engine', runScript_cons_ok_iff.mpr ⟨m, hu, hrun⟩⟩

theorem completes_iff : Completes us ↔ ∃ engine, runScript Update.run us ⟨∅⟩ = .ok engine := by
  constructor
  · exact fun h => h.run_from (List.nil_append us).symm fun path => by simp [named, AList.mem_keys]
  · rintro ⟨engine, hrun⟩
    exact (RunsTo.of_runScript hrun).completes

theorem RunsTo.append (h : RunsTo before engine) {engine' : CapioCLEngine}
    (hrun : runScript Update.run after engine = .ok engine') :
    RunsTo (before ++ after) engine' := by
  refine runScript_invariant (fun us m => RunsTo (before ++ us) m) ?_ (fun us m u m' hm hu => ?_) hrun
  · rw [List.append_nil]
    exact h
  · rw [← List.append_assoc]
    exact hm.step (List.Perm.refl _) hu

/-- The first update that makes the entry. -/
theorem exists_first_create (h : path ∈ named us) :
    ∃ before after, us = before ++ .create path :: after ∧ path ∉ named before := by
  rw [mem_named_iff] at h
  obtain ⟨before, after, hus, hnot⟩ := List.eq_append_cons_of_mem h
  exact ⟨before, after, hus, fun hmem => hnot (mem_named_iff.mp hmem)⟩

theorem since_eq (h : path ∉ named before) :
    since path (before ++ .create path :: after) = .create path :: after := by
  rw [since, List.dropWhile_append_of_pos]
  · rw [List.dropWhile_cons_of_neg]
    simp [Update.created]
  · intro u hu
    rw [decide_eq_true_eq]
    intro hcreated
    rw [created_eq_some_iff.mp hcreated] at hu
    exact h (mem_named_iff.mpr hu)

/-- Further updates write to the entry. -/
theorem runScript_writes {l : Location} (hl : engine.locations.lookup path = some l)
    {engine' : CapioCLEngine} (h : runScript Update.run us engine = .ok engine') :
    engine'.locations.lookup path = some (writeAll path us l) := by
  refine runScript_invariant (fun us e => e.locations.lookup path = some (writeAll path us l)) hl
    (fun us m u m' hm hu => ?_) h
  rw [(Update.run_effect hu).kept path _ hm, writeAll, writeAll, List.foldl_append]
  rfl

/-! ### What a new entry inherits -/

section Inheritance
variable {m : CapioCLEngine} (h : RunsTo before m)
  (horder : UnorderedMap.Reordered m.locations engine.locations)
include h horder

theorem has_reordered {rules : StreamingRules}
    (hlast : lastRules path (before.filterMap Update.written) = some rules) :
    ∃ l, engine.locations.lookup path = some l ∧ l.Has rules := by
  obtain ⟨l, hl, hhas⟩ := h.has path rules hlast
  exact ⟨l, (horder.lookup path).trans hl, hhas⟩

/-- A directory of the table is one whose last streaming entry says so. -/
theorem matchesDirectory_iff_offers (directory : CString) : (directory ∈ engine.locations ∧
    engine.matchesDirectory path directory = true) ↔ ∃ rules, Offers before path directory rules := by
  rw [matchesDirectory, Bool.and_eq_true, decide_eq_true_eq, isDirectory, isFile]
  constructor
  · rintro ⟨hmem, haccepted, hdir⟩
    obtain ⟨l, hl⟩ := Option.isSome_iff_exists.mp (AList.lookup_isSome.mpr hmem)
    rw [hl, Bool.not_eq_true'] at hdir
    -- an entry that is no file has been streamed
    obtain ⟨rules, hlast⟩ := h.exists_lastRules (fun l => l.isFile = false)
      (fun _ => Bool.false_ne_true.symm) (fun l l' hsame hq => hsame.isFile ▸ hq)
      ((horder.lookup directory).symm.trans hl) hdir
    have hhas := holds_of_lookup hl (has_reordered h horder hlast)
    exact ⟨rules, haccepted, hlast, hhas.isFile ▸ hdir⟩
  · rintro ⟨rules, haccepted, hlast, hdir⟩
    obtain ⟨l, hl, hhas⟩ := has_reordered h horder hlast
    have hmem : directory ∈ engine.locations := by
      rw [← AList.lookup_isSome, hl]
      rfl
    rw [hl]
    exact ⟨hmem, haccepted, by simp [hhas.isFile, hdir]⟩

theorem getRules_of_offers {directory : CString} {rules : StreamingRules}
    (hoffers : Offers before path directory rules) :
    engine.getCommitRule directory = rules.commitRule ∧
      engine.getFireRule directory = rules.fireRule := by
  obtain ⟨l, hl, hhas⟩ := has_reordered h horder hoffers.last
  rw [getCommitRule, getFireRule, hl]
  exact ⟨hhas.commitRule, hhas.fireRule⟩

/-- The rules that `newFile` finds after the updates. -/
theorem inheritsAt_inherited :
    InheritsAt before path (engine.inherited path engine.locations.keys).2 := by
  rw [inherited]
  cases hlongest : engine.longestMatch path engine.locations.keys with
  | none =>
    rw [longestMatch, List.argmax_eq_none, List.filter_eq_nil_iff] at hlongest
    refine .default fun directory rules hoffers => ?_
    obtain ⟨hmem, hmatches⟩ := (matchesDirectory_iff_offers h horder directory).mpr ⟨rules, hoffers⟩
    exact hlongest directory (AList.mem_keys.mp hmem) hmatches
  | some directory =>
    have hgreatest := UnorderedMap.greatest_of_argmax hlongest
    obtain ⟨rules, hoffers⟩ := (matchesDirectory_iff_offers h horder directory).mp
      ⟨hgreatest.mem, hgreatest.passes⟩
    obtain ⟨hcommit, hfire⟩ := getRules_of_offers h horder hoffers
    rw [Option.elim_some, ruleOf, hcommit, hfire]
    refine .directory hoffers fun other rules' hother => ?_
    obtain ⟨hmem, hmatches⟩ := (matchesDirectory_iff_offers h horder other).mpr ⟨rules', hother⟩
    exact hgreatest.le other hmem hmatches

end Inheritance

/-- The entry that an update makes has the rules found in the table as it is visited. -/
theorem create_writes {m m' : CapioCLEngine} (hcreate : Update.run m (.create path) = .ok m')
    (hmem : path ∉ m.locations) : m'.locations.lookup path =
      some (freshLocation (0, (m.inherited path m.locations.keys).2)) := by
  have hnew : m.newFile path = some m' := orThrow_eq_ok_iff.mp hcreate
  obtain ⟨made, hmade, hlookup, _⟩ := newFile_lookup hmem (not_globThrows_of_newFile hmem hnew)
  obtain rfl : made = m' := Option.some.inj (hmade.symm.trans hnew)
  exact hlookup

/-- A completed run makes each entry with inherited rules and then writes its updates to it. -/
theorem RunsTo.entry (h : RunsTo us engine) (heq : us = before ++ .create path :: after)
    (hnot : path ∉ named before) :
    ∃ inherited, InheritsAt before path inherited ∧ engine.locations.lookup path =
      some (writeAll path after (freshLocation (0, inherited))) := by
  induction h generalizing after with
  | start => cases before <;> cases heq
  | @step us u m m₁ m' hm horder hu ih =>
    cases after using List.reverseRecOn with
    | nil =>
      obtain ⟨rfl, hlast⟩ := List.append_inj' heq rfl
      obtain rfl := List.singleton_inj.mp hlast
      have hmem : path ∉ m₁.locations := fun hmem =>
        hnot ((hm.mem_iff path).mp ((horder.mem path).mp hmem))
      exact ⟨_, inheritsAt_inherited hm horder, create_writes hu hmem⟩
    | append_singleton after w =>
      rw [← List.cons_append, ← List.append_assoc] at heq
      obtain ⟨rfl, hlast⟩ := List.append_inj' heq rfl
      obtain rfl := List.singleton_inj.mp hlast
      obtain ⟨inherited, hinherits, hl⟩ := ih rfl
      refine ⟨inherited, hinherits, ?_⟩
      rw [(Update.effect_reordered horder hu).kept path _ hl, writeAll, writeAll, List.foldl_append]
      rfl

/-- Whatever a path may inherit, it does inherit from the table in some order. -/
theorem exists_order_inherited {m : CapioCLEngine} (h : RunsTo before m)
    {rules : CString × CString} (hinherits : InheritsAt before path rules) :
    ∃ m₁ : CapioCLEngine, UnorderedMap.Reordered m.locations m₁.locations ∧
      (m₁.inherited path m₁.locations.keys).2 = rules := by
  cases hinherits with
  | default hnone =>
    refine ⟨m, List.Perm.refl _, ?_⟩
    have hfound : InheritsAt before path (m.inherited path m.locations.keys).2 :=
      inheritsAt_inherited h (List.Perm.refl _)
    generalize (m.inherited path m.locations.keys).2 = found at hfound ⊢
    cases hfound with
    | directory hoffers _ => exact absurd hoffers (hnone _ _)
    | default _ => rfl
  | @directory directory rules hoffers hlongest =>
    obtain ⟨hmem, hpasses⟩ := (matchesDirectory_iff_offers h (List.Perm.refl _) directory).mpr
      ⟨rules, hoffers⟩
    have hgreatest : UnorderedMap.Greatest (m.matchesDirectory path) List.length m.locations
        directory := by
      refine ⟨hmem, hpasses, fun other hother hmatches => ?_⟩
      obtain ⟨rules', hoffers'⟩ := (matchesDirectory_iff_offers h (List.Perm.refl _) other).mp
        ⟨hother, hmatches⟩
      exact hlongest other rules' hoffers'
    obtain ⟨table, horder, hmax⟩ := UnorderedMap.exists_order_argmax hgreatest
    have horder' : UnorderedMap.Reordered m.locations (CapioCLEngine.mk table).locations := horder
    refine ⟨⟨table⟩, horder', ?_⟩
    obtain ⟨hcommit, hfire⟩ := getRules_of_offers h horder' hoffers
    rw [inherited, longestMatch, (getters_reordered path horder').1, hmax, Option.elim_some, ruleOf,
      hcommit, hfire]

/-- Whatever a path may inherit, it does inherit on some run. -/
theorem Completes.exists_run (h : Completes us) (heq : us = before ++ .create path :: after)
    (hnot : path ∉ named before) {rules : CString × CString}
    (hinherits : InheritsAt before path rules) :
    ∃ engine, RunsTo us engine ∧ engine.locations.lookup path =
      some (writeAll path after (freshLocation (0, rules))) := by
  obtain ⟨_, hall⟩ := completes_iff.mp h
  rw [heq] at hall
  obtain ⟨m, hbefore, _⟩ := runScript_append_ok_iff.mp hall
  have hm := RunsTo.of_runScript hbefore
  obtain ⟨m₁, horder, hrules⟩ := exists_order_inherited hm hinherits
  have hnamed (p : CString) : p ∈ m₁.locations ↔ p ∈ named before :=
    (horder.mem p).trans (hm.mem_iff p)
  obtain ⟨engine, hrun⟩ := h.run_from heq hnamed
  obtain ⟨m₂, hcreate, hafter⟩ := runScript_cons_ok_iff.mp hrun
  refine ⟨engine, ?_, runScript_writes ?_ hafter⟩
  · have hstep := (hm.step horder hcreate).append hafter
    rw [heq]
    simpa using hstep
  · rw [create_writes hcreate fun hmem => hnot ((hnamed path).mp hmem), hrules]

end Runs

/-! ### The fields that the updates write -/

/-- The producer that an update adds to the entry. -/
def Update.producerFor (path : CString) : Update → Option CString
  | .producer p appName => if p = path then some (withoutSpaces appName) else none
  | _ => none

def Update.consumerFor (path : CString) : Update → Option CString
  | .consumer p appName => if p = path then some (withoutSpaces appName) else none
  | _ => none

section Fields
variable {path : CString} {us : List Update} {l : Location}

private theorem writeAll_cons (u : Update) :
    writeAll path (u :: us) l = writeAll path us (u.write path l) := rfl

private theorem write_lists (u : Update) :
    (u.write path l).producers = l.producers ++ (u.producerFor path).toList ∧
      (u.write path l).consumers = l.consumers ++ (u.consumerFor path).toList := by
  cases u with
  | producer p appName | consumer p appName | streaming p rules | permanent p | exclude p =>
    by_cases hp : p = path
    · simp [Update.write, Update.producerFor, Update.consumerFor, StreamingRules.assign, hp]
    · simp [Update.write, Update.producerFor, Update.consumerFor, hp]
  | create p | halt stop => simp [Update.write, Update.producerFor, Update.consumerFor]

theorem writeAll_producers (us : List Update) (l : Location) :
    (writeAll path us l).producers = l.producers ++ us.filterMap (Update.producerFor path) := by
  induction us generalizing l with
  | nil => simp [writeAll]
  | cons u us ih =>
    rw [writeAll_cons, ih, (write_lists u).1, List.append_assoc, List.filterMap_cons]
    cases u.producerFor path <;> rfl

theorem writeAll_consumers (us : List Update) (l : Location) :
    (writeAll path us l).consumers = l.consumers ++ us.filterMap (Update.consumerFor path) := by
  induction us generalizing l with
  | nil => simp [writeAll]
  | cons u us ih =>
    rw [writeAll_cons, ih, (write_lists u).2, List.append_assoc, List.filterMap_cons]
    cases u.consumerFor path <;> rfl

private theorem write_flags (u : Update) :
    ((u.write path l).permanent = true ↔ l.permanent = true ∨ u = .permanent path) ∧
      ((u.write path l).exclude = true ↔ l.exclude = true ∨ u = .exclude path) := by
  cases u with
  | producer p appName | consumer p appName | streaming p rules | permanent p | exclude p =>
    by_cases hp : p = path
    · simp [Update.write, StreamingRules.assign, hp]
    · simp [Update.write, hp]
  | create p | halt stop => simp [Update.write]

theorem writeAll_flags (us : List Update) (l : Location) :
    ((writeAll path us l).permanent = true ↔ l.permanent = true ∨ .permanent path ∈ us) ∧
      ((writeAll path us l).exclude = true ↔ l.exclude = true ∨ .exclude path ∈ us) := by
  induction us generalizing l with
  | nil => simp [writeAll]
  | cons u us ih =>
    constructor
    · rw [writeAll_cons, (ih _).1, (write_flags u).1, or_assoc, List.mem_cons, eq_comm (a := u)]
    · rw [writeAll_cons, (ih _).2, (write_flags u).2, or_assoc, List.mem_cons, eq_comm (a := u)]

theorem writeAll_concat (us : List Update) (u : Update) (l : Location) :
    writeAll path (us ++ [u]) l = u.write path (writeAll path us l) :=
  List.foldl_append

/-- The last streaming entry gives the rules. -/
theorem writeAll_has {rules : StreamingRules}
    (h : lastRules path (us.filterMap Update.written) = some rules) :
    (writeAll path us l).Has rules := by
  induction us using List.reverseRecOn with
  | nil => cases h
  | append_singleton us u ih =>
    rw [writeAll_concat]
    exact u.write_has h ih

/-- Without a streaming entry the rules stay. -/
theorem writeAll_plain (h : ∀ rules, .streaming path rules ∉ us) (l : Location) :
    (writeAll path us l).SameRules l := by
  induction us using List.reverseRecOn with
  | nil => exact Location.SameRules.refl l
  | append_singleton us u ih =>
    have hu : ∀ rules, u ≠ .streaming path rules := by
      rintro rules rfl
      exact h rules (by simp)
    rw [writeAll_concat]
    exact (u.write_rules hu _).trans (ih fun rules hmem => h rules (List.mem_append_left _ hmem))

/-- The number of files is that of a streaming entry that names one. -/
theorem writeAll_count (us : List Update) (l : Location) :
    (writeAll path us l).directoryFileCount = l.directoryFileCount ∧
        (∀ rules, .streaming path rules ∈ us → rules.nFiles = -1) ∨
      ∃ rules, .streaming path rules ∈ us ∧ rules.nFiles ≠ -1 ∧
        (writeAll path us l).directoryFileCount = rules.nFiles := by
  induction us using List.reverseRecOn with
  | nil => exact .inl ⟨rfl, fun _ h => absurd h List.not_mem_nil⟩
  | append_singleton us u ih =>
    rw [writeAll_concat]
    by_cases hstreams : ∃ rules, u = .streaming path rules ∧ rules.nFiles ≠ -1
    · obtain ⟨rules, rfl, hcount⟩ := hstreams
      exact .inr ⟨rules, by simp, hcount, by simp [Update.write, StreamingRules.assign, hcount]⟩
    · have hkept : (u.write path (writeAll path us l)).directoryFileCount =
          (writeAll path us l).directoryFileCount := by
        by_cases hwritten : ∃ rules, u = .streaming path rules
        · obtain ⟨rules, rfl⟩ := hwritten
          have hnone : rules.nFiles = -1 := by
            by_contra hne
            exact hstreams ⟨rules, rfl, hne⟩
          simp [Update.write, StreamingRules.assign, hnone]
        · exact (u.write_rules (not_exists.mp hwritten) _).directoryFileCount
      rw [hkept]
      rcases ih with ⟨hsame, hall⟩ | ⟨rules, hmem, hne, hsame⟩
      · refine .inl ⟨hsame, fun rules hmem => ?_⟩
        rcases List.mem_append.mp hmem with hmem | hmem
        · exact hall rules hmem
        · by_contra hne
          exact hstreams ⟨rules, (List.mem_singleton.mp hmem).symm, hne⟩
      · exact .inr ⟨rules, List.mem_append_left _ hmem, hne, hsame⟩

end Fields
end Capio.Server
