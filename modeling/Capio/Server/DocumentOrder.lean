import Capio.Server.ConfigEntries

/-! The applications of a workflow in another order: whether `parse` makes the same table of them. -/
namespace Capio.Server
open Library CapioCLEngine

/-- The same workflow with its applications in another order. -/
structure Rearranged (document document' : Workflow) : Prop where
  name : document'.name = document.name
  apps : document'.ioGraph.Perm document.ioGraph
  permanent : document'.permanent = document.permanent
  exclude : document'.exclude = document.exclude

/-- The rules are the same, except that one may leave the number of files open. -/
structure StreamingRules.Agrees (rules rules' : StreamingRules) : Prop where
  isFile : rules.isFile = rules'.isFile
  commitRule : rules.commitRule = rules'.commitRule
  fireRule : rules.fireRule = rules'.fireRule
  nClose : rules.nClose = rules'.nClose
  nFiles : rules.nFiles = -1 ∨ rules'.nFiles = -1 ∨ rules.nFiles = rules'.nFiles
  fileDeps : rules.fileDeps = rules'.fileDeps

/-- No two streaming entries give one path different rules. -/
def NoConflict (env : Env) (document : Workflow) : Prop :=
  ∀ path rules rules', (path, rules) ∈ streamed env document →
    (path, rules') ∈ streamed env document → rules.Agrees rules'

/-- The entries differ in the order of their producers and consumers at most. -/
structure SameEntry (l l' : Location) : Prop where
  producers : l.producers.Perm l'.producers
  consumers : l.consumers.Perm l'.consumers
  commitRule : l.commitRule = l'.commitRule
  fireRule : l.fireRule = l'.fireRule
  permanent : l.permanent = l'.permanent
  exclude : l.exclude = l'.exclude
  isFile : l.isFile = l'.isFile
  commitOnCloseNumber : l.commitOnCloseNumber = l'.commitOnCloseNumber
  directoryFileCount : l.directoryFileCount = l'.directoryFileCount
  fileDependencies : l.fileDependencies = l'.fileDependencies

def SameTables (engine engine' : CapioCLEngine) : Prop :=
  ∀ path, Option.Rel SameEntry (engine.locations.lookup path) (engine'.locations.lookup path)

/-- Two engines with the same entries, or none. -/
inductive SameResult : Except Stop CapioCLEngine → Except Stop CapioCLEngine → Prop
  | engines {engine engine' : CapioCLEngine} :
      SameTables engine engine' → SameResult (.ok engine) (.ok engine')
  | stops {stop stop' : Stop} : SameResult (.error stop) (.error stop')

/-- The parser makes the same table of both documents, also where it visits the table in another
order. -/
structure SameParse (env : Env) (document document' : Workflow) : Prop where
  result : SameResult (parse env (some document)) (parse env (some document'))
  anyOrder : ∀ engine engine', RunsTo (updates env document) engine →
    RunsTo (updates env document') engine' → SameTables engine engine'

/-- The consumers that find the entry of the path. -/
def listedConsumers (path : CString) (us : List Update) : List CString :=
  (since path us).filterMap (Update.consumerFor path)

/-- The order of the updates makes no difference. -/
structure OrderHarmless (us us' : List Update) : Prop where
  completes : Completes us ↔ Completes us'
  inherited : Completes us → ∀ path, (∀ rules, .streaming path rules ∉ us) → ∀ inherited inherited',
    Inherits us path inherited → Inherits us' path inherited' → inherited = inherited'
  consumers : Completes us → ∀ path, (listedConsumers path us).Perm (listedConsumers path us')

/-- What a completed run of a document's updates has put in the entry of a path. -/
structure EntryOf (us : List Update) (path : CString) (inherited : CString × CString)
    (l : Location) : Prop where
  producers : l.producers = us.filterMap (Update.producerFor path)
  consumers : l.consumers = listedConsumers path us
  permanent : l.permanent = true ↔ .permanent path ∈ us
  exclude : l.exclude = true ↔ .exclude path ∈ us
  streamed : ∀ rules, lastRules path (us.filterMap Update.written) = some rules → l.Has rules
  plain : (∀ rules, .streaming path rules ∉ us) → l.isFile = true ∧ l.commitRule = inherited.1 ∧
    l.fireRule = inherited.2 ∧ l.commitOnCloseNumber = -1 ∧ l.fileDependencies = []
  count : l.directoryFileCount = -1 ∧ (∀ rules, .streaming path rules ∈ us → rules.nFiles = -1) ∨
    ∃ rules, .streaming path rules ∈ us ∧ rules.nFiles ≠ -1 ∧ l.directoryFileCount = rules.nFiles

variable {env : Env} {document document' : Workflow} {us us' before after : List Update}
  {path : CString} {engine : CapioCLEngine}

/-! ### Where the updates of a document stand -/

theorem updates_perm (h : Rearranged document document') :
    (updates env document').Perm (updates env document) := by
  unfold updates
  rw [h.name, h.permanent, h.exclude]
  cases document.name with
  | none => exact List.Perm.refl _
  | some name => exact ((h.apps.flatMap_right _).append_right _).cons _

/-- Every producer is added to an entry that has been made for it. -/
def Introduced (us : List Update) : Prop :=
  ∀ before path appName after, us = before ++ .producer path appName :: after →
    .create path ∈ before

theorem Introduced.append (h : Introduced us) (h' : Introduced us') : Introduced (us ++ us') := by
  intro before path appName after heq
  rcases List.append_eq_append_iff.mp heq with ⟨middle, rfl, heq'⟩ | ⟨middle, heq', hrest⟩
  · exact List.mem_append_right _ (h' middle path appName after heq')
  · cases middle with
    | nil =>
      rw [List.append_nil] at heq'
      subst heq'
      exact absurd (h' [] path appName after hrest.symm) List.not_mem_nil
    | cons u middle =>
      obtain ⟨rfl, _⟩ := List.cons.inj hrest
      exact h before path appName middle heq'

theorem Introduced.flatMap {α : Type} {items : List α} {f : α → List Update}
    (h : ∀ item ∈ items, Introduced (f item)) : Introduced (items.flatMap f) := by
  induction items with
  | nil => exact fun before path appName after heq => absurd heq (by simp)
  | cons item items ih =>
    obtain ⟨hitem, hitems⟩ := List.forall_mem_cons.mp h
    exact hitem.append (ih hitems)

theorem introduced_of_no_producer (h : ∀ path appName, .producer path appName ∉ us) :
    Introduced us := by
  rintro before path appName after rfl
  exact absurd (by simp) (h path appName)

private theorem introduced_entryUpdates (entry : StreamingEntry) :
    Introduced (entryUpdates env entry) := by
  refine introduced_of_no_producer fun path appName hmem => ?_
  unfold entryUpdates rulesUpdates at hmem
  cases hread : readEntry env entry with
  | error stop => simp [hread] at hmem
  | ok read => simp [hread] at hmem

theorem introduced_outputUpdates (appName : CString) (files : List CString) :
    Introduced (outputUpdates env appName files) := by
  refine Introduced.flatMap fun file _ before path name after heq => ?_
  cases before with
  | nil => cases heq
  | cons u before =>
    obtain ⟨rfl, hrest⟩ := List.cons.inj heq
    cases before with
    | nil =>
      cases hrest
      exact List.mem_singleton.mpr rfl
    | cons v before => simp at hrest

theorem introduced_appUpdates (app : App) : Introduced (appUpdates env app) := by
  apply appUpdates_keeps Introduced
  case hnil => exact introduced_of_no_producer fun path appName => List.not_mem_nil
  case happend => exact fun us us' h h' => h.append h'
  case hhalt => exact fun stop => introduced_of_no_producer fun path appName hmem => by simp at hmem
  case hinput =>
    intro appName files
    refine introduced_of_no_producer fun path name hmem => ?_
    simp [inputUpdates] at hmem
  case houtput => exact introduced_outputUpdates
  case hentry => exact introduced_entryUpdates

/-- The flags stand behind everything that makes an entry. -/
theorem updates_split (h : ∀ stop, .halt stop ∉ updates env document) :
    ∃ body flags, updates env document = body ++ flags ∧ Introduced body ∧
      (∀ u ∈ body, u.isFlag = false) ∧ ∀ u ∈ flags, u.isFlag = true := by
  refine ⟨_, _, (updates_of_no_halt h).trans (List.cons_append ..).symm, ?_, ?_, ?_⟩
  · have hfirst : Introduced [.create env.capioDir] :=
      introduced_of_no_producer fun path appName hmem => by simp at hmem
    exact hfirst.append (Introduced.flatMap fun app _ => introduced_appUpdates app)
  · refine List.forall_mem_cons.mpr ⟨rfl, fun u hu => ?_⟩
    obtain ⟨app, _, hu⟩ := List.mem_flatMap.mp hu
    exact isFlag_appUpdates app u hu
  · refine List.forall_mem_append.mpr ⟨fun u hu => ?_, fun u hu => ?_⟩
    · obtain ⟨path, _, rfl⟩ := List.mem_map.mp hu
      rfl
    · obtain ⟨path, _, rfl⟩ := List.mem_map.mp hu
      rfl

/-- Before the first update that makes an entry nothing is written to it. -/
theorem before_first_create (hrun : Completes (updates env document))
    (heq : updates env document = before ++ .create path :: after) (hnot : path ∉ named before) :
    (∀ rules, .streaming path rules ∉ before) ∧ (∀ appName, .producer path appName ∉ before) ∧
      .permanent path ∉ before ∧ .exclude path ∉ before := by
  obtain ⟨body, flags, hsplit, hintroduced, hbody, hflags⟩ := updates_split hrun.noHalt
  have hsub : ∃ rest, body = before ++ rest := by
    rcases List.append_eq_append_iff.mp (hsplit.symm.trans heq) with ⟨middle, rfl, hrest⟩ |
      ⟨middle, rfl, _⟩
    · have hflag := hflags (.create path) (by simp [hrest])
      cases hflag
    · exact ⟨middle, rfl⟩
  obtain ⟨rest, rfl⟩ := hsub
  refine ⟨fun rules hmem => ?_, fun appName hmem => ?_, fun hmem => ?_, fun hmem => ?_⟩
  · obtain ⟨first, last, rfl⟩ := List.append_of_mem hmem
    refine hrun.noThrow first (.streaming path rules) (last ++ .create path :: after) (by simp [heq]) ?_
    intro hnamed
    exact hnot (by simp [named, List.filterMap_append] at hnamed ⊢; exact .inl hnamed)
  · obtain ⟨first, last, rfl⟩ := List.append_of_mem hmem
    have hcreate := hintroduced first path appName (last ++ rest) (by simp)
    exact hnot (mem_named_iff.mpr (List.mem_append_left _ hcreate))
  · have hflag := hbody _ (List.mem_append_left _ hmem)
    cases hflag
  · have hflag := hbody _ (List.mem_append_left _ hmem)
    cases hflag

/-! ### The entries of a completed run -/

theorem lastRules_append_of_none {first last : List (CString × StreamingRules)}
    (h : ∀ w ∈ first, w.1 ≠ path) : lastRules path (first ++ last) = lastRules path last := by
  have hnil : first.filter (fun w => w.1 = path) = [] :=
    List.filter_eq_nil_iff.mpr fun w hw => by simpa using h w hw
  rw [lastRules, lastRules, List.filter_append, hnil, List.nil_append]

/-- An update that makes an entry and those behind it say what stands in it. -/
theorem entryOf_writeAll (hcompletes : Completes (updates env document))
    (heq : updates env document = before ++ .create path :: after) (hnot : path ∉ named before)
    (inherited : CString × CString) : EntryOf (updates env document) path inherited
      (writeAll path after (freshLocation (0, inherited))) := by
  obtain ⟨hstreaming, hproducer, hpermanent, hexclude⟩ := before_first_create hcompletes heq hnot
  have hbehind (u : Update) (hu : u ∉ before) (hne : u ≠ .create path) :
      u ∈ updates env document ↔ u ∈ after := by
    rw [heq, List.mem_append, List.mem_cons, or_iff_right hu, or_iff_right hne]
  have hstreams (rules : StreamingRules) : .streaming path rules ∈ updates env document ↔
      .streaming path rules ∈ after := hbehind _ (hstreaming rules) (by simp)
  refine ⟨?_, ?_, ?_, ?_, fun rules hlast => ?_, fun hplain => ?_, ?_⟩
  · have hnone : before.filterMap (Update.producerFor path) = [] := by
      rw [List.filterMap_eq_nil_iff]
      intro u hu
      cases u with
      | producer p appName =>
        refine if_neg ?_
        rintro rfl
        exact hproducer appName hu
      | _ => rfl
    rw [writeAll_producers, heq, List.filterMap_append, hnone]
    rfl
  · rw [writeAll_consumers, listedConsumers, heq, since_eq hnot]
    rfl
  · rw [(writeAll_flags after _).1, hbehind _ hpermanent (by simp)]
    simp [freshLocation]
  · rw [(writeAll_flags after _).2, hbehind _ hexclude (by simp)]
    simp [freshLocation]
  · rw [heq, List.filterMap_append, lastRules_append_of_none ?_] at hlast
    · exact writeAll_has hlast
    · rintro ⟨p, r⟩ hmem rfl
      exact hstreaming r (written_of_streaming.mp hmem)
  · have hsame := writeAll_plain
      (fun rules hmem => hplain rules ((hstreams rules).mpr hmem)) (freshLocation (0, inherited))
    exact ⟨hsame.isFile, hsame.commitRule, hsame.fireRule, hsame.commitOnCloseNumber,
      hsame.fileDependencies⟩
  · simp only [hstreams]
    exact writeAll_count after _

theorem exists_entryOf (hrun : RunsTo (updates env document) engine)
    (hnamed : path ∈ named (updates env document)) :
    ∃ inherited l, Inherits (updates env document) path inherited ∧
      engine.locations.lookup path = some l ∧ EntryOf (updates env document) path inherited l := by
  obtain ⟨before, after, heq, hnot⟩ := exists_first_create hnamed
  obtain ⟨inherited, hinherits, hlookup⟩ := hrun.entry heq hnot
  exact ⟨inherited, _, ⟨before, after, heq, hnot, hinherits⟩, hlookup,
    entryOf_writeAll hrun.completes heq hnot inherited⟩

theorem exists_run_entryOf (hcompletes : Completes (updates env document))
    {inherited : CString × CString} (h : Inherits (updates env document) path inherited) :
    ∃ engine l, RunsTo (updates env document) engine ∧ engine.locations.lookup path = some l ∧
      EntryOf (updates env document) path inherited l := by
  obtain ⟨before, after, heq, hnot, hinherits⟩ := h
  obtain ⟨engine, hrun, hlookup⟩ := hcompletes.exists_run heq hnot hinherits
  exact ⟨engine, _, hrun, hlookup, entryOf_writeAll hcompletes heq hnot inherited⟩

section Same
variable {inherited inherited' : CString × CString} {l l' : Location}

theorem sameCount (hperm : us'.Perm us)
    (hagree : ∀ rules rules', .streaming path rules ∈ us → .streaming path rules' ∈ us →
      rules.Agrees rules')
    (hentry : EntryOf us path inherited l) (hentry' : EntryOf us' path inherited' l') :
    l.directoryFileCount = l'.directoryFileCount := by
  have hcount' := hentry'.count
  simp only [hperm.mem_iff] at hcount'
  rcases hentry.count with ⟨hnone, hall⟩ | ⟨rules, hmem, hne, hsame⟩
  · rcases hcount' with ⟨hnone', _⟩ | ⟨rules', hmem', hne', _⟩
    · rw [hnone, hnone']
    · exact absurd (hall rules' hmem') hne'
  · rcases hcount' with ⟨_, hall'⟩ | ⟨rules', hmem', hne', hsame'⟩
    · exact absurd (hall' rules hmem) hne
    · rw [hsame, hsame']
      rcases (hagree rules rules' hmem hmem').nFiles with hopen | hopen | heq
      · exact absurd hopen hne
      · exact absurd hopen hne'
      · exact heq

theorem sameEntry (hperm : us'.Perm us)
    (hagree : ∀ rules rules', .streaming path rules ∈ us → .streaming path rules' ∈ us →
      rules.Agrees rules')
    (hinherited : (∀ rules, .streaming path rules ∉ us) → inherited = inherited')
    (hconsumers : (listedConsumers path us).Perm (listedConsumers path us'))
    (hentry : EntryOf us path inherited l) (hentry' : EntryOf us' path inherited' l') :
    SameEntry l l' := by
  have hproducers : l.producers.Perm l'.producers := by
    rw [hentry.producers, hentry'.producers]
    exact (hperm.filterMap _).symm
  have hconsumers' : l.consumers.Perm l'.consumers := by
    rw [hentry.consumers, hentry'.consumers]
    exact hconsumers
  have hpermanent : l.permanent = l'.permanent := by
    rw [Bool.eq_iff_iff, hentry.permanent, hentry'.permanent, hperm.mem_iff]
  have hexclude : l.exclude = l'.exclude := by
    rw [Bool.eq_iff_iff, hentry.exclude, hentry'.exclude, hperm.mem_iff]
  have hcount := sameCount hperm hagree hentry hentry'
  by_cases hstreamed : ∃ rules, .streaming path rules ∈ us
  · obtain ⟨rules, hmem⟩ := hstreamed
    obtain ⟨last, hlast, hin⟩ := exists_last_streaming hmem
    obtain ⟨last', hlast', hin'⟩ := exists_last_streaming (hperm.mem_iff.mpr hmem)
    have hagrees := hagree last last' hin (hperm.mem_iff.mp hin')
    have hhas := hentry.streamed last hlast
    have hhas' := hentry'.streamed last' hlast'
    refine ⟨hproducers, hconsumers', ?_, ?_, hpermanent, hexclude, ?_, ?_, hcount, ?_⟩
    · rw [hhas.commitRule, hhas'.commitRule, hagrees.commitRule]
    · rw [hhas.fireRule, hhas'.fireRule, hagrees.fireRule]
    · rw [hhas.isFile, hhas'.isFile, hagrees.isFile]
    · rw [hhas.commitOnCloseNumber, hhas'.commitOnCloseNumber, hagrees.nClose]
    · rw [hhas.fileDependencies, hhas'.fileDependencies, hagrees.fileDeps]
  · have hplain := not_exists.mp hstreamed
    obtain ⟨hfile, hcommit, hfire, hclose, hdeps⟩ := hentry.plain hplain
    obtain ⟨hfile', hcommit', hfire', hclose', hdeps'⟩ :=
      hentry'.plain fun rules hmem => hplain rules (hperm.mem_iff.mp hmem)
    have heq := hinherited hplain
    refine ⟨hproducers, hconsumers', ?_, ?_, hpermanent, hexclude, ?_, ?_, hcount, ?_⟩
    · rw [hcommit, hcommit', heq]
    · rw [hfire, hfire', heq]
    · rw [hfile, hfile']
    · rw [hclose, hclose']
    · rw [hdeps, hdeps']

end Same

theorem named_perm (h : us'.Perm us) (path : CString) : path ∈ named us' ↔ path ∈ named us := by
  rw [mem_named_iff, mem_named_iff, h.mem_iff]

/-- Without conflicts in the document two updates of one path agree. -/
theorem agrees_of_noConflict (hno : NoConflict env document)
    (hcompletes : Completes (updates env document)) (rules rules' : StreamingRules)
    (h : .streaming path rules ∈ updates env document)
    (h' : .streaming path rules' ∈ updates env document) : rules.Agrees rules' := by
  rw [← written_of_streaming, written_updates env document hcompletes.noHalt] at h h'
  exact hno path rules rules' h h'

theorem lookup_none_of_not_named (hrun : RunsTo us engine) (h : path ∉ named us) :
    engine.locations.lookup path = none :=
  AList.lookup_eq_none.mpr fun hmem => h ((hrun.mem_iff path).mp hmem)

theorem listedConsumers_of_not_named (h : path ∉ named us) : listedConsumers path us = [] := by
  have hnil : since path us = [] := by
    rw [since, List.dropWhile_eq_nil_iff]
    intro u hu
    rw [decide_eq_true_eq]
    intro hcreated
    exact h (mem_named_iff.mpr (created_eq_some_iff.mp hcreated ▸ hu))
  rw [listedConsumers, hnil]
  rfl

section Rearranging
variable (hre : Rearranged document document')
include hre

theorem sameTables_of_harmless (hno : NoConflict env document)
    (hharmless : OrderHarmless (updates env document) (updates env document'))
    {engine' : CapioCLEngine} (hrun : RunsTo (updates env document) engine)
    (hrun' : RunsTo (updates env document') engine') : SameTables engine engine' := by
  have hperm : (updates env document').Perm (updates env document) := updates_perm hre
  have hcompletes := hrun.completes
  intro path
  by_cases hnamed : path ∈ named (updates env document)
  · obtain ⟨inherited, l, hinherits, hl, hentry⟩ := exists_entryOf hrun hnamed
    obtain ⟨inherited', l', hinherits', hl', hentry'⟩ :=
      exists_entryOf hrun' ((named_perm hperm path).mpr hnamed)
    rw [hl, hl']
    refine .some (sameEntry hperm (agrees_of_noConflict hno hcompletes) (fun hplain => ?_)
      (hharmless.consumers hcompletes path) hentry hentry')
    exact hharmless.inherited hcompletes path hplain _ _ hinherits hinherits'
  · rw [lookup_none_of_not_named hrun hnamed,
      lookup_none_of_not_named hrun' (mt (named_perm hperm path).mp hnamed)]
    exact .none

theorem sameParse_of_harmless (hno : NoConflict env document)
    (hharmless : OrderHarmless (updates env document) (updates env document')) :
    SameParse env document document' := by
  refine ⟨?_, fun engine engine' => sameTables_of_harmless hre hno hharmless⟩
  rw [parse_eq_runUpdates, parse_eq_runUpdates]
  cases hrun : runScript Update.run (updates env document) ⟨∅⟩ with
  | ok engine =>
    have hcompletes := (RunsTo.of_runScript hrun).completes
    obtain ⟨engine', hrun'⟩ := completes_iff.mp (hharmless.completes.mp hcompletes)
    rw [hrun']
    exact .engines (sameTables_of_harmless hre hno hharmless (RunsTo.of_runScript hrun)
      (RunsTo.of_runScript hrun'))
  | error stop =>
    cases hrun' : runScript Update.run (updates env document') ⟨∅⟩ with
    | ok engine' =>
      have hcompletes := hharmless.completes.mpr (RunsTo.of_runScript hrun').completes
      obtain ⟨engine, hok⟩ := completes_iff.mp hcompletes
      rw [hrun] at hok
      cases hok
    | error stop' => exact .stops

omit hre in
theorem SameResult.completes (h : SameResult (parse env (some document)) (parse env (some document'))) :
    Completes (updates env document) ↔ Completes (updates env document') := by
  rw [parse_eq_runUpdates, parse_eq_runUpdates] at h
  rw [completes_iff, completes_iff]
  generalize runScript Update.run (updates env document) ⟨∅⟩ = result at h ⊢
  generalize runScript Update.run (updates env document') ⟨∅⟩ = result' at h ⊢
  cases h with
  | engines _ => exact iff_of_true ⟨_, rfl⟩ ⟨_, rfl⟩
  | stops => exact iff_of_false (fun ⟨_, h⟩ => nomatch h) (fun ⟨_, h⟩ => nomatch h)

theorem harmless_of_sameParse (h : SameParse env document document') :
    OrderHarmless (updates env document) (updates env document') := by
  have hperm : (updates env document').Perm (updates env document) := updates_perm hre
  have hiff := h.result.completes
  refine ⟨hiff, fun hcompletes path hplain inherited inherited' hinherits hinherits' => ?_,
    fun hcompletes path => ?_⟩
  · obtain ⟨engine, l, hrun, hl, hentry⟩ := exists_run_entryOf hcompletes hinherits
    obtain ⟨engine', l', hrun', hl', hentry'⟩ := exists_run_entryOf (hiff.mp hcompletes) hinherits'
    have hrel := h.anyOrder engine engine' hrun hrun' path
    rw [hl, hl'] at hrel
    obtain ⟨_, hcommit, hfire, _⟩ := hentry.plain hplain
    obtain ⟨_, hcommit', hfire', _⟩ :=
      hentry'.plain fun rules hmem => hplain rules (hperm.mem_iff.mp hmem)
    cases hrel with
    | some hsame =>
      exact Prod.ext (by rw [← hcommit, ← hcommit', hsame.commitRule])
        (by rw [← hfire, ← hfire', hsame.fireRule])
  · by_cases hnamed : path ∈ named (updates env document)
    · obtain ⟨engine, hrun⟩ := completes_iff.mp hcompletes
      obtain ⟨engine', hrun'⟩ := completes_iff.mp (hiff.mp hcompletes)
      have hruns := RunsTo.of_runScript hrun
      have hruns' := RunsTo.of_runScript hrun'
      obtain ⟨_, l, _, hl, hentry⟩ := exists_entryOf hruns hnamed
      obtain ⟨_, l', _, hl', hentry'⟩ := exists_entryOf hruns' ((named_perm hperm path).mpr hnamed)
      have hrel := h.anyOrder engine engine' hruns hruns' path
      rw [hl, hl'] at hrel
      rw [← hentry.consumers, ← hentry'.consumers]
      cases hrel with
      | some hsame => exact hsame.consumers
    · rw [listedConsumers_of_not_named hnamed,
        listedConsumers_of_not_named (mt (named_perm hperm path).mp hnamed)]

end Rearranging

/-- The order of the applications makes no difference exactly when the updates complete in both
orders or in neither, and, where they do, paths without a streaming entry inherit the same rules and
the consumers find the same entries. -/
theorem application_order_iff (env : Env) (document document' : Workflow)
    (hre : Rearranged document document') (hno : NoConflict env document) :
    SameParse env document document' ↔
      OrderHarmless (updates env document) (updates env document') :=
  ⟨harmless_of_sameParse hre, sameParse_of_harmless hre hno⟩

theorem SameTables.commitRule {engine' : CapioCLEngine} (h : SameTables engine engine')
    (path : CString) : (engine.locations.lookup path).map Location.commitRule =
      (engine'.locations.lookup path).map Location.commitRule := by
  have hrel := h path
  generalize engine.locations.lookup path = found at hrel ⊢
  generalize engine'.locations.lookup path = found' at hrel ⊢
  cases hrel with
  | none => rfl
  | some hsame => exact congrArg some hsame.commitRule

/-- One application makes a directory that commits its files when they are closed. -/
def directoryWriter : App where
  name := some "a".toList
  inputStream := some []
  outputStream := some ["d".toList]
  streaming := some [
    { name := none, dirname := some ["d".toList], committed := some "on_close".toList
      fileDeps := none, mode := none, nFiles := none }]

/-- Another writes a file in it. -/
def fileWriter : App where
  name := some "b".toList
  inputStream := some []
  outputStream := some ["d/x".toList]
  streaming := none

def workflowOf (apps : List App) : Workflow :=
  { name := some "wf".toList, ioGraph := apps, permanent := none, exclude := none }

private theorem rearranged_writers : Rearranged (workflowOf [directoryWriter, fileWriter])
    (workflowOf [fileWriter, directoryWriter]) :=
  ⟨rfl, List.Perm.swap _ _ _, rfl, rfl⟩

private theorem noConflict_writers :
    NoConflict listingEnv (workflowOf [directoryWriter, fileWriter]) := by
  have hone : ∃ w, streamed listingEnv (workflowOf [directoryWriter, fileWriter]) = [w] :=
    ⟨_, rfl⟩
  obtain ⟨w, hw⟩ := hone
  intro path rules rules' h h'
  rw [hw, List.mem_singleton] at h h'
  obtain ⟨_, rfl⟩ := Prod.mk.inj (h.trans h'.symm)
  exact ⟨rfl, rfl, rfl, rfl, .inr (.inr rfl), rfl⟩

theorem application_order_iff_writers :
    SameParse listingEnv (workflowOf [directoryWriter, fileWriter])
      (workflowOf [fileWriter, directoryWriter]) ↔
    OrderHarmless (updates listingEnv (workflowOf [directoryWriter, fileWriter]))
      (updates listingEnv (workflowOf [fileWriter, directoryWriter])) :=
  application_order_iff _ _ _ rearranged_writers noConflict_writers

/-- The file inherits the rule of its directory only if the directory is listed first. -/
theorem later_directory_not_inherited : ¬ ∀ (env : Env) (document document' : Workflow),
    Rearranged document document' → NoConflict env document →
      SameResult (parse env (some document)) (parse env (some document')) := by
  intro hall
  have hsame := hall listingEnv _ _ rearranged_writers noConflict_writers
  have hfirst : (parse listingEnv (some (workflowOf [directoryWriter, fileWriter]))).toOption.map
      (fun engine => (engine.locations.lookup "/c/d/x".toList).map Location.commitRule) =
        some (some capioFileCommittedOnClose) := by decide
  have hsecond : (parse listingEnv (some (workflowOf [fileWriter, directoryWriter]))).toOption.map
      (fun engine => (engine.locations.lookup "/c/d/x".toList).map Location.commitRule) =
        some (some capioFileCommittedOnTermination) := by decide
  generalize parse listingEnv (some (workflowOf [directoryWriter, fileWriter])) = result at hsame hfirst
  generalize parse listingEnv (some (workflowOf [fileWriter, directoryWriter])) = result' at hsame hsecond
  cases hsame with
  | stops => cases hfirst
  | engines htables =>
    rw [Except.toOption, Option.map_some, Option.some.injEq] at hfirst hsecond
    rw [htables.commitRule, hsecond] at hfirst
    exact absurd hfirst (by decide)

end Capio.Server
