import Capio.Common.PathNormalization
import Capio.Server.CloseCount
import Capio.Server.PathAgreement

/-! Where the tokens of paths are placed, and when the tokens of two paths are apart. -/
namespace Capio.Server
open Library StdPath

/-- The directory that the settings ask for. -/
def configuredMetadataDir (env : Env) : CString :=
  env.capioMetadataDir.getD (append env.capioDir ".capio_metadata".toList)

/-- A path that the server has tokens for. -/
structure Handled (dir p : CString) : Prop where
  isAbsolute : isAbsolute p = true
  isNormal : lexicallyNormal p = p
  inside : Inside dir p

structure Apart (env : Env) (p q t u : CString) : Prop where
  made : createMetadataPath env p = some t
  made' : createMetadataPath env q = some u
  distinct : t ≠ u
  notAbove : ¬ Inside t u
  notAbove' : ¬ Inside u t
  inside : Inside (configuredMetadataDir env) t
  inside' : Inside (configuredMetadataDir env) u
  noLock : t ≠ u ++ ".lock".toList
  noLock' : u ≠ t ++ ".lock".toList

def TokensApart (env : Env) (p q : CString) : Prop := ∃ t u, Apart env p q t u

/-- The path lies in a directory that is called like the token of the other. -/
def InTokenName (p q : CString) : Prop := p ++ ".capio/".toList <+: q

instance (p q : CString) : Decidable (InTokenName p q) := inferInstanceAs (Decidable (_ <+: _))

theorem findSub_prefix {pattern text : CString} (h : pattern <+: text) : findSub pattern text = some 0 := by
  cases text with
  | nil => rw [findSub, if_pos (List.prefix_nil.mp h)]
  | cons c text => rw [findSub, if_pos (List.isPrefixOf_iff_prefix.mpr h)]

section
variable {ds ns ts us : List CString} {slash : Bool} {p q : CString}

theorem inside_rooted_iff (hts : ∀ name ∈ ts, ValidName name) (hne : ts ≠ []) (hus : ∀ name ∈ us, ValidName name) :
    Inside (rooted ts) (rooted us) ↔ rooted ts ++ ['/'] <+: rooted us := by
  rw [inside_iff, components_rooted hts, components_rooted hus, rooted, rooted, List.cons_append,
    List.cons_prefix_cons, and_iff_right rfl,
    intercalate_below_iff (fun d hd => (hts d hd).slashFree) hne (fun d hd => (hus d hd).slashFree)]
  constructor
  · rintro ⟨rest, h, hrest⟩
    exact ⟨rest, hrest, (List.cons.inj h).2⟩
  · rintro ⟨rest, hrest, h⟩
    exact ⟨rest, by rw [h]; rfl, hrest⟩

theorem validName_extended {name : CString} (h : '/' ∉ name) : ValidName (name ++ ".capio".toList) where
  nonempty := by simp
  slashFree := by
    rw [List.mem_append, not_or]
    exact ⟨h, by decide⟩
  notDot := fun he => absurd (congrArg List.length he) (by simp [dot])
  notDotdot := fun he => absurd (congrArg List.length he) (by simp [dotdot])

/-- With the extension, a normal path other than the root is one without a slash at its end. -/
theorem exists_extended (h : NormalParts ns slash) (hne : ns ≠ []) :
    ∃ ts, (∀ name ∈ ts, ValidName name) ∧ ts ≠ [] ∧ normalText ns slash ++ ".capio".toList = rooted ts := by
  cases slash with
  | true =>
    refine ⟨ns ++ [".capio".toList], ?_, by simp, ?_⟩
    · intro name hname
      rcases List.mem_append.mp hname with hname | hname
      · exact h.valid name hname
      · rw [List.mem_singleton.mp hname]
        exact validName_extended (List.not_mem_nil : '/' ∉ ([] : CString))
    · rw [rooted_concat, parentText, if_neg hne, normalText, if_pos rfl, List.append_assoc]
      rfl
  | false =>
    obtain ⟨init, last, rfl⟩ := (List.eq_nil_or_concat' ns).resolve_left hne
    refine ⟨init ++ [last ++ ".capio".toList], ?_, by simp, ?_⟩
    · intro name hname
      rcases List.mem_append.mp hname with hname | hname
      · exact h.valid name (List.mem_append_left _ hname)
      · rw [List.mem_singleton.mp hname]
        exact validName_extended (h.valid last (by simp)).slashFree
    · rw [← rooted_eq, rooted_concat, rooted_concat, List.append_assoc, List.cons_append]

def metadataNames (ds : List CString) : List CString := ds ++ [".capio_metadata".toList]

theorem metadataNames_valid (hds : ∀ name ∈ ds, ValidName name) : ∀ name ∈ metadataNames ds, ValidName name := by
  intro name hname
  rcases List.mem_append.mp hname with hname | hname
  · exact hds name hname
  · rw [List.mem_singleton.mp hname]
    exact ⟨by decide, by decide, by decide, by decide⟩

theorem append_rooted (hds : ∀ name ∈ ds, ValidName name) {text : CString} (hrel : isAbsolute text = false) :
    append (rooted ds) text = parentText ds ++ '/' :: text := by
  have hparts : NormalParts ds false := ⟨hds, fun h => absurd h Bool.false_ne_true⟩
  have hname : hasFilename (rooted ds) = decide (ds ≠ []) := by
    rw [rooted_eq, hasFilename_normalText hparts, Bool.not_false, Bool.and_true]
  unfold append parentText
  rw [hrel, hname, if_neg Bool.false_ne_true]
  by_cases hne : ds = []
  · simp [hne, rooted]
  · simp [hne]

theorem metadataPath_unset (hds : ∀ name ∈ ds, ValidName name) :
    getCapioMetadataPath ⟨rooted ds, none⟩ = rooted (metadataNames ds) := by
  rw [metadataNames, rooted_concat]
  exact append_rooted hds (by decide)

theorem exists_below (hds : ∀ name ∈ ds, ValidName name) (hparts : NormalParts ns slash)
    (h : Inside (rooted ds) (normalText ns slash)) : ns ≠ [] ∧ ∃ more, ns = ds ++ more := by
  obtain ⟨rest, hrest, hne⟩ := (inside_iff _ _).mp h
  rw [components_normalText hparts, components_rooted hds] at hrest
  have hnames : ns ++ (if slash then [[]] else []) = ds ++ rest := (List.cons.inj hrest).2
  constructor
  · rintro rfl
    have hslash : slash = false := Bool.eq_false_iff.mpr fun he => hparts.named he rfl
    rw [hslash] at hnames
    exact hne (List.append_eq_nil_iff.mp hnames.symm).2
  · rcases List.append_eq_append_iff.mp hnames with ⟨spare, hspare, htail⟩ | ⟨more, hmore, _⟩
    · have hlength := congrArg List.length htail
      have hrest := List.length_pos_iff.mpr hne
      have hspare_nil : spare = [] := by
        apply List.length_eq_zero_iff.mp
        cases slash <;> simp at hlength <;> omega
      exact ⟨[], by rw [hspare, hspare_nil, List.append_nil, List.append_nil]⟩
    · exact ⟨more, hmore⟩

/-- Where the default directory is used, a token is named by the path under it. -/
theorem token_spec (hds : ∀ name ∈ ds, ValidName name) (hp : Handled (rooted ds) p) :
    ∃ ts, (∀ name ∈ metadataNames ds ++ ts, ValidName name) ∧ ts ≠ [] ∧
      metadataToken ⟨rooted ds, none⟩ p = rooted (metadataNames ds ++ ts) ∧
      rooted (metadataNames ds ++ ts) = rooted (metadataNames ds) ++ (p ++ ".capio".toList) := by
  obtain ⟨ns, slash, hparts, rfl⟩ := exists_normalText hp.isAbsolute hp.isNormal
  obtain ⟨hne, more, hmore⟩ := exists_below hds hparts hp.inside
  obtain ⟨ts, hvalid, hts, htext⟩ := exists_extended hparts hne
  have hfound : findSub (rooted ds) (normalText ns slash) = some 0 :=
    findSub_prefix ((hmore ▸ rooted_prefix ds more).trans (List.prefix_append _ _))
  have hdrop : (normalText ns slash).drop 1 ++ ".capio".toList = ['/'].intercalate ts := congrArg (List.drop 1) htext
  have hrel : isAbsolute (['/'].intercalate ts) = false := by
    have hrelative : isAbsolute (pathText false ts false) = false :=
      isAbsolute_pathText (fun name hname => (hvalid name hname).isName) fun h => absurd h Bool.false_ne_true
    simpa [pathText] using hrelative
  have hmetadata : metadataNames ds ≠ [] := by simp [metadataNames]
  have hjoined := rooted_append hmetadata hts
  refine ⟨ts, ?_, hts, ?_, ?_⟩
  · intro name hname
    exact (List.mem_append.mp hname).elim (metadataNames_valid hds name) (hvalid name)
  · unfold metadataToken
    dsimp only
    rw [hfound, metadataPath_unset hds, hdrop, append_rooted (metadataNames_valid hds) hrel, parentText,
      if_neg hmetadata, hjoined]
    rfl
  · rw [hjoined, htext]

theorem token_inside (hds : ∀ name ∈ ds, ValidName name) (hp : Handled (rooted ds) p) :
    Inside (rooted (metadataNames ds)) (metadataToken ⟨rooted ds, none⟩ p) := by
  obtain ⟨ts, hvalid, hts, htoken, _⟩ := token_spec hds hp
  rw [htoken, inside_iff, components_rooted (metadataNames_valid hds), components_rooted hvalid]
  exact ⟨ts, rfl, hts⟩

theorem token_injective (hds : ∀ name ∈ ds, ValidName name) (hp : Handled (rooted ds) p) (hq : Handled (rooted ds) q)
    (h : metadataToken ⟨rooted ds, none⟩ p = metadataToken ⟨rooted ds, none⟩ q) : p = q := by
  obtain ⟨_, _, _, htoken, htext⟩ := token_spec hds hp
  obtain ⟨_, _, _, htoken', htext'⟩ := token_spec hds hq
  rw [htoken, htext, htoken', htext', List.append_cancel_left_eq, List.append_left_inj] at h
  exact h

theorem inside_token_iff (hds : ∀ name ∈ ds, ValidName name) (hp : Handled (rooted ds) p) (hq : Handled (rooted ds) q) :
    Inside (metadataToken ⟨rooted ds, none⟩ p) (metadataToken ⟨rooted ds, none⟩ q) ↔
      InTokenName p q := by
  obtain ⟨ts, htvalid, hts, htoken, htext⟩ := token_spec hds hp
  obtain ⟨us, huvalid, _, huoken, hutext⟩ := token_spec hds hq
  have hne : metadataNames ds ++ ts ≠ [] := by simp [hts]
  rw [htoken, huoken, inside_rooted_iff htvalid hne huvalid, htext, hutext, List.append_assoc,
    List.prefix_append_right_inj, List.append_assoc]
  constructor
  · intro h
    have hcut : (p ++ ".capio".toList) ++ ['/'] <+: q := by
      refine prefix_of_prefix_append ?_ (by decide : '/' ∉ ".capio".toList)
      rwa [List.append_assoc]
    rwa [List.append_assoc] at hcut
  · exact fun h => h.trans (List.prefix_append _ _)

end

/-- Two tokens are apart, and in the metadata directory, just when the default one is used and
neither path lies in a directory called like the token of the other. -/
theorem tokens_apart_iff (ds : List CString) (hds : ∀ name ∈ ds, ValidName name) (metadataDir : Option CString)
    (p q : CString) (hp : Handled (rooted ds) p) (hq : Handled (rooted ds) q) (hne : p ≠ q) :
    TokensApart ⟨rooted ds, metadataDir⟩ p q ↔
      metadataDir = none ∧ ¬ InTokenName p q ∧ ¬ InTokenName q p := by
  cases metadataDir with
  | some dir =>
    apply iff_of_false
    · rintro ⟨t, u, h⟩
      cases h.made
    · rintro ⟨h, _⟩
      cases h
  | none =>
    have hset : getCapioMetadataPath ⟨rooted ds, none⟩ ≠ [] := by
      rw [metadataPath_unset hds]
      exact rooted_ne_nil _
    have hmade (path : CString) : createMetadataPath ⟨rooted ds, none⟩ path =
        some (metadataToken ⟨rooted ds, none⟩ path) := if_neg hset
    rw [and_iff_right rfl, ← inside_token_iff hds hp hq, ← inside_token_iff hds hq hp]
    constructor
    · rintro ⟨t, u, h⟩
      obtain rfl := Option.some.inj ((hmade p).symm.trans h.made)
      obtain rfl := Option.some.inj ((hmade q).symm.trans h.made')
      exact ⟨h.notAbove, h.notAbove'⟩
    · rintro ⟨habove, habove'⟩
      have hdefault : configuredMetadataDir ⟨rooted ds, none⟩ = rooted (metadataNames ds) := metadataPath_unset hds
      refine ⟨_, _, hmade p, hmade q, fun h => hne (token_injective hds hp hq h), habove, habove', ?_, ?_, ?_, ?_⟩
      · rw [hdefault]
        exact token_inside hds hp
      · rw [hdefault]
        exact token_inside hds hq
      · exact Metadata.token_ne_lockName _ p q
      · exact Metadata.token_ne_lockName _ q p

theorem tokens_apart_iff_siblings :
    TokensApart ⟨rooted ["c".toList], none⟩ "/c/a".toList "/c/b".toList ↔
      (none : Option CString) = none ∧ ¬ InTokenName "/c/a".toList "/c/b".toList ∧
        ¬ InTokenName "/c/b".toList "/c/a".toList := by
  have hdir : ∀ name ∈ ["c".toList], ValidName name := by
    intro name hname
    obtain rfl := List.mem_singleton.mp hname
    exact ⟨by decide, by decide, by decide, by decide⟩
  exact tokens_apart_iff ["c".toList] hdir none "/c/a".toList "/c/b".toList
    ⟨by decide, by decide, by decide⟩ ⟨by decide, by decide, by decide⟩ (by decide)

/-- With `CAPIO_METADATA_DIR` set, the first token ends the server. -/
theorem set_metadata_dir_throws : ¬ TokensApart ⟨"/c".toList, some "/meta".toList⟩ "/c/a".toList "/c/b".toList := by
  rintro ⟨t, u, h⟩
  cases h.made

end Capio.Server
