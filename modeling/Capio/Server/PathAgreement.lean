import Capio.Common.CapioPath
import Capio.Common.PathNormalization
import Capio.Server.ClEngine

/-! The client's `is_capio_path`, the engine's `fileToBeHandled` and the parser's
`first_is_subpath_of_second` against the components of the two paths. -/
namespace Capio.Server
open Library StdPath

/-- The components of the directory are a proper prefix of the path's. -/
def Inside (dir p : CString) : Prop :=
  components dir <+: components p ∧ components dir ≠ components p

instance (dir p : CString) : Decidable (Inside dir p) := inferInstanceAs (Decidable (_ ∧ _))

/-- The first name below the directory starts with two dots. -/
def StartsWithDots (dir p : CString) : Prop :=
  ∃ name rest, components p = components dir ++ name :: rest ∧ dotdot <+: name

/-- A directory above the path is a sibling of `dir` whose name extends that of `dir`. -/
def ExtendsDirName (dir p : CString) : Prop :=
  ∃ above last more rest, components dir = above ++ [last] ∧
    components p = above ++ (last ++ more) :: rest ∧ more ≠ [] ∧ rest ≠ []

def PathTestsAgree (env : Env) (p : CString) : Prop :=
  (isCapioPath env.capioDir p = true ↔ Inside env.capioDir p) ∧
    (CapioCLEngine.fileToBeHandled env p = true ↔ Inside env.capioDir p) ∧
    (firstIsSubpathOfSecond p env.capioDir = true ↔ Inside env.capioDir p)

theorem inside_iff (dir p : CString) :
    Inside dir p ↔ ∃ rest, components p = components dir ++ rest ∧ rest ≠ [] := by
  constructor
  · intro ⟨⟨rest, hrest⟩, hne⟩
    refine ⟨rest, hrest.symm, ?_⟩
    rintro rfl
    exact hne (by simpa using hrest)
  · intro ⟨rest, hrest, hne⟩
    refine ⟨⟨rest, hrest.symm⟩, fun heq => hne ?_⟩
    rwa [heq, List.self_eq_append_right] at hrest

theorem StartsWithDots.inside {dir p : CString} (h : StartsWithDots dir p) : Inside dir p := by
  obtain ⟨name, rest, hp, _⟩ := h
  exact (inside_iff dir p).mpr ⟨name :: rest, hp, List.cons_ne_nil _ _⟩

theorem ExtendsDirName.not_inside {dir p : CString} (h : ExtendsDirName dir p) :
    ¬ Inside dir p := by
  intro ⟨hbelow, _⟩
  obtain ⟨above, last, more, rest, hdir, hp, hmore, _⟩ := h
  rw [hdir, hp, List.prefix_append_right_inj] at hbelow
  have hlast : last = last ++ more := (List.cons_prefix_cons.mp hbelow).1
  exact hmore (List.self_eq_append_right.mp hlast)

/-! ### Two paths in normal form -/

section Normal
variable {ds ns : List CString} {slash : Bool}

theorem components_injective (hdir : NormalParts ds false) (hp : NormalParts ns slash)
    (h : components (normalText ds false) = components (normalText ns slash)) :
    normalText ds false = normalText ns slash := by
  rw [components_normalText hdir, components_normalText hp] at h
  cases slash with
  | false =>
    obtain rfl : ds = ns := by simpa using h
    rfl
  | true =>
    have hempty : [] ∈ ds := by
      have hds : ds = ns ++ [[]] := by simpa using h
      simp [hds]
    exact absurd rfl (hdir.valid [] hempty).nonempty

theorem firstIsSubpathOfSecond_iff (hdir : NormalParts ds false) (hp : NormalParts ns slash)
    (hne : normalText ns slash ≠ normalText ds false) :
    firstIsSubpathOfSecond (normalText ns slash) (normalText ds false) = true ↔
      Inside (normalText ds false) (normalText ns slash) := by
  unfold firstIsSubpathOfSecond Inside
  rw [decide_eq_true_eq, mismatch_snd_eq_nil_iff]
  exact ⟨fun h => ⟨h, fun heq => hne (components_injective hdir hp heq).symm⟩, And.left⟩

/-! ### The string prefix of the parent path -/

theorem components_eq_concat (hp : NormalParts ns slash) (hne : ns ≠ []) :
    ∃ name, components (normalText ns slash) = ['/'] :: parentNames ns slash ++ [name] := by
  rw [components_normalText hp]
  cases slash with
  | true => exact ⟨[], by simp [parentNames]⟩
  | false =>
    obtain ⟨init, last, rfl⟩ := (List.eq_nil_or_concat' ns).resolve_left hne
    exact ⟨last, by simp [parentNames]⟩

private theorem startWords_parentNames_iff (hdir : NormalParts ds false) (hds : ds ≠ [])
    (hp : NormalParts ns slash) :
    StartWords ds (parentNames ns slash) ↔
      ∃ above last more rest, components (normalText ds false) = above ++ [last] ∧
        components (normalText ns slash) = above ++ (last ++ more) :: rest ∧ rest ≠ [] := by
  have hcd : components (normalText ds false) = ['/'] :: ds := by
    simpa using components_normalText hdir
  rw [hcd]
  by_cases hne : ns = []
  · subst hne
    obtain rfl : slash = false := by
      by_contra h
      exact hp.named (by simpa using h) rfl
    constructor
    · intro h
      exact absurd rfl (startWords_ne_nil h)
    · intro ⟨above, last, more, rest, _, h, hrest⟩
      rw [components_normalText hp] at h
      cases above <;> simp_all
  · obtain ⟨name, hname⟩ := components_eq_concat hp hne
    rw [hname]
    constructor
    · intro ⟨above, last, more, rest, h, hqs⟩
      exact ⟨['/'] :: above, last, more, rest ++ [name], by rw [h]; rfl, by simp [hqs], by simp⟩
    · intro ⟨above, last, more, rest, h, hqs, hrest⟩
      obtain ⟨rest, x, rfl⟩ := (List.eq_nil_or_concat' rest).resolve_left hrest
      cases above with
      | nil => simp_all
      | cons a above =>
        refine ⟨above, last, more, rest, (List.cons.inj h).2, ?_⟩
        have htail : parentNames ns slash ++ [name] = above ++ (last ++ more) :: (rest ++ [x]) :=
          (List.cons.inj hqs).2
        rw [← List.cons_append, ← List.append_assoc] at htail
        exact (List.append_inj' htail rfl).1

theorem fileToBeHandled_iff {env : Env} (hdir : NormalParts ds false) (hds : ds ≠ [])
    (henv : env.capioDir = normalText ds false) (hp : NormalParts ns slash)
    (hne : normalText ns slash ≠ normalText ds false) :
    CapioCLEngine.fileToBeHandled env (normalText ns slash) = true ↔
      Inside env.capioDir (normalText ns slash) ∨
        ExtendsDirName env.capioDir (normalText ns slash) := by
  have hsame : same (normalText ns slash) (normalText ds false) = false :=
    decide_eq_false fun h => hne (components_injective hdir hp h.symm).symm
  have hparent : ∀ q ∈ parentNames ns slash, '/' ∉ q := by
    intro q hq
    refine (hp.valid q ?_).slashFree
    unfold parentNames at hq
    split_ifs at hq
    · exact hq
    · exact List.dropLast_subset ns hq
  have hstart : CapioCLEngine.fileToBeHandled env (normalText ns slash) = true ↔
      StartWords ds (parentNames ns slash) := by
    unfold CapioCLEngine.fileToBeHandled
    rw [henv, hsame, if_neg Bool.false_ne_true, parentPath_normalText hp, List.isPrefixOf_iff_prefix,
      ← intercalate_prefix_iff (fun d hd => (hdir.valid d hd).slashFree)
        (fun h => (hdir.valid [] h).nonempty rfl) hds hparent]
    simp [normalText, rooted]
  rw [hstart, startWords_parentNames_iff hdir hds hp, henv]
  constructor
  · rintro ⟨above, last, more, rest, h, hqs, hrest⟩
    by_cases hmore : more = []
    · left
      refine (inside_iff _ _).mpr ⟨rest, ?_, hrest⟩
      rw [hqs, h, hmore]
      simp
    · exact .inr ⟨above, last, more, rest, h, hqs, hmore, hrest⟩
  · rintro (h | h)
    · obtain ⟨rest, hrest, hne'⟩ := (inside_iff _ _).mp h
      have hcomps : components (normalText ds false) ≠ [] := by
        simp [components_normalText hdir]
      obtain ⟨above, last, hlast⟩ := (List.eq_nil_or_concat' _).resolve_left hcomps
      exact ⟨above, last, [], rest, hlast, by rw [hrest, hlast]; simp, hne'⟩
    · obtain ⟨above, last, more, rest, h, hqs, _, hrest⟩ := h
      exact ⟨above, last, more, rest, h, hqs, hrest⟩

/-! ### The relative path and its first two characters -/

private theorem hasFilename_of_name {name : CString} (hname : name ≠ []) (hslash : '/' ∉ name) :
    hasFilename name = true := by
  have hlast : name.getLast? ≠ some '/' := fun h => hslash (List.mem_of_getLast? h)
  simp [hasFilename, hname, hlast]

/-- Appending names to a text that starts with `name` leaves `name` its first component. -/
private theorem foldl_append_names {name : CString} (hname : name ≠ []) (hslash : '/' ∉ name)
    (parts : List CString) (hparts : ∀ part ∈ parts, isAbsolute part = false) (more : CString)
    (hmore : more = [] ∨ more.head? = some '/') :
    ∃ more', parts.foldl append (name ++ more) = name ++ more' ∧
      (more' = [] ∨ more'.head? = some '/') := by
  induction parts generalizing more with
  | nil => exact ⟨more, rfl, hmore⟩
  | cons part parts ih =>
    have hrest : ∀ p ∈ parts, isAbsolute p = false :=
      fun p hp => hparts p (List.mem_cons_of_mem _ hp)
    rw [List.foldl_cons]
    unfold append
    rw [hparts part List.mem_cons_self, if_neg Bool.false_ne_true]
    by_cases hfile : hasFilename (name ++ more) = true
    · rw [if_pos hfile, List.append_assoc]
      apply ih hrest
      right
      rcases hmore with rfl | hmore
      · rfl
      · obtain ⟨text, rfl⟩ := List.head?_eq_some_iff.mp hmore
        rfl
    · rw [if_neg hfile, List.append_assoc]
      apply ih hrest
      rcases hmore with rfl | hmore
      · rw [List.append_nil] at hfile
        exact absurd (hasFilename_of_name hname hslash) hfile
      · obtain ⟨text, rfl⟩ := List.head?_eq_some_iff.mp hmore
        exact .inr rfl

private theorem foldl_append_dots {name : CString} (hname : name ≠ []) (hslash : '/' ∉ name)
    (parts : List CString) (hparts : ∀ part ∈ parts, isAbsolute part = false) :
    (name :: parts).foldl append [] ≠ [] ∧
      (dotdot <+: (name :: parts).foldl append [] ↔ dotdot <+: name) := by
  have hrelative : isAbsolute name = false := by
    refine decide_eq_false fun h => hslash ?_
    exact List.mem_of_head? h
  have hfirst : append [] name = name ++ [] := by
    unfold append
    rw [hrelative, List.append_nil]
    rfl
  rw [List.foldl_cons, hfirst]
  obtain ⟨more, htext, hmore⟩ := foldl_append_names hname hslash parts hparts [] (.inl rfl)
  rw [htext]
  refine ⟨by simp [hname], ?_⟩
  rcases hmore with rfl | hmore
  · rw [List.append_nil]
  · obtain ⟨text, rfl⟩ := List.head?_eq_some_iff.mp hmore
    exact prefix_append_separator_iff (by decide) name text

/-- Every component of the directory that is left over costs one `..`. -/
private theorem count_parts (bs : List CString)
    (hbs : ∀ b ∈ bs, b ≠ dotdot ∧ b ≠ [] ∧ b ≠ dot) (n : Int) :
    bs.foldl (fun n b => if b = dotdot then n - 1
      else if b ≠ [] ∧ b ≠ dot then n + 1 else n) n = n + bs.length := by
  induction bs generalizing n with
  | nil => simp
  | cons b bs ih =>
    obtain ⟨hup, hnil, hdot⟩ := hbs b List.mem_cons_self
    rw [List.foldl_cons, if_neg hup, if_pos ⟨hnil, hdot⟩,
      ih (fun x hx => hbs x (List.mem_cons_of_mem _ hx)), List.length_cons]
    push_cast
    ring

private theorem valid_parts (hp : NormalParts ns slash) :
    ∀ part ∈ ns ++ (if slash then [[]] else []), part = [] ∨ ValidName part := by
  intro part hpart
  rcases List.mem_append.mp hpart with h | h
  · exact .inr (hp.valid part h)
  · left
    split_ifs at h <;> simp_all

private theorem relative_parts {ps : List CString}
    (hps : ∀ part ∈ ps, part = [] ∨ ValidName part) : ∀ part ∈ ps, isAbsolute part = false := by
  intro part hpart
  rcases hps part hpart with rfl | h
  · rfl
  · exact h.isRelative

theorem lexicallyRelative_below {p dir name : CString} {rest : List CString}
    (hp : isAbsolute p = true) (hdir : isAbsolute dir = true)
    (h : components p = components dir ++ name :: rest) :
    lexicallyRelative p dir = if name = [] then dot else (name :: rest).foldl append [] := by
  unfold lexicallyRelative
  rw [hp, hdir, if_neg (by simp), h, mismatch_append_self]
  simp

theorem lexicallyRelative_above {p dir b : CString} {as bs : List CString}
    (hp : isAbsolute p = true) (hdir : isAbsolute dir = true)
    (h : mismatch (components p) (components dir) = (as, b :: bs))
    (hbs : ∀ part ∈ b :: bs, ValidName part) :
    lexicallyRelative p dir =
      (dotdot :: (List.replicate bs.length dotdot ++ as)).foldl append [] := by
  have hcount := count_parts (b :: bs)
    (fun part hpart => ⟨(hbs part hpart).notDotdot, (hbs part hpart).nonempty,
      (hbs part hpart).notDot⟩) 0
  have hlength : (0 + ((b :: bs).length : Int)) = (bs.length + 1 : Nat) := by simp
  rw [hlength] at hcount
  unfold lexicallyRelative
  rw [hp, hdir, if_neg (by simp), h]
  dsimp only
  rw [hcount, if_neg (by simp), if_neg (by rintro ⟨h0, _⟩; omega), if_pos (by omega),
    Int.toNat_natCast, List.replicate_succ, List.cons_append]

/-- Below the directory the test reads the first name only. -/
theorem isCapioPath_below {p dir name : CString} {rest : List CString}
    (hp : isAbsolute p = true) (hdir : isAbsolute dir = true)
    (h : components p = components dir ++ name :: rest)
    (hvalid : ∀ part ∈ name :: rest, part = [] ∨ ValidName part) :
    isCapioPath dir p = true ↔ ¬ dotdot <+: name := by
  unfold isCapioPath isPrefix
  rw [lexicallyRelative_below hp hdir h]
  split_ifs with hempty
  · simp [hempty, dot, dotdot]
  · have hname := (hvalid name List.mem_cons_self).resolve_left hempty
    obtain ⟨hnil, htext⟩ := foldl_append_dots hname.nonempty hname.slashFree rest
      (fun part hpart => relative_parts hvalid part (List.mem_cons_of_mem _ hpart))
    generalize (name :: rest).foldl append [] = text at hnil htext ⊢
    rw [← htext, ← List.isPrefixOf_iff_prefix]
    cases hdot : dotdot.isPrefixOf text <;> simp [hnil, hdot]

/-- Leaving the directory starts with `..`. -/
theorem isCapioPath_above {p dir b : CString} {as bs : List CString}
    (hp : isAbsolute p = true) (hdir : isAbsolute dir = true)
    (h : mismatch (components p) (components dir) = (as, b :: bs))
    (has : ∀ part ∈ as, part = [] ∨ ValidName part) (hbs : ∀ part ∈ b :: bs, ValidName part) :
    isCapioPath dir p = false := by
  have hparts : ∀ part ∈ List.replicate bs.length dotdot ++ as, isAbsolute part = false := by
    intro part hpart
    rcases List.mem_append.mp hpart with h | h
    · rw [List.eq_of_mem_replicate h]
      rfl
    · exact relative_parts has part h
  obtain ⟨_, htext⟩ := foldl_append_dots (by decide : dotdot ≠ []) (by decide) _ hparts
  have hdots := List.isPrefixOf_iff_prefix.mpr (htext.mpr (List.prefix_refl _))
  unfold isCapioPath isPrefix
  rw [lexicallyRelative_above hp hdir h hbs]
  generalize (dotdot :: (List.replicate bs.length dotdot ++ as)).foldl append [] = text at hdots ⊢
  simp [hdots]

theorem isCapioPath_iff (hdir : NormalParts ds false) (hp : NormalParts ns slash)
    (hne : normalText ns slash ≠ normalText ds false) :
    isCapioPath (normalText ds false) (normalText ns slash) = true ↔
      Inside (normalText ds false) (normalText ns slash) ∧
        ¬ StartsWithDots (normalText ds false) (normalText ns slash) := by
  have hcd : components (normalText ds false) = ['/'] :: ds := by
    simpa using components_normalText hdir
  have hcp := components_normalText hp
  have hvalid := valid_parts hp
  rw [List.cons_append] at hcp
  generalize ns ++ (if slash then [[]] else []) = ps at hcp hvalid
  by_cases hinside : Inside (normalText ds false) (normalText ns slash)
  · obtain ⟨rest, hrest, hne'⟩ := (inside_iff _ _).mp hinside
    obtain ⟨name, rest, rfl⟩ := List.exists_cons_of_ne_nil hne'
    have hps : ps = ds ++ name :: rest := by
      rw [hcp, hcd] at hrest
      exact (List.cons.inj hrest).2
    have hdots : StartsWithDots (normalText ds false) (normalText ns slash) ↔ dotdot <+: name := by
      constructor
      · intro ⟨name', rest', h, hdot⟩
        rw [hrest, List.append_cancel_left_eq, List.cons.injEq] at h
        exact h.1 ▸ hdot
      · exact fun hdot => ⟨name, rest, hrest, hdot⟩
    rw [hdots, and_iff_right hinside]
    refine isCapioPath_below (isAbsolute_normalText _ _) (isAbsolute_normalText _ _) hrest ?_
    intro part hpart
    exact hvalid part (hps ▸ List.mem_append_right ds hpart)
  · refine iff_of_false ?_ (fun h => hinside h.1)
    have hnot : ¬ ds <+: ps := by
      intro h
      refine hinside ⟨?_, fun heq => hne (components_injective hdir hp heq).symm⟩
      rw [hcd, hcp]
      exact List.cons_prefix_cons.mpr ⟨rfl, h⟩
    have hmismatch : mismatch (components (normalText ns slash)) (components (normalText ds false)) =
        mismatch ps ds := by
      simp [hcp, hcd, mismatch]
    obtain ⟨has, hbs⟩ := mismatch_suffix ps ds
    have hbne := mt (mismatch_snd_eq_nil_iff ps ds).mp hnot
    generalize mismatch ps ds = left at *
    obtain ⟨as, bs⟩ := left
    obtain ⟨b, bs, rfl⟩ := List.exists_cons_of_ne_nil hbne
    rw [isCapioPath_above (isAbsolute_normalText _ _) (isAbsolute_normalText _ _) hmismatch
      (fun part hpart => hvalid part (has.subset hpart))
      (fun part hpart => hdir.valid part (hbs.subset hpart))]
    exact Bool.false_ne_true

end Normal

/-- The three tests agree exactly when neither kind of name occurs. -/
theorem path_tests_agree_iff (env : Env) (hdir : RealPath env.capioDir) (p : CString)
    (habs : isAbsolute p = true) (hnormal : lexicallyNormal p = p) (hne : p ≠ env.capioDir) :
    PathTestsAgree env p ↔
      ¬ StartsWithDots env.capioDir p ∧ ¬ ExtendsDirName env.capioDir p := by
  obtain ⟨ds, hds, hdsne, henv⟩ := hdir.exists_rooted
  obtain ⟨ns, slash, hns, rfl⟩ := exists_normalText habs hnormal
  have hne' : normalText ns slash ≠ normalText ds false := henv ▸ hne
  have hclient := isCapioPath_iff hds hns hne'
  have hengine := fileToBeHandled_iff hds hdsne henv hns hne'
  have hparser := firstIsSubpathOfSecond_iff hds hns hne'
  unfold PathTestsAgree
  rw [← henv] at hclient hparser
  rw [hclient, hengine, hparser]
  constructor
  · intro ⟨hc, he, _⟩
    refine ⟨fun hdots => (hc.mpr hdots.inside).2 hdots, fun hext => ?_⟩
    exact hext.not_inside (he.mp (.inr hext))
  · intro ⟨hdots, hext⟩
    exact ⟨and_iff_left hdots, or_iff_left hext, Iff.rfl⟩

def siblingEnv : Env := { capioDir := "/c".toList, capioMetadataDir := none }

theorem path_tests_agree_iff_sibling :
    RealPath siblingEnv.capioDir ∧
      (PathTestsAgree siblingEnv "/c/d".toList ↔
        ¬ StartsWithDots siblingEnv.capioDir "/c/d".toList ∧
          ¬ ExtendsDirName siblingEnv.capioDir "/c/d".toList) := by
  have hdir : RealPath siblingEnv.capioDir := ⟨by decide, by decide, by decide⟩
  exact ⟨hdir, path_tests_agree_iff siblingEnv hdir "/c/d".toList (by decide) (by decide)
    (by decide)⟩

/-- The engine takes the path in the sibling directory `/c2` for one of its own. -/
theorem sibling_directory_handled :
    ¬ ∀ (env : Env), RealPath env.capioDir → ∀ p : CString, isAbsolute p = true →
      lexicallyNormal p = p → p ≠ env.capioDir → PathTestsAgree env p := by
  intro h
  have hagree := h siblingEnv ⟨by decide, by decide, by decide⟩ "/c2/x".toList (by decide)
    (by decide) (by decide)
  have hinside : Inside siblingEnv.capioDir "/c2/x".toList := hagree.2.1.mp (by decide)
  exact absurd (hagree.2.2.mpr hinside) (by decide)

end Capio.Server
