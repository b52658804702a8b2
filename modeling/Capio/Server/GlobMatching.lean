import Capio.Library.Wildcard
import Capio.Server.ClEngine

/-! What `match_globs` computes, against the words that a glob stands for. -/
namespace Capio.Server
open Library Library.Wildcard

def globToken (c : Char) : Token Char :=
  if c = '*' then .many else if c = '?' then .one else .literal c

/-- The path is the glob with a character for each `?` and any text for each `*`. -/
def GlobMatches (glob path : CString) : Prop := path ∈ language (glob.map globToken)

def beforeStar (glob : CString) : CString := glob.takeWhile (· ≠ '*')

def afterStar (glob : CString) : CString := (glob.dropWhile (· ≠ '*')).drop 1

/-- The two texts agree as far as both go. -/
def Agrees (glob path : CString) : Prop := ∀ c ∈ glob.zip path, c.1 = '?' ∨ c.1 = c.2

instance (glob path : CString) : Decidable (Agrees glob path) :=
  inferInstanceAs (Decidable (∀ c ∈ glob.zip path, c.1 = '?' ∨ c.1 = c.2))

/-- What the loop answers when it comes to a star. -/
def starAnswer (glob path : CString) : Option Bool :=
  if glob.getLast? = some '*' then some true
  else if path.length < (afterStar glob).length then none
  else some (path.drop (path.length - (afterStar glob).length) ≠ afterStar glob)

variable {glob path pre suf ts : CString}

/-! ### The two notions along a text without stars -/

theorem agrees_cons {g t : Char} {gs : CString} :
    Agrees (g :: gs) (t :: ts) ↔ (g = '?' ∨ g = t) ∧ Agrees gs ts := by
  unfold Agrees
  rw [List.zip_cons_cons, List.forall_mem_cons]

theorem agrees_nil_right : Agrees glob [] := by
  rw [Agrees, List.zip_nil_right]
  exact fun _ h => absurd h List.not_mem_nil

theorem agrees_take : Agrees glob (path.take glob.length) ↔ Agrees glob path := by
  induction glob generalizing path with
  | nil => exact Iff.rfl
  | cons g gs ih =>
    cases path with
    | nil => exact Iff.rfl
    | cons t ts => rw [List.length_cons, List.take_succ_cons, agrees_cons, agrees_cons, ih]

theorem fits_globToken {g t : Char} (h : g ≠ '*') : (globToken g).Fits t ↔ g = '?' ∨ g = t := by
  unfold globToken
  rw [if_neg h]
  split_ifs with hq
  · exact iff_of_true trivial (.inl hq)
  · simp [Token.Fits, hq]

theorem forall₂_fits_iff (h : '*' ∉ pre) :
    List.Forall₂ Token.Fits (pre.map globToken) ts ↔ ts.length = pre.length ∧ Agrees pre ts := by
  induction pre generalizing ts with
  | nil => simp [Agrees]
  | cons g gs ih =>
    have hg : g ≠ '*' := fun he => h (he ▸ List.mem_cons_self)
    cases ts with
    | nil => simp
    | cons t ts =>
      rw [List.map_cons, List.forall₂_cons, fits_globToken hg, agrees_cons,
        ih (List.not_mem_of_not_mem_cons h), List.length_cons, List.length_cons, Nat.succ_inj]
      exact and_left_comm

theorem many_not_mem_map (h : '*' ∉ pre) : Token.many ∉ pre.map globToken := by
  intro hmem
  obtain ⟨g, hg, he⟩ := List.mem_map.mp hmem
  unfold globToken at he
  split_ifs at he with hstar
  exact h (hstar ▸ hg)

theorem globMatches_fixed (h : '*' ∉ glob) :
    GlobMatches glob path ↔ path.length = glob.length ∧ Agrees glob path := by
  rw [GlobMatches, mem_language_fixed (many_not_mem_map h), forall₂_fits_iff h]

theorem globMatches_append (h : '*' ∉ pre) : GlobMatches (pre ++ suf) path ↔
    pre.length ≤ path.length ∧ Agrees pre path ∧ GlobMatches suf (path.drop pre.length) := by
  rw [GlobMatches, List.map_append, mem_language_fixed_append (many_not_mem_map h), List.length_map,
    forall₂_fits_iff h, agrees_take, List.length_take]
  refine and_congr_right fun hle => ?_
  rw [Nat.min_eq_left hle, eq_self, true_and]
  rfl

theorem globMatches_star :
    GlobMatches ('*' :: suf) path ↔ ∃ rest, rest <:+ path ∧ GlobMatches suf rest :=
  mem_language_many

theorem globMatches_star_nil : GlobMatches ('*' :: suf) [] ↔ ∀ c ∈ suf, c = '*' := by
  have htoken (c : Char) : globToken c = .many ↔ c = '*' := by
    unfold globToken
    split_ifs with hstar hq <;> simp [*]
  rw [GlobMatches, nil_mem_language_iff, List.forall_mem_map, List.forall_mem_cons]
  simp only [htoken, true_and]

/-! ### The loop of `match_globs` -/

theorem matchGlobsLoop_mismatch {gs : CString} (hpre : '*' ∉ pre) (h : ¬ Agrees pre ts) :
    matchGlobsLoop glob path (pre ++ gs) ts = some false := by
  induction pre generalizing ts with
  | nil => exact absurd (fun _ h => absurd h List.not_mem_nil) h
  | cons g pre ih =>
    have hg : g ≠ '*' := fun he => hpre (he ▸ List.mem_cons_self)
    cases ts with
    | nil => exact absurd agrees_nil_right h
    | cons t ts =>
      rw [agrees_cons, not_and_or, not_or] at h
      rw [List.cons_append, matchGlobsLoop, if_neg hg]
      split_ifs with hne
      · rfl
      · exact ih (List.not_mem_of_not_mem_cons hpre) (h.resolve_left hne)

/-- The loop goes through what agrees. -/
theorem matchGlobsLoop_agrees {gs : CString} (hpre : '*' ∉ pre) (h : Agrees pre ts) :
    matchGlobsLoop glob path (pre ++ gs) ts =
      if ts.length ≤ pre.length then some true
      else matchGlobsLoop glob path gs (ts.drop pre.length) := by
  induction pre generalizing ts with
  | nil =>
    cases ts with
    | nil => cases gs <;> rfl
    | cons t ts => rfl
  | cons g pre ih =>
    have hg : g ≠ '*' := fun he => hpre (he ▸ List.mem_cons_self)
    cases ts with
    | nil => rfl
    | cons t ts =>
      obtain ⟨hgt, hrest⟩ := agrees_cons.mp h
      have hne : ¬ (g ≠ '?' ∧ g ≠ t) := fun hne => hgt.elim hne.1 hne.2
      rw [List.cons_append, matchGlobsLoop, if_neg hg, if_neg hne,
        ih (List.not_mem_of_not_mem_cons hpre) hrest]
      simp only [List.length_cons, Nat.succ_le_succ_iff, List.drop_succ_cons]

theorem matchGlobsLoop_star {t : Char} :
    matchGlobsLoop glob path ('*' :: suf) (t :: ts) = starAnswer glob path := by
  rw [matchGlobsLoop, if_pos rfl]
  rfl

theorem beforeStar_append_afterStar (h : '*' ∈ glob) :
    '*' ∉ beforeStar glob ∧ glob = beforeStar glob ++ '*' :: afterStar glob := by
  induction glob with
  | nil => exact absurd h List.not_mem_nil
  | cons g glob ih =>
    by_cases hg : g = '*'
    · subst hg
      simp [beforeStar, afterStar]
    · obtain ⟨hnot, heq⟩ := ih ((List.mem_cons.mp h).resolve_left (Ne.symm hg))
      have hbefore : beforeStar (g :: glob) = g :: beforeStar glob := by simp [beforeStar, hg]
      have hafter : afterStar (g :: glob) = afterStar glob := by simp [afterStar, hg]
      rw [hbefore, hafter, List.cons_append, ← heq]
      exact ⟨List.not_mem_cons_of_ne_of_not_mem (Ne.symm hg) hnot, rfl⟩

/-- The scan by parts: what stands before the first star, then what stands behind it. -/
theorem matchGlobs_eq (path : CString) (h : '*' ∈ glob) : matchGlobs glob path =
    if ¬ Agrees (beforeStar glob) path then some false
    else if path.length ≤ (beforeStar glob).length then some true
    else starAnswer glob path := by
  obtain ⟨hpre, heq⟩ := beforeStar_append_afterStar h
  have hne : glob ≠ [] := List.ne_nil_of_mem h
  have hloop : matchGlobs glob path =
      matchGlobsLoop glob path (beforeStar glob ++ '*' :: afterStar glob) path := by
    rw [matchGlobs, if_neg hne, ← heq]
  rw [hloop]
  split_ifs with hagrees hle
  · rw [matchGlobsLoop_agrees hpre hagrees, if_pos hle]
  · rw [matchGlobsLoop_agrees hpre hagrees, if_neg hle]
    cases hrest : path.drop (beforeStar glob).length with
    | nil => exact absurd (List.drop_eq_nil_iff.mp hrest) hle
    | cons t ts => exact matchGlobsLoop_star
  · exact matchGlobsLoop_mismatch hpre hagrees

theorem beforeStar_of_not_mem (h : '*' ∉ glob) : beforeStar glob = glob := by
  rw [beforeStar, List.takeWhile_eq_self_iff]
  intro c hc
  rw [decide_eq_true_eq]
  rintro rfl
  exact h hc

/-- Without stars the two texts are compared as far as both go. -/
theorem matchGlobs_fixed (hne : glob ≠ []) (h : '*' ∉ glob) :
    matchGlobs glob path = some (decide (Agrees glob path)) := by
  have hloop : matchGlobs glob path = matchGlobsLoop glob path (glob ++ []) path := by
    rw [matchGlobs, if_neg hne, List.append_nil]
  rw [hloop]
  by_cases hagrees : Agrees glob path
  · rw [matchGlobsLoop_agrees h hagrees, decide_eq_true hagrees]
    split_ifs
    · rfl
    · rw [matchGlobsLoop]
  · rw [matchGlobsLoop_mismatch h hagrees, decide_eq_false hagrees]

/-- The text behind the first star is compared with the end of the path, and found different. -/
theorem starAnswer_eq_some_iff (hlast : glob.getLast? ≠ some '*') {answer : Bool} :
    starAnswer glob path = some answer ↔ (afterStar glob).length ≤ path.length ∧
      (answer = true ↔ ¬ afterStar glob <:+ path) := by
  rw [starAnswer, if_neg hlast]
  split_ifs with hlt
  · exact iff_of_false (fun h => nomatch h) (fun h => absurd h.1 (by omega))
  · rw [Option.some.injEq, and_iff_right (by omega), List.suffix_iff_eq_drop, Bool.eq_iff_iff]
    simp only [decide_eq_true_eq, ne_eq]
    exact ⟨fun h => h.symm.trans (not_congr eq_comm), fun h => (not_congr eq_comm).trans h.symm⟩

/-- The texts agree up to the first star, and the path ends there, or the glob ends with a star, or
the path does not end with the text behind it. -/
def Accepted (glob path : CString) : Prop :=
  glob ≠ [] ∧ Agrees (beforeStar glob) path ∧
    ('*' ∈ glob → (beforeStar glob).length < path.length → glob.getLast? ≠ some '*' →
      (afterStar glob).length ≤ path.length ∧ ¬ afterStar glob <:+ path)

/-- The text behind the first star is longer than the path it is compared with. -/
def ReadsPastEnd (glob path : CString) : Prop :=
  '*' ∈ glob ∧ Agrees (beforeStar glob) path ∧ (beforeStar glob).length < path.length ∧
    glob.getLast? ≠ some '*' ∧ path.length < (afterStar glob).length

instance (glob path : CString) : Decidable (Accepted glob path) :=
  inferInstanceAs (Decidable (_ ∧ _ ∧ _))

theorem matchGlobs_true_iff : matchGlobs glob path = some true ↔ Accepted glob path := by
  unfold Accepted
  by_cases hstar : '*' ∈ glob
  · have hne : glob ≠ [] := List.ne_nil_of_mem hstar
    rw [matchGlobs_eq path hstar]
    split_ifs with hagrees hle
    · simp [hne, hagrees, hle]
    · by_cases hlast : glob.getLast? = some '*'
      · simp [starAnswer, hne, hagrees, hlast]
      · rw [starAnswer_eq_some_iff hlast]
        simp [hne, hagrees, hstar, hlast, not_le.mp hle]
    · simp [hagrees]
  · rw [beforeStar_of_not_mem hstar]
    by_cases hne : glob = []
    · simp [hne, matchGlobs]
    · simp [matchGlobs_fixed hne hstar, hne, hstar]

theorem matchGlobs_none_iff : matchGlobs glob path = none ↔ ReadsPastEnd glob path := by
  unfold ReadsPastEnd
  by_cases hstar : '*' ∈ glob
  · rw [matchGlobs_eq path hstar]
    split_ifs with hagrees hle
    · simp [not_lt.mpr hle]
    · by_cases hlast : glob.getLast? = some '*'
      · simp [starAnswer, hlast]
      · simp [starAnswer, hagrees, hstar, hlast, not_le.mp hle]
    · simp [hagrees]
  · by_cases hne : glob = []
    · simp [hne, matchGlobs]
    · simp [matchGlobs_fixed hne hstar, hstar]

/-! ### When the answer is right -/

/-- The comparison returns, and it accepts exactly the words of the glob. -/
def AnswersRight (glob path : CString) : Prop :=
  ∃ answer, matchGlobs glob path = some answer ∧ (answer = true ↔ GlobMatches glob path)

/-- What is left of the path behind the part of the glob before its first star. -/
def behind (glob path : CString) : CString := path.drop (beforeStar glob).length

/-- The five ways in which the scan says what the glob means. -/
inductive ScanSuffices (glob path : CString) : Prop
  /-- a character before the first star differs -/
  | mismatch : ¬ Agrees (beforeStar glob) path → ScanSuffices glob path
  /-- the path ends at the first star, and only stars follow -/
  | ends : Agrees (beforeStar glob) path → path.length = (beforeStar glob).length →
      (∀ c ∈ afterStar glob, c = '*') → ScanSuffices glob path
  /-- the last character of the glob is a star, and the rest of the path matches up to it -/
  | openEnd : Agrees (beforeStar glob) path → (beforeStar glob).length < path.length →
      glob.getLast? = some '*' → GlobMatches ('*' :: afterStar glob) (behind glob path) →
      ScanSuffices glob path
  /-- the path ends with the text behind the first star, but too early for it -/
  | overlap : Agrees (beforeStar glob) path → (beforeStar glob).length < path.length →
      glob.getLast? ≠ some '*' → afterStar glob <:+ path →
      (∀ rest, rest <:+ behind glob path → ¬ GlobMatches (afterStar glob) rest) →
      ScanSuffices glob path
  /-- the path is long enough for that text and ends with a match of it, but not with the text -/
  | otherText (rest : CString) : Agrees (beforeStar glob) path →
      (beforeStar glob).length < path.length → glob.getLast? ≠ some '*' →
      (afterStar glob).length ≤ path.length → ¬ afterStar glob <:+ path →
      rest <:+ behind glob path → GlobMatches (afterStar glob) rest → ScanSuffices glob path

theorem globMatches_iff_behind (path : CString) (h : '*' ∈ glob) : GlobMatches glob path ↔
    (beforeStar glob).length ≤ path.length ∧ Agrees (beforeStar glob) path ∧
      GlobMatches ('*' :: afterStar glob) (behind glob path) := by
  obtain ⟨hpre, heq⟩ := beforeStar_append_afterStar h
  conv_lhs => rw [heq]
  exact globMatches_append hpre

private theorem answersRight_iff {answer : Bool} (h : matchGlobs glob path = some answer) :
    AnswersRight glob path ↔ (answer = true ↔ GlobMatches glob path) := by
  rw [AnswersRight, h]
  simp

section Cases
variable (hagrees : Agrees (beforeStar glob) path)
include hagrees

theorem scanSuffices_short (hle : path.length ≤ (beforeStar glob).length) :
    ScanSuffices glob path ↔ path.length = (beforeStar glob).length ∧ ∀ c ∈ afterStar glob, c = '*' := by
  constructor
  · intro h
    cases h with
    | mismatch hnot => exact absurd hagrees hnot
    | ends _ hlength hstars => exact ⟨hlength, hstars⟩
    | openEnd _ hlt => omega
    | overlap _ hlt => omega
    | otherText _ _ hlt => omega
  · exact fun ⟨hlength, hstars⟩ => .ends hagrees hlength hstars

variable (hlt : (beforeStar glob).length < path.length)
include hlt

theorem scanSuffices_open (hlast : glob.getLast? = some '*') :
    ScanSuffices glob path ↔ GlobMatches ('*' :: afterStar glob) (behind glob path) := by
  constructor
  · intro h
    cases h with
    | mismatch hnot => exact absurd hagrees hnot
    | ends _ hlength => omega
    | openEnd _ _ _ hmatches => exact hmatches
    | overlap _ _ hnot => exact absurd hlast hnot
    | otherText _ _ _ hnot => exact absurd hlast hnot
  · exact .openEnd hagrees hlt hlast

theorem scanSuffices_closed (hlast : glob.getLast? ≠ some '*') :
    ScanSuffices glob path ↔ (afterStar glob).length ≤ path.length ∧
      (¬ afterStar glob <:+ path ↔ GlobMatches ('*' :: afterStar glob) (behind glob path)) := by
  rw [globMatches_star]
  constructor
  · intro h
    cases h with
    | mismatch hnot => exact absurd hagrees hnot
    | ends _ hlength => omega
    | openEnd _ _ hstar => exact absurd hstar hlast
    | overlap _ _ _ hsuffix hnone =>
      exact ⟨hsuffix.length_le, iff_of_false (not_not.mpr hsuffix)
        fun ⟨rest, hrest, hmatches⟩ => hnone rest hrest hmatches⟩
    | otherText rest _ _ _ hle hother hrest hmatches =>
      exact ⟨hle, iff_of_true hother ⟨rest, hrest, hmatches⟩⟩
  · rintro ⟨hle, hiff⟩
    by_cases hsuffix : afterStar glob <:+ path
    · have hnone := mt hiff.mpr (not_not.mpr hsuffix)
      exact .overlap hagrees hlt hlast hsuffix
        fun rest hrest hmatches => hnone ⟨rest, hrest, hmatches⟩
    · obtain ⟨rest, hrest, hmatches⟩ := hiff.mp hsuffix
      exact .otherText rest hagrees hlt hlast hle hsuffix hrest hmatches

end Cases

theorem behind_eq_nil (h : path.length = (beforeStar glob).length) : behind glob path = [] :=
  List.drop_eq_nil_of_le h.le

/-- With a star in the glob, the answer is right exactly in these five ways. -/
theorem match_globs_iff (glob path : CString) (h : '*' ∈ glob) :
    AnswersRight glob path ↔ ScanSuffices glob path := by
  have hscan := matchGlobs_eq path h
  have hmeans := globMatches_iff_behind path h
  by_cases hagrees : Agrees (beforeStar glob) path
  · rw [if_neg (not_not.mpr hagrees)] at hscan
    split_ifs at hscan with hle
    · -- the path is used up before the scan comes to the star
      rw [answersRight_iff hscan, hmeans, scanSuffices_short hagrees hle, eq_self, true_iff]
      constructor
      · rintro ⟨hge, _, hmatches⟩
        have hlength := le_antisymm hle hge
        rw [behind_eq_nil hlength, globMatches_star_nil] at hmatches
        exact ⟨hlength, hmatches⟩
      · rintro ⟨hlength, hstars⟩
        rw [behind_eq_nil hlength, globMatches_star_nil]
        exact ⟨hlength.ge, hagrees, hstars⟩
    · have hlt : (beforeStar glob).length < path.length := by omega
      rw [and_iff_right hlt.le, and_iff_right hagrees] at hmeans
      by_cases hlast : glob.getLast? = some '*'
      · rw [starAnswer, if_pos hlast] at hscan
        rw [answersRight_iff hscan, hmeans, scanSuffices_open hagrees hlt hlast, eq_self, true_iff]
      · rw [scanSuffices_closed hagrees hlt hlast, ← hmeans, AnswersRight, hscan]
        constructor
        · rintro ⟨answer, hanswer, hright⟩
          obtain ⟨hle', hother⟩ := (starAnswer_eq_some_iff hlast).mp hanswer
          exact ⟨hle', hother.symm.trans hright⟩
        · rintro ⟨hle', hother⟩
          refine ⟨decide (¬ afterStar glob <:+ path), (starAnswer_eq_some_iff hlast).mpr ⟨hle', ?_⟩, ?_⟩
          · rw [decide_eq_true_eq]
          · rw [decide_eq_true_eq, hother]
  · rw [if_pos hagrees] at hscan
    rw [answersRight_iff hscan, hmeans]
    exact iff_of_true (by simp [hagrees]) (.mismatch hagrees)

/-- The usual pattern for a kind of file. -/
theorem match_globs_iff_extension : '*' ∈ "*.txt".toList ∧
    (AnswersRight "*.txt".toList "b.txt".toList ↔ ScanSuffices "*.txt".toList "b.txt".toList) :=
  ⟨by decide, match_globs_iff _ _ (by decide)⟩

theorem glob_extension_inverted : ¬ ∀ glob path : CString, '*' ∈ glob → AnswersRight glob path := by
  intro h
  obtain ⟨answer, hanswer, hright⟩ := h "*.txt".toList "b.txt".toList (by decide)
  have hfalse : matchGlobs "*.txt".toList "b.txt".toList = some false := by decide
  have hmatches : GlobMatches "*.txt".toList "b.txt".toList :=
    globMatches_star.mpr ⟨".txt".toList, by decide, (globMatches_fixed (by decide)).mpr (by decide)⟩
  rw [hfalse, Option.some.injEq] at hanswer
  rw [← hanswer] at hright
  exact absurd (hright.mpr hmatches) (by decide)

end Capio.Server
