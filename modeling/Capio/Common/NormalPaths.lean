import Capio.Common.StdPath
import Capio.Library.Joined

/-! Absolute paths in lexically normal form, told by their names and whether the text ends in a
slash. -/
namespace Capio.StdPath
open Library

structure ValidName (name : CString) : Prop where
  nonempty : name ≠ []
  slashFree : '/' ∉ name
  notDot : name ≠ dot
  notDotdot : name ≠ dotdot

theorem ValidName.isRelative {name : CString} (h : ValidName name) : isAbsolute name = false :=
  decide_eq_false fun h' => h.slashFree (List.mem_of_head? h')

def rooted (ns : List CString) : CString := '/' :: ['/'].intercalate ns

theorem rooted_ne_nil (ns : List CString) : rooted ns ≠ [] := List.cons_ne_nil _ _

def normalText (ns : List CString) (slash : Bool) : CString :=
  rooted ns ++ if slash then ['/'] else []

/-- What `ns` and `slash` must satisfy for `normalText` to be in normal form. -/
structure NormalParts (ns : List CString) (slash : Bool) : Prop where
  valid : ∀ name ∈ ns, ValidName name
  named : slash = true → ns ≠ []

theorem isAbsolute_normalText (ns : List CString) (slash : Bool) :
    isAbsolute (normalText ns slash) = true := rfl

section Names
variable {ns : List CString} {slash : Bool}

private theorem filter_valid (hns : ∀ name ∈ ns, ValidName name) :
    ns.filter (fun name => decide (name ≠ [])) = ns := by
  rw [List.filter_eq_self]
  intro name hname
  exact decide_eq_true (hns name hname).nonempty

private theorem filter_splitOn_joined (hns : ∀ name ∈ ns, ValidName name) :
    ((['/'].intercalate ns).splitOn '/').filter (fun name => decide (name ≠ [])) = ns := by
  by_cases hne : ns = []
  · subst hne
    rfl
  · rw [List.splitOn_intercalate '/' (fun name hname => (hns name hname).slashFree) hne]
    exact filter_valid hns

theorem names_normalText (hns : ∀ name ∈ ns, ValidName name) :
    names (normalText ns slash) = ns := by
  unfold names normalText rooted
  rw [List.cons_append, List.splitOn_cons_eq_if_modifyHead, if_pos (beq_self_eq_true '/')]
  cases slash with
  | false => simpa using filter_splitOn_joined hns
  | true =>
    rw [if_pos rfl, List.splitOn_append_cons_self]
    simpa using filter_splitOn_joined hns

/-- The text up to the slash before the last name. -/
def parentText (init : List CString) : CString := if init = [] then [] else rooted init

theorem rooted_concat (init : List CString) (last : CString) :
    rooted (init ++ [last]) = parentText init ++ '/' :: last := by
  unfold parentText rooted
  split_ifs with h
  · simp [h]
  · rw [intercalate_concat '/' h, List.cons_append]

theorem getLast_rooted (hns : ∀ name ∈ ns, ValidName name) (hne : ns ≠ []) :
    ∃ c, (rooted ns).getLast? = some c ∧ c ≠ '/' := by
  obtain ⟨init, last, rfl⟩ := (List.eq_nil_or_concat' ns).resolve_left hne
  have hlast := hns last (by simp)
  obtain ⟨c, hc⟩ := Option.isSome_iff_exists.mp
    (List.getLast?_isSome.mpr hlast.nonempty)
  refine ⟨c, ?_, ?_⟩
  · rw [rooted_concat, List.getLast?_append, List.getLast?_cons, hc]
    rfl
  · intro h
    exact hlast.slashFree (h ▸ List.mem_of_getLast? hc)

theorem hasFilename_normalText (h : NormalParts ns slash) :
    hasFilename (normalText ns slash) = (decide (ns ≠ []) && !slash) := by
  unfold hasFilename normalText
  cases slash with
  | true => simp
  | false =>
    by_cases hne : ns = []
    · subst hne
      rfl
    · obtain ⟨c, hc, hslash⟩ := getLast_rooted h.valid hne
      simp [hc, hslash, hne, rooted_ne_nil]

theorem components_normalText (h : NormalParts ns slash) :
    components (normalText ns slash) = ['/'] :: ns ++ if slash then [[]] else [] := by
  unfold components
  rw [isAbsolute_normalText, names_normalText h.valid, hasFilename_normalText h]
  cases slash with
  | true => simp [h.named rfl]
  | false => by_cases hne : ns = [] <;> simp [hne]

private theorem dropWhile_slash (init : List CString)
    (hinit : ∀ name ∈ init, ValidName name) :
    ('/' :: (parentText init).reverse).dropWhile (· = '/') = (parentText init).reverse := by
  unfold parentText
  split_ifs with hne
  · rfl
  · obtain ⟨c, hc, hslash⟩ := getLast_rooted hinit hne
    rw [List.getLast?_eq_head?_reverse] at hc
    obtain ⟨rest, hrest⟩ := List.head?_eq_some_iff.mp hc
    simp [hrest, hslash]

/-- Dropping what follows the last slash and the slash itself. -/
private theorem parent_of_split (init : List CString) (hinit : ∀ name ∈ init, ValidName name)
    {last : CString} (hlast : '/' ∉ last) :
    ((parentText init ++ '/' :: last).reverse.dropWhile (· ≠ '/')).dropWhile (· = '/') =
      (parentText init).reverse := by
  rw [List.reverse_append, List.reverse_cons, List.append_assoc, List.dropWhile_append_of_pos]
  · simpa using dropWhile_slash init hinit
  · intro c hc
    refine decide_eq_true fun h => hlast ?_
    rw [← h]
    exact List.mem_reverse.mp hc

/-- The names of the parent: all of them before a trailing slash, else all but the last. -/
def parentNames (ns : List CString) (slash : Bool) : List CString :=
  if slash then ns else ns.dropLast

private theorem parentPath_of_split (init : List CString)
    (hinit : ∀ name ∈ init, ValidName name) {last p : CString} (hlast : '/' ∉ last)
    (hp : p = parentText init ++ '/' :: last) (hnames : names p ≠ []) (habs : isAbsolute p = true) :
    parentPath p = rooted init := by
  unfold parentPath
  rw [if_neg hnames, habs, hp, parent_of_split init hinit hlast, if_pos rfl]
  by_cases h : init = []
  · subst h
    rfl
  · have htext : parentText init = rooted init := if_neg h
    rw [htext]
    cases hr : (rooted init).reverse with
    | nil => exact absurd (List.reverse_eq_nil_iff.mp hr) (rooted_ne_nil init)
    | cons c text =>
      dsimp only
      rw [← hr, List.reverse_reverse]

theorem parentPath_normalText (h : NormalParts ns slash) :
    parentPath (normalText ns slash) = rooted (parentNames ns slash) := by
  have hnames : names (normalText ns slash) = ns := names_normalText h.valid
  by_cases hne : ns = []
  · subst hne
    cases slash with
    | true => exact absurd rfl (h.named rfl)
    | false => rfl
  · cases slash with
    | true =>
      refine parentPath_of_split ns h.valid List.not_mem_nil ?_ (by rwa [hnames])
        (isAbsolute_normalText ns true)
      simp [normalText, parentText, hne]
    | false =>
      obtain ⟨init, last, rfl⟩ := (List.eq_nil_or_concat' ns).resolve_left hne
      have hparent : parentNames (init ++ [last]) false = init := by simp [parentNames]
      rw [hparent]
      refine parentPath_of_split init (fun name hname => h.valid name (by simp [hname]))
        (h.valid last (by simp)).slashFree ?_ (by rwa [hnames])
        (isAbsolute_normalText _ false)
      simp [normalText, rooted_concat]

end Names

end Capio.StdPath
