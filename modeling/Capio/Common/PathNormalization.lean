import Capio.Common.NormalPaths

/-! What lexical normalisation does to the names of a path: it is idempotent, and from an
absolute directory it leads along the names as the kernel does where no name is a link. -/
namespace Capio.StdPath
open Library

/-- A name between slashes. -/
structure IsName (name : CString) : Prop where
  nonempty : name ≠ []
  slashFree : '/' ∉ name

theorem ValidName.isName {name : CString} (h : ValidName name) : IsName name := ⟨h.nonempty, h.slashFree⟩

def pathText (root : Bool) (ns : List CString) (slash : Bool) : CString :=
  (if root then ['/'] else []) ++ ['/'].intercalate ns ++ if slash then ['/'] else []

theorem rooted_eq (ns : List CString) : rooted ns = normalText ns false := (List.append_nil _).symm

theorem names_rooted {ns : List CString} (hns : ∀ name ∈ ns, ValidName name) : names (rooted ns) = ns := by
  rw [rooted_eq, names_normalText hns]

theorem components_rooted {ns : List CString} (hns : ∀ name ∈ ns, ValidName name) :
    components (rooted ns) = ['/'] :: ns := by
  have hparts : NormalParts ns false := ⟨hns, fun h => absurd h Bool.false_ne_true⟩
  rw [rooted_eq, components_normalText hparts]
  exact List.append_nil _

theorem rooted_append {ms ns : List CString} (hms : ms ≠ []) (hns : ns ≠ []) :
    rooted (ms ++ ns) = rooted ms ++ rooted ns := by
  induction ns using List.reverseRecOn with
  | nil => exact absurd rfl hns
  | append_singleton init last ih =>
    rw [← List.append_assoc, rooted_concat, rooted_concat, parentText, parentText]
    by_cases hinit : init = []
    · simp [hinit, hms]
    · rw [if_neg (by simp [hinit]), if_neg hinit, ih hinit, List.append_assoc]

theorem rooted_prefix (ds more : List CString) : rooted ds <+: rooted (ds ++ more) := by
  by_cases hmore : more = []
  · rw [hmore, List.append_nil]
  · by_cases hds : ds = []
    · rw [hds]
      exact ⟨_, rfl⟩
    · rw [rooted_append hds hmore]
      exact List.prefix_append _ _

theorem normalText_slash_iff (ns : List CString) (slash : Bool) : rooted ns = normalText ns slash ↔ slash = false := by
  cases slash <;> simp [normalText]

theorem normalText_eq (ns : List CString) (slash : Bool) : normalText ns slash = pathText true ns slash := rfl

section Text
variable {ns : List CString} {root slash : Bool}

theorem names_append_slash (p q : CString) : names (p ++ '/' :: q) = names p ++ names q := by
  simp only [names, List.splitOn_append_cons_self, List.filter_append]

theorem names_cons_slash (q : CString) : names ('/' :: q) = names q := names_append_slash [] q

theorem names_intercalate (hns : ∀ name ∈ ns, IsName name) : names (['/'].intercalate ns) = ns := by
  by_cases hne : ns = []
  · subst hne
    rfl
  · rw [names, List.splitOn_intercalate '/' (fun name hname => (hns name hname).slashFree) hne,
      List.filter_eq_self]
    exact fun name hname => decide_eq_true (hns name hname).nonempty

theorem names_pathText (hns : ∀ name ∈ ns, IsName name) : names (pathText root ns slash) = ns := by
  have hbody := names_intercalate hns
  have hroot : names ((if root then ['/'] else []) ++ ['/'].intercalate ns) = ns := by
    cases root with
    | true => exact (names_cons_slash _).trans hbody
    | false => exact hbody
  unfold pathText
  cases slash with
  | true =>
    rw [if_pos rfl, names_append_slash, hroot]
    exact List.append_nil ns
  | false => simpa using hroot

theorem intercalate_starts (name : CString) (ns : List CString) :
    ∃ rest, ['/'].intercalate (name :: ns) = name ++ rest := by
  cases ns with
  | nil => exact ⟨[], by simp⟩
  | cons name' ns => exact ⟨'/' :: ['/'].intercalate (name' :: ns), by simp [List.intercalate_cons_cons]⟩

theorem getLast_intercalate (hns : ∀ name ∈ ns, IsName name) (hne : ns ≠ []) :
    ∃ c, (['/'].intercalate ns).getLast? = some c ∧ c ≠ '/' := by
  obtain ⟨init, last, rfl⟩ := (List.eq_nil_or_concat' ns).resolve_left hne
  have hlast := hns last (by simp)
  obtain ⟨c, hc⟩ := Option.isSome_iff_exists.mp (List.getLast?_isSome.mpr hlast.nonempty)
  refine ⟨c, ?_, fun h => hlast.slashFree (h ▸ List.mem_of_getLast? hc)⟩
  by_cases hinit : init = []
  · simpa [hinit] using hc
  · rw [intercalate_concat '/' hinit, List.getLast?_append, List.getLast?_cons, hc]
    rfl

theorem isAbsolute_pathText (hns : ∀ name ∈ ns, IsName name) (hslash : slash = true → ns ≠ []) :
    isAbsolute (pathText root ns slash) = root := by
  unfold pathText
  cases root with
  | true => rfl
  | false =>
    cases ns with
    | nil =>
      cases slash with
      | true => exact absurd rfl (hslash rfl)
      | false => rfl
    | cons name ns =>
      obtain ⟨rest, hrest⟩ := intercalate_starts name ns
      have hname := hns name List.mem_cons_self
      obtain ⟨c, cs, hcs⟩ := List.exists_cons_of_ne_nil hname.nonempty
      have hc : c ≠ '/' := fun h => hname.slashFree (by rw [hcs, h]; exact List.mem_cons_self)
      rw [hrest, hcs]
      simp [isAbsolute, hc]

theorem hasFilename_pathText (hns : ∀ name ∈ ns, IsName name) :
    hasFilename (pathText root ns slash) = (decide (ns ≠ []) && !slash) := by
  unfold hasFilename pathText
  cases slash with
  | true => simp
  | false =>
    by_cases hne : ns = []
    · subst hne
      cases root <;> rfl
    · obtain ⟨c, hc, hslash⟩ := getLast_intercalate hns hne
      have hbody : ['/'].intercalate ns ≠ [] := by
        intro h
        rw [h] at hc
        cases hc
      simp [List.getLast?_append, hc, hslash, hne, hbody]

theorem components_pathText (hns : ∀ name ∈ ns, IsName name) (hslash : slash = true → ns ≠ []) :
    components (pathText root ns slash) =
      (if root then [['/']] else []) ++ ns ++ if slash then [[]] else [] := by
  unfold components
  rw [isAbsolute_pathText hns hslash, names_pathText hns, hasFilename_pathText hns]
  cases slash with
  | true => simp [hslash rfl]
  | false => by_cases hne : ns = [] <;> simp [hne]

end Text
/-! ### Idempotence -/

theorem components_parts (p : CString) :
    ∀ part ∈ components p, part = ['/'] ∨ '/' ∉ part := by
  intro part hpart
  unfold components at hpart
  rcases List.mem_append.mp hpart with hpart | hpart
  · rcases List.mem_append.mp hpart with hpart | hpart
    · split_ifs at hpart <;> simp_all
    · exact .inr (not_mem_of_mem_splitOn (List.mem_filter.mp hpart).1)
  · split_ifs at hpart <;> simp_all

def normalFold (root : Bool) (parts : List CString) (st : List CString × Bool) : List CString × Bool :=
  parts.foldl (fun st part => if part = ['/'] then st else normalStep root st part) st

theorem normalFold_concat (root : Bool) (parts : List CString) (part : CString) (st : List CString × Bool) :
    normalFold root (parts ++ [part]) st =
      if part = ['/'] then normalFold root parts st else normalStep root (normalFold root parts st) part := by
  simp [normalFold]

def endsInSlash (st : List CString × Bool) : Bool :=
  st.2 = true ∧ st.1 ≠ [] ∧ st.1.head? ≠ some dotdot

theorem lexicallyNormal_eq {p : CString} (hp : p ≠ []) :
    lexicallyNormal p =
      if pathText (isAbsolute p) (normalFold (isAbsolute p) (components p) ([], false)).1.reverse
        (endsInSlash (normalFold (isAbsolute p) (components p) ([], false))) = [] then dot
      else pathText (isAbsolute p) (normalFold (isAbsolute p) (components p) ([], false)).1.reverse
        (endsInSlash (normalFold (isAbsolute p) (components p) ([], false))) := by
  unfold lexicallyNormal
  rw [if_neg hp]
  dsimp only
  rw [← normalFold]
  generalize normalFold (isAbsolute p) (components p) ([], false) = st
  obtain ⟨stack, slash⟩ := st
  simp only [pathText, endsInSlash, decide_eq_true_eq]

/-- A stack of the normaliser: names, over `..` only where no root is under it. -/
def StackOk (root : Bool) : List CString → Prop
  | [] => True
  | name :: rest => IsName name ∧ name ≠ dot ∧
      (name = dotdot → root = false ∧ ∀ other ∈ rest, other = dotdot) ∧ StackOk root rest

namespace StackOk
variable {root slash : Bool} {stack : List CString} {part : CString}

theorem isName (h : StackOk root stack) : ∀ name ∈ stack, IsName name := by
  induction stack with
  | nil => exact nofun
  | cons top rest ih =>
    intro name hname
    rcases List.mem_cons.mp hname with rfl | hname
    · exact h.1
    · exact ih h.2.2.2 name hname

theorem step (h : StackOk root stack) (hpart : '/' ∉ part) : StackOk root (normalStep root (stack, slash) part).1 := by
  have hdots : IsName dotdot := ⟨by decide, by decide⟩
  unfold normalStep
  by_cases hup : part = dotdot
  · simp only [hup, if_true]
    cases stack with
    | nil =>
      cases root with
      | true => trivial
      | false => exact ⟨hdots, by decide, fun _ => ⟨rfl, nofun⟩, trivial⟩
    | cons top rest =>
      by_cases htop : top = dotdot
      · simp only [htop, if_true]
        rw [htop] at h
        obtain ⟨hroot, hrest⟩ := h.2.2.1 rfl
        refine ⟨hdots, by decide, fun _ => ⟨hroot, fun other hother => ?_⟩, h⟩
        rcases List.mem_cons.mp hother with rfl | hother
        · rfl
        · exact hrest other hother
      · simp only [htop, if_false]
        exact h.2.2.2
  · simp only [hup, if_false]
    by_cases hstay : part = dot ∨ part = []
    · simpa only [hstay, if_true] using h
    · simp only [hstay, if_false]
      exact ⟨⟨fun he => hstay (.inr he), hpart⟩, fun he => hstay (.inl he), fun he => absurd he hup, h⟩

theorem fold (h : StackOk root stack) {parts : List CString} (hparts : ∀ part ∈ parts, part = ['/'] ∨ '/' ∉ part) :
    StackOk root (normalFold root parts (stack, slash)).1 := by
  induction parts generalizing stack slash with
  | nil => exact h
  | cons part parts ih =>
    have hrest (p : CString) (hp : p ∈ parts) := hparts p (List.mem_cons_of_mem _ hp)
    simp only [normalFold, List.foldl_cons]
    split_ifs with hroot
    · exact ih h hrest
    · exact ih (h.step ((hparts part List.mem_cons_self).resolve_left hroot)) hrest

/-- The names of a stack, read again from the outermost on, make the same stack. -/
theorem fold_reverse (h : StackOk root stack) :
    normalFold root stack.reverse ([], false) = (stack, false) := by
  induction stack with
  | nil => rfl
  | cons name rest ih =>
    obtain ⟨hname, hdot, hdots, hrest⟩ := h
    have hslash : name ≠ ['/'] := fun he => hname.slashFree (by rw [he]; exact List.mem_singleton_self _)
    rw [List.reverse_cons, normalFold_concat, if_neg hslash, ih hrest]
    unfold normalStep
    by_cases hup : name = dotdot
    · obtain ⟨hroot, hall⟩ := hdots hup
      cases rest with
      | nil => simp [hup, hroot]
      | cons top rest => simp [hup, hall top List.mem_cons_self]
    · simp [hup, hdot, hname.nonempty]

end StackOk

/-- The text of a stack is in normal form. -/
theorem lexicallyNormal_pathText {root : Bool} {st : List CString × Bool} (hok : StackOk root st.1)
    (hne : pathText root st.1.reverse (endsInSlash st) ≠ []) :
    lexicallyNormal (pathText root st.1.reverse (endsInSlash st)) = pathText root st.1.reverse (endsInSlash st) := by
  have hnames : ∀ name ∈ st.1.reverse, IsName name :=
    fun name hname => hok.isName name (List.mem_reverse.mp hname)
  have hslash : endsInSlash st = true → st.1.reverse ≠ [] := by
    intro h hnil
    exact (of_decide_eq_true h).2.1 (List.reverse_eq_nil_iff.mp hnil)
  rw [lexicallyNormal_eq hne, isAbsolute_pathText hnames hslash, components_pathText hnames hslash]
  have hread : normalFold root ((if root then [['/']] else []) ++ st.1.reverse ++
      if endsInSlash st = true then [[]] else []) ([], false) = (st.1, endsInSlash st) := by
    have hstack : normalFold root ((if root then [['/']] else []) ++ st.1.reverse) ([], false) = (st.1, false) := by
      cases root <;> exact hok.fold_reverse
    cases hend : endsInSlash st with
    | false => simpa using hstack
    | true => 
      rw [if_pos rfl, normalFold_concat, hstack]
      rfl
  have hsame : endsInSlash (st.1, endsInSlash st) = endsInSlash st := by
    unfold endsInSlash
    simp
  rw [hread, hsame, if_neg hne]

theorem lexicallyNormal_idem (p : CString) : lexicallyNormal (lexicallyNormal p) = lexicallyNormal p := by
  by_cases hp : p = []
  · rw [hp]
    rfl
  · have hok : StackOk (isAbsolute p) (normalFold (isAbsolute p) (components p) ([], false)).1 :=
      StackOk.fold (show StackOk (isAbsolute p) [] from trivial) (components_parts p)
    rw [lexicallyNormal_eq hp]
    split_ifs with hempty
    · decide
    · exact lexicallyNormal_pathText hok hempty

/-! ### Walking from a directory -/

def walkStep (ds : List CString) (part : CString) : List CString :=
  if part = dotdot then ds.dropLast else if part = dot ∨ part = [] then ds else ds ++ [part]

/-- Where the names lead from the directory with the names `ds`. -/
def walk (ds parts : List CString) : List CString := parts.foldl walkStep ds

theorem StackOk.not_dotdot {stack : List CString} (h : StackOk true stack) {name : CString} (hname : name ∈ stack) :
    name ≠ dotdot := by
  induction stack with
  | nil => cases hname
  | cons top rest ih =>
    rcases List.mem_cons.mp hname with rfl | hname
    · exact fun he => absurd (h.2.2.1 he).1 (by simp)
    · exact ih h.2.2.2 hname

theorem StackOk.valid {stack : List CString} (h : StackOk true stack) : ∀ name ∈ stack, ValidName name := by
  induction stack with
  | nil => exact nofun
  | cons top rest ih =>
    intro name hname
    rcases List.mem_cons.mp hname with he | hrest
    · have hdots := h.not_dotdot hname
      rw [he] at hdots ⊢
      exact ⟨h.1.nonempty, h.1.slashFree, h.2.1, hdots⟩
    · exact ih h.2.2.2 name hrest

theorem StackOk.of_valid {ds : List CString} (h : ∀ name ∈ ds, ValidName name) : StackOk true ds := by
  induction ds with
  | nil => trivial
  | cons name ds ih =>
    have hname := h name List.mem_cons_self
    exact ⟨hname.isName, hname.notDot, fun he => absurd he hname.notDotdot,
      ih fun other hother => h other (List.mem_cons_of_mem _ hother)⟩

theorem normalStep_walk {stack : List CString} (h : StackOk true stack) (slash : Bool) (part : CString) :
    (normalStep true (stack, slash) part).1.reverse = walkStep stack.reverse part := by
  unfold normalStep walkStep
  by_cases hup : part = dotdot
  · simp only [hup, if_true]
    cases stack with
    | nil => rfl
    | cons top rest => simp [h.not_dotdot List.mem_cons_self]
  · simp only [hup, if_false]
    by_cases hstay : part = dot ∨ part = []
    · simp [hstay]
    · simp [hstay]

theorem normalFold_walk {stack parts : List CString} (h : StackOk true stack) (slash : Bool)
    (hparts : ∀ part ∈ parts, '/' ∉ part) :
    (normalFold true parts (stack, slash)).1.reverse = walk stack.reverse parts := by
  induction parts using List.reverseRecOn with
  | nil => rfl
  | append_singleton parts part ih =>
    have hinit : ∀ p ∈ parts, '/' ∉ p := fun p hp => hparts p (by simp [hp])
    have hpart : part ≠ ['/'] := fun he => hparts part (by simp) (by rw [he]; exact List.mem_singleton_self _)
    have hok : StackOk true (normalFold true parts (stack, slash)).1 := h.fold fun p hp => .inr (hinit p hp)
    rw [normalFold_concat, if_neg hpart, normalStep_walk hok, ih hinit]
    simp [walk]

def isProper (part : CString) : Bool := part ≠ dotdot && part ≠ dot && part ≠ []

/-- The last name of the path is a proper one, with nothing after it. -/
def endsInName (r : CString) : Bool := hasFilename r && (names r).getLast?.any isProper

def routeStep (st : Nat × List CString) (part : CString) : Nat × List CString :=
  if part = dotdot then if st.2 = [] then (st.1 + 1, []) else (st.1, st.2.dropLast)
  else if part = dot ∨ part = [] then st else (st.1, st.2 ++ [part])

/-- How far up the names lead first, and down where to from there. -/
def route (parts : List CString) : Nat × List CString := parts.foldl routeStep (0, [])

theorem route_concat (parts : List CString) (part : CString) :
    route (parts ++ [part]) = routeStep (route parts) part := by
  simp [route]

theorem walk_eq_route (ds parts : List CString) :
    walk ds parts = ds.take (ds.length - (route parts).1) ++ (route parts).2 := by
  induction parts using List.reverseRecOn with
  | nil => simp [walk, route]
  | append_singleton parts part ih =>
    have hwalk : walk ds (parts ++ [part]) = walkStep (walk ds parts) part := by simp [walk]
    rw [hwalk, ih, route_concat]
    unfold walkStep routeStep
    split_ifs with hup hdown hstay
    · rw [hdown, List.append_nil, List.append_nil, List.dropLast_eq_take, List.take_take, List.length_take]
      congr 1
      omega
    · rw [List.dropLast_append_of_ne_nil hdown]
    · rfl
    · rw [List.append_assoc]

/-- The same names lead to the same place just when the directories agree below what is climbed. -/
theorem walk_eq_iff (ds ds' parts : List CString) : walk ds parts = walk ds' parts ↔
    ds.take (ds.length - (route parts).1) = ds'.take (ds'.length - (route parts).1) := by
  rw [walk_eq_route, walk_eq_route, List.append_left_inj]

/-! ### The normal form of a name relative to a directory -/

section Append
variable {ds : List CString} {r : CString}

theorem isAbsolute_append_of_absolute {d : CString} (hd : isAbsolute d = true) (hr : isAbsolute r = false) :
    isAbsolute (append d r) = true := by
  cases d with
  | nil => cases hd
  | cons c d =>
    have hc : c = '/' := by simpa [isAbsolute] using hd
    rw [append, hr, hc]
    simp only [Bool.false_eq_true, if_false]
    split_ifs <;> rfl

theorem hasFilename_append_slash (p r : CString) : hasFilename (p ++ '/' :: r) = hasFilename r := by
  cases r with
  | nil => simp [hasFilename]
  | cons c cs => simp [hasFilename, List.getLast?_append, List.getLast?_cons]

/-- What `operator/` puts before a relative path: the text up to a slash. -/
theorem append_eq {d : CString} (hd : isAbsolute d = true) (hr : isAbsolute r = false) :
    ∃ front, append d r = front ++ '/' :: r ∧ names front = names d := by
  rw [append, hr]
  simp only [Bool.false_eq_true, if_false]
  by_cases hname : hasFilename d = true
  · exact ⟨d, by rw [if_pos hname], rfl⟩
  · have hne : d ≠ [] := by
      intro he
      rw [he] at hd
      cases hd
    obtain ⟨front, last, rfl⟩ := (List.eq_nil_or_concat' d).resolve_left hne
    have hlast : last = '/' := by simpa [hasFilename] using hname
    refine ⟨front, by rw [if_neg hname, hlast, List.append_assoc, List.singleton_append], ?_⟩
    rw [hlast, names_append_slash]
    exact (List.append_nil _).symm

theorem endsInSlash_step {stack : List CString} (h : StackOk true stack) (slash : Bool) (part : CString) :
    endsInSlash (normalStep true (stack, slash) part) =
      (decide ((normalStep true (stack, slash) part).1 ≠ []) && !isProper part) := by
  have hhead {s : List CString} (hs : StackOk true s) : s.head? ≠ some dotdot :=
    fun he => hs.not_dotdot (List.mem_of_head? he) rfl
  unfold endsInSlash normalStep isProper
  by_cases hup : part = dotdot
  · simp only [hup, if_true]
    cases stack with
    | nil => simp
    | cons top rest => simp [h.not_dotdot List.mem_cons_self, hhead h.2.2.2]
  · simp only [hup, if_false]
    by_cases hstay : part = dot ∨ part = []
    · have hproper : (decide (part ≠ dotdot) && decide (part ≠ dot) && decide (part ≠ [])) = false := by
        rcases hstay with he | he <;> simp [he]
      simp only [hstay, if_true, hproper]
      simp [hhead h]
    · rw [not_or] at hstay
      simp [hstay, hup]

theorem walk_of_valid (hds : ∀ name ∈ ds, ValidName name) : walk [] ds = ds := by
  have hread := (StackOk.of_valid (fun name hname => hds name (List.mem_reverse.mp hname))).fold_reverse
  have hwalk := normalFold_walk (show StackOk true [] from trivial) false fun name hname => (hds name hname).slashFree
  rw [List.reverse_reverse] at hread
  rw [hread] at hwalk
  simpa using hwalk.symm

theorem slashFree_of_names {p part : CString} (h : part ∈ names p) : '/' ∉ part :=
  not_mem_of_mem_splitOn (List.mem_filter.mp h).1

theorem normalFold_concat_absolute {parts : List CString} {part : CString} (hparts : ∀ p ∈ parts, '/' ∉ p)
    (hpart : '/' ∉ part) :
    StackOk true (normalFold true (parts ++ [part]) ([], false)).1 ∧
    (normalFold true (parts ++ [part]) ([], false)).1.reverse = walk [] (parts ++ [part]) ∧
    endsInSlash (normalFold true (parts ++ [part]) ([], false)) =
      (decide (walk [] (parts ++ [part]) ≠ []) && !isProper part) := by
  have hroot : part ≠ ['/'] := fun he => hpart (by rw [he]; exact List.mem_singleton_self _)
  have hall : ∀ p ∈ parts ++ [part], '/' ∉ p := by
    intro p hp
    rcases List.mem_append.mp hp with hp | hp
    · exact hparts p hp
    · exact List.mem_singleton.mp hp ▸ hpart
  have hempty : StackOk true [] := trivial
  have hok : StackOk true (normalFold true parts ([], false)).1 := hempty.fold fun p hp => .inr (hparts p hp)
  have hwalk : (normalFold true (parts ++ [part]) ([], false)).1.reverse = walk [] (parts ++ [part]) :=
    normalFold_walk hempty false hall
  refine ⟨hempty.fold fun p hp => .inr (hall p hp), hwalk, ?_⟩
  rw [← hwalk, normalFold_concat, if_neg hroot]
  simpa using endsInSlash_step hok (normalFold true parts ([], false)).2 part

theorem walk_valid (hds : ∀ name ∈ ds, ValidName name) {parts : List CString} (hparts : ∀ p ∈ parts, '/' ∉ p) :
    ∀ name ∈ walk ds parts, ValidName name := by
  have hok : StackOk true ds.reverse := StackOk.of_valid fun name hname => hds name (List.mem_reverse.mp hname)
  have hwalk := normalFold_walk hok false hparts
  rw [List.reverse_reverse] at hwalk
  intro name hname
  rw [← hwalk] at hname
  exact (hok.fold fun p hp => .inr (hparts p hp)).valid name (List.mem_reverse.mp hname)

/-- What reading an absolute path leaves: the names walked to, and whether a slash follows them. -/
theorem normalFold_absolute {p : CString} (habs : isAbsolute p = true) :
    StackOk true (normalFold true (components p) ([], false)).1 ∧
    (normalFold true (components p) ([], false)).1.reverse = walk [] (names p) ∧
    endsInSlash (normalFold true (components p) ([], false)) =
      (decide (walk [] (names p) ≠ []) && !endsInName p) := by
  have hskip (parts : List CString) : normalFold true (['/'] :: parts) ([], false) = normalFold true parts ([], false) :=
    rfl
  unfold components
  rw [habs, if_pos rfl, List.append_assoc, List.singleton_append, hskip]
  split_ifs with htrailing
  · -- a trailing slash is read as an empty part
    obtain ⟨hok, hwalk, hend⟩ := normalFold_concat_absolute (fun _ h => slashFree_of_names (p := p) h)
      (List.not_mem_nil : '/' ∉ ([] : CString))
    have hstays : walk [] (names p ++ [[]]) = walk [] (names p) := by simp [walk, walkStep, dotdot]
    rw [hstays] at hwalk hend
    refine ⟨hok, hwalk, hend.trans ?_⟩
    simp [isProper, endsInName, htrailing.2]
  · rw [List.append_nil]
    rcases List.eq_nil_or_concat' (names p) with hnone | ⟨init, last, hlast⟩
    · rw [hnone]
      exact ⟨trivial, rfl, by simp [endsInSlash, normalFold, walk]⟩
    · have hfile : hasFilename p = true := by
        by_contra hf
        exact htrailing ⟨by simp [hlast], hf⟩
      have hfree : ∀ part ∈ init ++ [last], '/' ∉ part := fun part h => slashFree_of_names (hlast ▸ h)
      obtain ⟨hok, hwalk, hend⟩ := normalFold_concat_absolute
        (fun part (h : part ∈ init) => hfree part (by simp [h])) (hfree last (by simp))
      rw [hlast]
      refine ⟨hok, hwalk, hend.trans ?_⟩
      simp [endsInName, hfile, hlast]

theorem lexicallyNormal_absolute {p : CString} (habs : isAbsolute p = true) :
    lexicallyNormal p = normalText (walk [] (names p)) (decide (walk [] (names p) ≠ []) && !endsInName p) ∧
    NormalParts (walk [] (names p)) (decide (walk [] (names p) ≠ []) && !endsInName p) := by
  have hp : p ≠ [] := by
    intro he
    rw [he] at habs
    cases habs
  obtain ⟨hok, hwalk, hend⟩ := normalFold_absolute habs
  constructor
  · rw [lexicallyNormal_eq hp, habs, hwalk, hend, if_neg (by simp [pathText]), normalText_eq]
  · refine ⟨?_, fun h hnil => by simp [hnil] at h⟩
    rw [← hwalk]
    exact fun name hname => hok.valid name (List.mem_reverse.mp hname)

/-- Every absolute path in normal form is such a text. -/
theorem exists_normalText {p : CString} (habs : isAbsolute p = true) (hnormal : lexicallyNormal p = p) :
    ∃ ns slash, NormalParts ns slash ∧ p = normalText ns slash := by
  obtain ⟨htext, hparts⟩ := lexicallyNormal_absolute habs
  exact ⟨_, _, hparts, hnormal.symm.trans htext⟩

/-- What `realpath` returns for a directory other than the root. -/
structure RealPath (dir : CString) : Prop where
  isAbsolute : isAbsolute dir = true
  isNormal : lexicallyNormal dir = dir
  hasName : hasFilename dir = true

theorem RealPath.exists_rooted {dir : CString} (h : RealPath dir) :
    ∃ ns, NormalParts ns false ∧ ns ≠ [] ∧ dir = normalText ns false := by
  obtain ⟨ns, slash, hparts, rfl⟩ := exists_normalText h.isAbsolute h.isNormal
  have hname := h.hasName
  rw [hasFilename_normalText hparts, Bool.and_eq_true, decide_eq_true_eq,
    Bool.not_eq_true'] at hname
  obtain ⟨hne, rfl⟩ := hname
  exact ⟨ns, hparts, hne, rfl⟩

theorem endsInName_normalText {slash : Bool} (h : NormalParts ds slash) :
    endsInName (normalText ds slash) = (decide (ds ≠ []) && !slash) := by
  unfold endsInName
  rw [hasFilename_normalText h, names_normalText h.valid]
  rcases List.eq_nil_or_concat' ds with hnone | ⟨init, last, hlast⟩
  · simp [hnone]
  · have hvalid := h.valid last (by simp [hlast])
    simp [hlast, isProper, hvalid.nonempty, hvalid.notDot, hvalid.notDotdot]

theorem lexicallyNormal_normalText {slash : Bool} (h : NormalParts ds slash) :
    lexicallyNormal (normalText ds slash) = normalText ds slash := by
  rw [(lexicallyNormal_absolute (isAbsolute_normalText ds slash)).1, names_normalText h.valid, walk_of_valid h.valid,
    endsInName_normalText h]
  cases slash with
  | true => simp [h.named rfl]
  | false => simp

/-- The names from the root to the file that an absolute path names. -/
def fileNames (p : CString) : List CString := names (lexicallyNormal p)

theorem fileNames_absolute {p : CString} (habs : isAbsolute p = true) : fileNames p = walk [] (names p) := by
  obtain ⟨htext, hparts⟩ := lexicallyNormal_absolute habs
  rw [fileNames, htext, names_normalText hparts.valid]

theorem fileNames_valid {p : CString} (habs : isAbsolute p = true) : ∀ name ∈ fileNames p, ValidName name := by
  rw [fileNames_absolute habs]
  refine walk_valid ?_ fun part hpart => slashFree_of_names hpart
  exact nofun

theorem fileNames_rooted (hds : ∀ name ∈ ds, ValidName name) : fileNames (rooted ds) = ds := by
  rw [fileNames_absolute rfl, names_rooted hds, walk_of_valid hds]

/-- From an absolute directory, the names lead up and down as the kernel goes. -/
theorem lexicallyNormal_append {d : CString} (hd : isAbsolute d = true) (hr : isAbsolute r = false) :
    lexicallyNormal (append d r) = normalText (walk (fileNames d) (names r))
      (decide (walk (fileNames d) (names r) ≠ []) && !endsInName r) := by
  obtain ⟨front, happend, hfront⟩ := append_eq hd hr
  have habs := isAbsolute_append_of_absolute hd hr
  have hnames : names (append d r) = names d ++ names r := by rw [happend, names_append_slash, hfront]
  have hwalk : walk [] (names d ++ names r) = walk (fileNames d) (names r) := by
    rw [walk, List.foldl_append, ← walk, ← walk, fileNames_absolute hd]
  have hends : endsInName (append d r) = endsInName r := by
    unfold endsInName
    rw [hnames, happend, hasFilename_append_slash]
    cases hfile : hasFilename r with
    | false => rfl
    | true =>
      obtain ⟨init, last, hlast⟩ := (List.eq_nil_or_concat' (names r)).resolve_left fun hnone => by
        have hnil : r = [] := (components_eq_nil_iff r).mp (by simp [components, hr, hnone])
        rw [hnil] at hfile
        cases hfile
      simp [hlast, List.getLast?_append]
  rw [(lexicallyNormal_absolute habs).1, hnames, hwalk, hends]

end Append
end Capio.StdPath
