import Capio.Common.Constants

/-! The operations of `std::filesystem::path` on POSIX that the sources call,
as functions of the path's text. -/
namespace Capio.StdPath

def dot : CString := ['.']
def dotdot : CString := ['.', '.']

def isAbsolute (p : CString) : Bool := p.head? = some '/'

/-- The non-empty names between the slashes. -/
def names (p : CString) : List CString := (p.splitOn '/').filter (· ≠ [])

def hasFilename (p : CString) : Bool := p ≠ [] && p.getLast? ≠ some '/'

/-- What iterating over a path visits: the root, the names, and an empty element
after a trailing slash. -/
def components (p : CString) : List CString :=
  (if isAbsolute p then [['/']] else []) ++ names p ++
    (if names p ≠ [] ∧ ¬ hasFilename p then [[]] else [])

/-- `operator/`. -/
def append (p q : CString) : CString :=
  if isAbsolute q then q
  else if hasFilename p then p ++ '/' :: q
  else p ++ q

/-- `operator==` compares the components. -/
def same (p q : CString) : Bool := components p = components q

theorem components_eq_nil_iff (p : CString) : components p = [] ↔ p = [] := by
  refine ⟨fun h => ?_, fun h => h ▸ rfl⟩
  cases p with
  | nil => rfl
  | cons c cs =>
    obtain ⟨hrel, hnames, _⟩ : isAbsolute (c :: cs) = false ∧ names (c :: cs) = [] ∧ _ := by
      simpa [components] using h
    have hc : (c == '/') = false := by
      simpa [isAbsolute] using hrel
    obtain ⟨front, rest, hsplit⟩ := List.exists_cons_of_ne_nil (List.splitOn_ne_nil '/' cs)
    have hfirst : (c :: front) ∈ names (c :: cs) := by
      rw [names, List.splitOn_cons_eq_if_modifyHead, hc, hsplit]
      simp
    rw [hnames] at hfirst
    simp at hfirst

def parentPath (p : CString) : CString :=
  if names p = [] then p
  else match (p.reverse.dropWhile (· ≠ '/')).dropWhile (· = '/') with
    | [] => if isAbsolute p then ['/'] else []
    | c :: cs => (c :: cs).reverse

theorem parentPath_length_lt {p : CString} (h : names p ≠ []) : (parentPath p).length < p.length := by
  have hrest : ((p.reverse.dropWhile (· ≠ '/')).dropWhile (· = '/')).length < p.length := by
    rw [← p.length_reverse]
    cases hq : p.reverse with
    | nil =>
      obtain rfl : p = [] := List.reverse_eq_nil_iff.mp hq
      exact absurd rfl h
    | cons c cs =>
      by_cases hc : c = '/'
      · rw [List.dropWhile_cons_of_neg (by simp [hc]), List.dropWhile_cons_of_pos (by simp [hc])]
        exact Nat.lt_succ_of_le (List.dropWhile_sublist _).length_le
      · rw [List.dropWhile_cons_of_pos (by simp [hc])]
        exact Nat.lt_succ_of_le ((List.dropWhile_sublist _).trans (List.dropWhile_sublist _)).length_le
  unfold parentPath
  rw [if_neg h]
  split
  · split_ifs with habs
    · -- the root alone has no name
      cases p with
      | nil => cases habs
      | cons c cs =>
        cases cs with
        | nil =>
          obtain rfl : c = '/' := by simpa [isAbsolute] using habs
          exact absurd rfl h
        | cons d cs => simp
    · exact Nat.zero_lt_of_lt hrest
  · rename_i c cs hparent
    rw [hparent] at hrest
    rw [List.length_reverse]
    exact hrest

/-- One component read by `lexically_normal`. The state is the stack of names,
innermost first, and whether the result ends in a slash. -/
def normalStep (root : Bool) : List CString × Bool → CString → List CString × Bool
  | (stack, slash), part =>
    if part = dotdot then
      match stack with
      | [] => if root then ([], slash) else ([dotdot], false)
      | top :: rest => if top = dotdot then (dotdot :: stack, false) else (rest, true)
    else if part = dot ∨ part = [] then (stack, true)
    else (part :: stack, false)

def lexicallyNormal (p : CString) : CString :=
  if p = [] then []
  else
    let root := isAbsolute p
    let (stack, slash) := (components p).foldl
      (fun st part => if part = ['/'] then st else normalStep root st part) ([], false)
    let body := ['/'].intercalate stack.reverse
    let tail := if slash ∧ stack ≠ [] ∧ stack.head? ≠ some dotdot then ['/'] else []
    let result := (if root then ['/'] else []) ++ body ++ tail
    if result = [] then dot else result

/-- The components left of two paths after their common beginning. -/
def mismatch : List CString → List CString → List CString × List CString
  | a :: as, b :: bs => if a = b then mismatch as bs else (a :: as, b :: bs)
  | as, bs => (as, bs)

theorem mismatch_append_self (as bs : List CString) : mismatch (bs ++ as) bs = (as, []) := by
  induction bs with
  | nil => cases as <;> rfl
  | cons b bs ih => simpa [mismatch] using ih

theorem mismatch_suffix (as bs : List CString) :
    (mismatch as bs).1 <:+ as ∧ (mismatch as bs).2 <:+ bs := by
  fun_induction mismatch as bs with
  | case1 as b bs ih => exact ⟨ih.1.trans (List.suffix_cons _ _), ih.2.trans (List.suffix_cons _ _)⟩
  | case2 => exact ⟨List.suffix_refl _, List.suffix_refl _⟩
  | case3 => exact ⟨List.suffix_refl _, List.suffix_refl _⟩

theorem mismatch_snd_eq_nil_iff (as bs : List CString) : (mismatch as bs).2 = [] ↔ bs <+: as := by
  fun_induction mismatch as bs with
  | case1 as b bs ih => simpa using ih
  | case2 a as b bs hab => simp [Ne.symm hab]
  | case3 as bs hnone =>
    cases bs with
    | nil => simp
    | cons b bs =>
      cases as with
      | nil => simp
      | cons a as => exact (hnone a as b bs rfl rfl).elim

def lexicallyRelative (p base : CString) : CString :=
  if isAbsolute p ≠ isAbsolute base then []
  else
    let (as, bs) := mismatch (components p) (components base)
    if as = [] ∧ bs = [] then dot
    else
      let n : Int := bs.foldl (fun n b =>
        if b = dotdot then n - 1 else if b ≠ [] ∧ b ≠ dot then n + 1 else n) 0
      if n = 0 ∧ (as = [] ∨ as.head? = some []) then dot
      else if 0 ≤ n then (List.replicate n.toNat dotdot ++ as).foldl append []
      else []

end Capio.StdPath
