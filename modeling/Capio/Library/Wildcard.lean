import Mathlib.Computability.Language

/-! Patterns with wildcards as languages: the words obtained by putting a letter for each single
wildcard and any word for each open one. -/
namespace Capio.Library.Wildcard

variable {α : Type}

inductive Token (α : Type) where
  | one
  | many
  | literal (a : α)
  deriving DecidableEq

/-- What may stand for a token. -/
def Token.language : Token α → Language α
  | .one => {w | ∃ a, w = [a]}
  | .many => {_w | True}
  | .literal a => {w | w = [a]}

/-- The token stands for exactly one letter, and for this one. -/
def Token.Fits : Token α → α → Prop
  | .one, _ => True
  | .many, _ => False
  | .literal a, b => a = b

def language (p : List (Token α)) : Language α := (p.map Token.language).prod

variable {p q : List (Token α)} {w : List α}

theorem mem_language_nil : w ∈ language ([] : List (Token α)) ↔ w = [] := Iff.rfl

theorem mem_language_cons {t : Token α} :
    w ∈ language (t :: p) ↔ ∃ u ∈ t.language, ∃ v ∈ language p, u ++ v = w := by
  rw [language, List.map_cons, List.prod_cons, Language.mem_mul]
  rfl

theorem mem_language_append :
    w ∈ language (p ++ q) ↔ ∃ u ∈ language p, ∃ v ∈ language q, u ++ v = w := by
  rw [language, List.map_append, List.prod_append, Language.mem_mul]
  rfl

/-- An open wildcard skips a beginning of the word. -/
theorem mem_language_many : w ∈ language (.many :: p) ↔ ∃ v, v <:+ w ∧ v ∈ language p := by
  rw [mem_language_cons]
  constructor
  · rintro ⟨u, _, v, hv, rfl⟩
    exact ⟨v, List.suffix_append u v, hv⟩
  · rintro ⟨v, ⟨u, rfl⟩, hv⟩
    exact ⟨u, trivial, v, hv, rfl⟩

theorem mem_language_one {a : α} : a :: w ∈ language (.one :: p) ↔ w ∈ language p := by
  rw [mem_language_cons]
  constructor
  · rintro ⟨_, ⟨b, rfl⟩, v, hv, he⟩
    cases he
    exact hv
  · exact fun hw => ⟨[a], ⟨a, rfl⟩, w, hw, rfl⟩

theorem mem_language_literal {a b : α} :
    b :: w ∈ language (.literal a :: p) ↔ a = b ∧ w ∈ language p := by
  rw [mem_language_cons]
  constructor
  · rintro ⟨_, rfl, v, hv, he⟩
    cases he
    exact ⟨rfl, hv⟩
  · rintro ⟨rfl, hw⟩
    exact ⟨[a], rfl, w, hw, rfl⟩

/-- Nothing is obtained only from open wildcards. -/
theorem nil_mem_language_iff : [] ∈ language p ↔ ∀ t ∈ p, t = .many := by
  induction p with
  | nil => exact iff_of_true rfl (fun _ h => absurd h List.not_mem_nil)
  | cons t p ih =>
    rw [mem_language_cons, List.forall_mem_cons, ← ih]
    constructor
    · rintro ⟨u, hu, v, hv, he⟩
      obtain ⟨rfl, rfl⟩ := List.append_eq_nil_iff.mp he
      refine ⟨?_, hv⟩
      cases t with
      | many => rfl
      | one =>
        obtain ⟨a, ha⟩ := hu
        cases ha
      | literal a => cases hu
    · rintro ⟨rfl, hv⟩
      exact ⟨[], trivial, [], hv, rfl⟩

/-- Without open wildcards the word is compared letter by letter. -/
theorem mem_language_fixed (h : Token.many ∉ p) : w ∈ language p ↔ List.Forall₂ Token.Fits p w := by
  induction p generalizing w with
  | nil => rw [mem_language_nil, List.forall₂_nil_left_iff]
  | cons t p ih =>
    have ht : Token.many ≠ t := fun he => h (he ▸ List.mem_cons_self)
    have hp : Token.many ∉ p := List.not_mem_of_not_mem_cons h
    cases w with
    | nil =>
      rw [nil_mem_language_iff]
      exact iff_of_false (fun hall => ht (hall t List.mem_cons_self).symm) (fun h => nomatch h)
    | cons a w =>
      rw [List.forall₂_cons, ← ih hp]
      cases t with
      | one => exact mem_language_one.trans (and_iff_right trivial).symm
      | many => exact absurd rfl ht
      | literal b => exact mem_language_literal

/-- A beginning without open wildcards takes as many letters as it has tokens. -/
theorem mem_language_fixed_append (h : Token.many ∉ p) : w ∈ language (p ++ q) ↔
    p.length ≤ w.length ∧ List.Forall₂ Token.Fits p (w.take p.length) ∧
      w.drop p.length ∈ language q := by
  rw [mem_language_append]
  constructor
  · rintro ⟨u, hu, v, hv, rfl⟩
    have hfits := (mem_language_fixed h).mp hu
    rw [hfits.length_eq, List.take_left, List.drop_left]
    exact ⟨by simp, hfits, hv⟩
  · rintro ⟨hle, hfits, hv⟩
    exact ⟨_, (mem_language_fixed h).mpr hfits, _, hv, List.take_append_drop _ _⟩

end Capio.Library.Wildcard
