import Mathlib.Data.List.TakeDrop
import Mathlib.Data.List.TakeWhile
import Mathlib.Data.Nat.Digits.Lemmas
import Mathlib.Tactic.IntervalCases

/-! White space and decimal numerals as text: printing without padding, and reading an optional
sign followed by the longest run of digits. -/
namespace Capio.Library

/-- `isspace` in the C locale. -/
def isSpace (c : Char) : Bool :=
  c = ' ' || c = '\t' || c = '\n' || c = '\x0b' || c = '\x0c' || c = '\r'

theorem isSpace_of_isDigit {c : Char} (h : c.isDigit = true) : isSpace c = false := by
  by_contra hs
  simp only [isSpace, Bool.not_eq_false, Bool.or_eq_true, decide_eq_true_eq] at hs
  rcases hs with ((((rfl | rfl) | rfl) | rfl) | rfl) | rfl <;> simp_all

def digitText (d : Nat) : Char := Char.ofNat (48 + d)
def digitValue (c : Char) : Nat := c.toNat - 48

def natText (n : Nat) : List Char :=
  if n = 0 then ['0'] else (Nat.digits 10 n).reverse.map digitText

def natValue (ds : List Char) : Nat := ds.foldl (fun v c => 10 * v + digitValue c) 0

def intText : Int → List Char
  | .ofNat n => natText n
  | .negSucc n => '-' :: natText (n + 1)

/-- Reads a numeral and returns its value and the text after it. -/
def scanNumeral (s : List Char) : Option (Int × List Char) :=
  let (negative, body) := match s with
    | '-' :: rest => (true, rest)
    | '+' :: rest => (false, rest)
    | _ => (false, s)
  match body.span Char.isDigit with
  | ([], _) => none
  | (ds, rest) => some (if negative then -(natValue ds : Int) else natValue ds, rest)

private theorem span_reads (negative : Bool) {body rest : List Char} {z : Int}
    (h : (match body.span Char.isDigit with
      | ([], _) => none
      | (ds, rest) => some (if negative then -(natValue ds : Int) else natValue ds, rest)) = some (z, rest)) :
    ∃ read, body = read ++ rest ∧ ∀ c ∈ read, c.isDigit = true := by
  rw [List.span_eq_takeWhile_dropWhile] at h
  refine ⟨body.takeWhile Char.isDigit, ?_, fun c hc => List.mem_takeWhile_imp hc⟩
  cases hds : body.takeWhile Char.isDigit with
  | nil =>
    rw [hds] at h
    cases h
  | cons d ds =>
    rw [hds] at h
    have hrest : body.dropWhile Char.isDigit = rest := (Prod.mk.inj (Option.some.inj h)).2
    rw [← hrest, ← hds, List.takeWhile_append_dropWhile]

/-- What is read is a sign and digits. -/
theorem scanNumeral_reads {s rest : List Char} {z : Int} (h : scanNumeral s = some (z, rest)) :
    ∃ read, s = read ++ rest ∧ ∀ c ∈ read, c = '-' ∨ c = '+' ∨ c.isDigit = true := by
  unfold scanNumeral at h
  split at h
  rename_i negative body hsign
  obtain ⟨read, hread, hdigits⟩ := span_reads negative h
  have hsigned (sign : Char) (hs : sign = '-' ∨ sign = '+') (htail : s = sign :: body) :
      ∃ read, s = read ++ rest ∧ ∀ c ∈ read, c = '-' ∨ c = '+' ∨ c.isDigit = true := by
    refine ⟨sign :: read, by rw [htail, hread]; rfl, fun c hc => ?_⟩
    rcases List.mem_cons.mp hc with rfl | hc
    · exact hs.imp_right .inl
    · exact .inr (.inr (hdigits c hc))
  split at hsign
  · exact hsigned '-' (.inl rfl) (by rw [(Prod.mk.inj hsign).2])
  · exact hsigned '+' (.inr rfl) (by rw [(Prod.mk.inj hsign).2])
  · exact ⟨read, (Prod.mk.inj hsign).2.trans hread, fun c hc => .inr (.inr (hdigits c hc))⟩

theorem digitText_isDigit {d : Nat} (h : d < 10) : (digitText d).isDigit = true := by
  interval_cases d <;> decide

theorem digitValue_digitText {d : Nat} (h : d < 10) : digitValue (digitText d) = d := by
  interval_cases d <;> decide

theorem natText_isDigit (n : Nat) : ∀ c ∈ natText n, c.isDigit = true := by
  unfold natText
  split_ifs with h
  · simp
  · intro c hc
    obtain ⟨d, hd, rfl⟩ := List.mem_map.mp hc
    exact digitText_isDigit (Nat.digits_lt_base (by decide) (List.mem_reverse.mp hd))

theorem natText_ne_nil (n : Nat) : natText n ≠ [] := by
  unfold natText
  split_ifs with h
  · simp
  · simpa using Nat.digits_ne_nil_iff_ne_zero.mpr h

private theorem natValue_map (ds : List Nat) (h : ∀ d ∈ ds, d < 10) :
    natValue (ds.reverse.map digitText) = Nat.ofDigits 10 ds := by
  induction ds with
  | nil => rfl
  | cons d ds ih =>
    have hd := h d (by simp)
    have htail := ih (fun e he => h e (by simp [he]))
    unfold natValue at htail ⊢
    rw [List.reverse_cons, List.map_append, List.foldl_append, htail]
    simp [digitValue_digitText hd, Nat.ofDigits_cons, Nat.add_comm]

theorem natValue_natText (n : Nat) : natValue (natText n) = n := by
  unfold natText
  split_ifs with h
  · subst h; decide
  · rw [natValue_map _ (fun d hd => Nat.digits_lt_base (by decide) hd), Nat.ofDigits_digits]

private theorem span_digits (ds rest : List Char) (h : ∀ c ∈ ds, c.isDigit = true)
    (hr : ∀ c, rest.head? = some c → c.isDigit = false) :
    (ds ++ rest).span Char.isDigit = (ds, rest) := by
  have ht : ds.takeWhile Char.isDigit = ds := List.takeWhile_eq_self_iff.mpr h
  have hd : ds.dropWhile Char.isDigit = [] := List.dropWhile_eq_nil_iff.mpr h
  have hrest : rest.takeWhile Char.isDigit = [] ∧ rest.dropWhile Char.isDigit = rest := by
    cases rest with
    | nil => simp
    | cons c rest => simp [hr c rfl]
  rw [List.span_eq_takeWhile_dropWhile, List.takeWhile_append, List.dropWhile_append, ht, hd]
  simp [hrest.1, hrest.2]

/-- A non-empty run of digits. -/
structure Numeral (ds : List Char) : Prop where
  nonempty : ds ≠ []
  digits : ∀ c ∈ ds, c.isDigit = true

theorem natText_numeral (n : Nat) : Numeral (natText n) := ⟨natText_ne_nil n, natText_isDigit n⟩

private theorem scan_digits (negative : Bool) {ds : List Char} (h : Numeral ds) (rest : List Char)
    (hr : ∀ c, rest.head? = some c → c.isDigit = false) :
    (match (ds ++ rest).span Char.isDigit with
      | ([], _) => none
      | (ds, rest) => some (if negative then -(natValue ds : Int) else natValue ds, rest)) =
      some (if negative then -(natValue ds : Int) else natValue ds, rest) := by
  rw [span_digits ds rest h.digits hr]
  cases ds with
  | nil => exact absurd rfl h.nonempty
  | cons d ds => rfl

/-- Digits are read as far as they go. -/
theorem scanNumeral_digits {ds : List Char} (h : Numeral ds) (rest : List Char)
    (hr : ∀ c, rest.head? = some c → c.isDigit = false) :
    scanNumeral (ds ++ rest) = some ((natValue ds : Int), rest) := by
  have hscan := scan_digits false h rest hr
  cases ds with
  | nil => exact absurd rfl h.nonempty
  | cons d ds =>
    have hd := h.digits d List.mem_cons_self
    have hm : d ≠ '-' := by rintro rfl; exact absurd hd (by decide)
    have hp : d ≠ '+' := by rintro rfl; exact absurd hd (by decide)
    simpa [scanNumeral, hm, hp] using hscan

/-- A printed integer reads back, whatever follows it other than a digit. -/
theorem scanNumeral_intText (z : Int) (rest : List Char)
    (hr : ∀ c, rest.head? = some c → c.isDigit = false) :
    scanNumeral (intText z ++ rest) = some (z, rest) := by
  cases z with
  | negSucc n =>
    have h := scan_digits true (natText_numeral (n + 1)) rest hr
    simpa [scanNumeral, intText, Int.negSucc_eq, natValue_natText] using h
  | ofNat n =>
    have h := scanNumeral_digits (natText_numeral n) rest hr
    rwa [natValue_natText] at h

theorem scanNumeral_natText (n : Nat) (rest : List Char)
    (hr : ∀ c, rest.head? = some c → c.isDigit = false) :
    scanNumeral (natText n ++ rest) = some ((n : Int), rest) :=
  scanNumeral_intText (Int.ofNat n) rest hr

/-- The characters that `intText` prints. -/
def decimalWidth (z : Int) : Nat := Nat.log 10 z.natAbs + 1 + if z < 0 then 1 else 0

theorem natText_length (n : Nat) : (natText n).length = Nat.log 10 n + 1 := by
  unfold natText
  split_ifs with h
  · subst h
    rw [Nat.log_zero_right]
    rfl
  · rw [List.length_map, List.length_reverse, Nat.length_digits 10 n (by decide) h]

theorem intText_length (z : Int) : (intText z).length = decimalWidth z := by
  cases z with
  | ofNat n => exact natText_length n
  | negSucc n =>
    rw [intText, List.length_cons, natText_length, decimalWidth, if_pos (Int.negSucc_lt_zero n)]
    rfl

end Capio.Library
