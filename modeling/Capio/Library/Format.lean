import Capio.Library.Numeral

/-! Fields printed one after the other with a blank before each, and the `scanf`
conversions that read them back. -/
namespace Capio.Library

inductive Field where
  | int (z : Int)
  | count (n : Nat)
  | word (s : List Char)
  deriving DecidableEq

/-- `%d`, `%llu` and `%s`. -/
inductive Conversion where
  | int
  | ullong
  | string
  deriving DecidableEq

def Field.text : Field → List Char
  | .int z => intText z
  | .count n => natText n
  | .word w => w

def printFields (fields : List Field) : List Char := fields.flatMap (fun f => ' ' :: f.text)

/-- `strtol` clamps to 64 bits and the assignment keeps the low 32. -/
def toInt (z : Int) : Int := (max (-2^63) (min (2^63 - 1) z)).bmod (2^32)

/-- `strtoull` negates modulo 2^64 and clamps what does not fit. -/
def toUllong (z : Int) : Nat := if 2^64 ≤ z.natAbs then 2^64 - 1 else (z % 2^64).toNat

def Conversion.read (text : List Char) : Conversion → Option (Field × List Char)
  | .int => (scanNumeral text).map (fun r => (.int (toInt r.1), r.2))
  | .ullong => (scanNumeral text).map (fun r => (.count (toUllong r.1), r.2))
  | .string =>
    let word := text.takeWhile (fun c => !isSpace c)
    if word = [] then none else some (.word word, text.dropWhile (fun c => !isSpace c))

/-- The fields assigned until a conversion fails. Every conversion skips white space
first, so the blanks of a format between them have no effect. -/
def sscanf : List Conversion → List Char → List Field
  | [], _ => []
  | c :: cs, text =>
    match c.read (text.dropWhile isSpace) with
    | none => []
    | some (f, rest) => f :: sscanf cs rest

/-- A field that a conversion is meant for, in the range of its type. -/
inductive Conversion.Takes : Conversion → Field → Prop
  | int {z : Int} : -2^31 ≤ z → z < 2^31 → Takes .int (.int z)
  | ullong {n : Nat} : n < 2^64 → Takes .ullong (.count n)
  | string {w : List Char} : w ≠ [] → Takes .string (.word w)

def Field.Unbroken : Field → Prop
  | .word w => ∀ c ∈ w, isSpace c = false
  | _ => True

instance : DecidablePred Field.Unbroken
  | .word w => List.decidableBAll (fun c => isSpace c = false) w
  | .int _ | .count _ => isTrue trivial

/-- The end of the text, or a blank. -/
def Ended (text : List Char) : Prop := ∀ c, text.head? = some c → isSpace c = true

theorem printFields_ended (fields : List Field) : Ended (printFields fields) := by
  cases fields with
  | nil => exact fun _ h => (nomatch h)
  | cons f fields =>
    intro c hc
    cases hc
    decide

theorem toInt_eq {z : Int} (hlo : -2^31 ≤ z) (hhi : z < 2^31) : toInt z = z := by
  unfold toInt
  rw [min_eq_right (by omega), max_eq_right (by omega)]
  exact Int.bmod_eq_of_le (by omega) (by omega)

theorem toUllong_eq {n : Nat} (h : n < 2^64) : toUllong n = n := by
  unfold toUllong
  rw [if_neg (by omega)]
  omega

private theorem not_digit_of_ended {text : List Char} (h : Ended text) (c : Char)
    (hc : text.head? = some c) : c.isDigit = false := by
  cases hd : c.isDigit with
  | false => rfl
  | true =>
    have hspace := isSpace_of_isDigit hd
    rw [h c hc] at hspace
    cases hspace

private theorem word_ends {word rest : List Char} (h : ∀ c ∈ word, isSpace c = false) (hr : Ended rest) :
    (word ++ rest).takeWhile (fun c => !isSpace c) = word ∧
      (word ++ rest).dropWhile (fun c => !isSpace c) = rest := by
  induction word with
  | nil =>
    cases rest with
    | nil => exact ⟨rfl, rfl⟩
    | cons c rest => simp [hr c rfl]
  | cons c word ih =>
    obtain ⟨hc, hword⟩ := List.forall_mem_cons.mp h
    obtain ⟨htake, hdrop⟩ := ih hword
    simp [hc, htake, hdrop]

/-- A conversion reads the text of its field, up to the blank after it. -/
theorem Conversion.read_text {c : Conversion} {f : Field} {rest : List Char} (h : c.Takes f)
    (hf : f.Unbroken) (hr : Ended rest) : c.read (f.text ++ rest) = some (f, rest) := by
  cases h with
  | int hlo hhi =>
    rw [read, Field.text, scanNumeral_intText _ rest (not_digit_of_ended hr), Option.map_some,
      toInt_eq hlo hhi]
  | ullong h =>
    rw [read, Field.text, scanNumeral_natText _ rest (not_digit_of_ended hr), Option.map_some, toUllong_eq h]
  | string h =>
    obtain ⟨htake, hdrop⟩ := word_ends hf hr
    dsimp only [read, Field.text]
    rw [htake, hdrop, if_neg h]

private theorem intText_start (z : Int) : ∃ c cs, intText z = c :: cs ∧ isSpace c = false := by
  cases z with
  | ofNat n =>
    have hdigit := natText_isDigit n
    cases hn : natText n with
    | nil => exact absurd hn (natText_ne_nil n)
    | cons c cs =>
      rw [hn] at hdigit
      exact ⟨c, cs, hn, isSpace_of_isDigit (hdigit c List.mem_cons_self)⟩
  | negSucc n => exact ⟨'-', _, rfl, by decide⟩

private theorem text_start {c : Conversion} {f : Field} (h : c.Takes f) (hf : f.Unbroken) :
    ∃ a as, f.text = a :: as ∧ isSpace a = false := by
  cases h with
  | int => exact intText_start _
  | @ullong n => exact intText_start (Int.ofNat n)
  | @string w h =>
    cases w with
    | nil => exact absurd rfl h
    | cons a as => exact ⟨a, as, rfl, hf a List.mem_cons_self⟩

/-- What is printed is read back if no word is broken by white space. -/
theorem sscanf_printFields {cs : List Conversion} {fields : List Field}
    (h : List.Forall₂ Conversion.Takes cs fields) (hf : ∀ f ∈ fields, f.Unbroken) :
    sscanf cs (printFields fields) = fields := by
  induction h with
  | nil => rfl
  | @cons c f cs fields hc _ ih =>
    obtain ⟨hunbroken, hrest⟩ := List.forall_mem_cons.mp hf
    obtain ⟨a, as, htext, ha⟩ := text_start hc hunbroken
    have hskip : (printFields (f :: fields)).dropWhile isSpace = f.text ++ printFields fields := by
      rw [printFields, List.flatMap_cons, List.cons_append, List.dropWhile_cons_of_pos (by decide), htext,
        List.cons_append, List.dropWhile_cons_of_neg (by simp [ha])]
      rfl
    rw [sscanf, hskip, Conversion.read_text hc hunbroken (printFields_ended fields)]
    dsimp only
    rw [ih hrest]

/-- The blank in front is skipped like any other. -/
theorem sscanf_blank (cs : List Conversion) (text : List Char) : sscanf cs (' ' :: text) = sscanf cs text := by
  cases cs with
  | nil => rfl
  | cons c cs => rw [sscanf, sscanf, List.dropWhile_cons_of_pos (by decide)]

private theorem read_unbroken {c : Conversion} {f : Field} {text rest : List Char}
    (h : c.read text = some (f, rest)) : f.Unbroken := by
  cases c with
  | int | ullong =>
    obtain ⟨r, _, hr⟩ := Option.map_eq_some_iff.mp h
    cases hr
    exact trivial
  | string =>
    dsimp only [Conversion.read] at h
    split_ifs at h
    cases h
    intro c hc
    simpa using List.mem_takeWhile_imp hc

/-- `%s` never delivers white space. -/
theorem sscanf_unbroken (cs : List Conversion) (text : List Char) : ∀ f ∈ sscanf cs text, f.Unbroken := by
  induction cs generalizing text with
  | nil => exact fun _ h => absurd h List.not_mem_nil
  | cons c cs ih =>
    rw [sscanf]
    split
    · exact fun _ h => absurd h List.not_mem_nil
    · rename_i f rest hread
      exact List.forall_mem_cons.mpr ⟨read_unbroken hread, ih rest⟩

end Capio.Library
