import Capio.Library.Joined
import Capio.Server.ConfigEntries

/-! Which strings the parser takes for `committed`, and the rule and number of closes that the
engine then has. -/
namespace Capio.Server
open Library CapioCLEngine

def intMax : Nat := 0x7fffffff

def commitRules : List CString :=
  [capioFileCommittedOnClose, capioFileCommittedOnFile, capioFileCommittedOnTermination]

/-- The strings with a meaning, their rule and their number: -1 where none is given. -/
inductive CommitGrammar : CString → CString → Int → Prop
  | word {rule : CString} (hrule : rule ∈ commitRules) : CommitGrammar rule rule (-1)
  | closes {text : CString} (hnumeral : Numeral text) (hpos : 1 ≤ natValue text) (hmax : natValue text ≤ intMax) :
      CommitGrammar (capioFileCommittedOnClose ++ ':' :: text) capioFileCommittedOnClose (natValue text)

def StreamingEntry.withCommitted (entry : StreamingEntry) (s : CString) : StreamingEntry :=
  { entry with committed := some s }

/-- A string with a meaning is read, and the setters leave its rule and number; any other one
ends at a check. -/
structure ParsedExactly (env : Env) (entry : StreamingEntry) (s : CString) : Prop where
  taken : ∀ rule n, CommitGrammar s rule n → ∃ paths rules,
    readEntry env (entry.withCommitted s) = .ok (paths, rules) ∧
      ∀ engine engine' path, applyRules engine path rules = some engine' →
        engine'.getCommitRule path = rule ∧ engine'.getCommitCloseCount path = n
  refused : (∀ rule n, ¬ CommitGrammar s rule n) →
    ∃ message, readEntry env (entry.withCommitted s) = .error (.errExit message)

/-- No other word stands alone, and what passes for an integer is a count. -/
structure WellSpelled (s : CString) : Prop where
  word : ':' ∉ s → s ∈ commitRules
  count : ∀ text, s = capioFileCommittedOnClose ++ ':' :: text → isInt text = true →
    Numeral text ∧ 1 ≤ natValue text ∧ natValue text ≤ intMax

/-! ### The grammar -/

section Grammar
variable {s rule word text : CString} {n : Int}

theorem colon_not_mem (h : rule ∈ commitRules) : ':' ∉ rule := by
  simp only [commitRules, List.mem_cons, List.not_mem_nil, or_false] at h
  rcases h with rfl | rfl | rfl <;> decide

theorem grammar_word_iff (hs : ':' ∉ s) : CommitGrammar s rule n ↔ s ∈ commitRules ∧ rule = s ∧ n = -1 := by
  constructor
  · intro h
    cases h with
    | word hrule => exact ⟨hrule, rfl, rfl⟩
    | closes => exact absurd (List.mem_append_right _ List.mem_cons_self) hs
  · rintro ⟨hrule, rfl, rfl⟩
    exact .word hrule

theorem grammar_colon_iff (hword : ':' ∉ word) : CommitGrammar (word ++ ':' :: text) rule n ↔
    word = capioFileCommittedOnClose ∧ (Numeral text ∧ 1 ≤ natValue text ∧ natValue text ≤ intMax) ∧
      rule = capioFileCommittedOnClose ∧ n = natValue text := by
  constructor
  · intro h
    generalize hs : word ++ ':' :: text = s at h
    cases h with
    | word hrule =>
      rw [← hs] at hrule
      exact absurd (List.mem_append_right _ List.mem_cons_self) (colon_not_mem hrule)
    | closes hnumeral hpos hmax =>
      obtain ⟨rfl, rfl⟩ := append_separator_inj hword (by decide) hs
      exact ⟨rfl, ⟨hnumeral, hpos, hmax⟩, rfl, rfl⟩
  · rintro ⟨rfl, ⟨hnumeral, hpos, hmax⟩, rfl, rfl⟩
    exact .closes hnumeral hpos hmax

end Grammar

/-! ### The parser -/

section Parser
variable {env : Env} {entry : StreamingEntry} {s rule text : CString} {n : Int} {stop : Stop}

theorem parseCommitted_word (hs : ':' ∉ s) : parseCommitted (some s) = .ok (s, -1) := by
  have hnone (c : Char) (hc : c ∈ s) : decide (c ≠ ':') = true := decide_eq_true fun he => hs (he ▸ hc)
  unfold parseCommitted
  dsimp only
  rw [List.dropWhile_eq_nil_iff.mpr hnone, List.takeWhile_eq_self_iff.mpr hnone]

theorem parseCommitted_colon (hrule : ':' ∉ rule) : parseCommitted (some (rule ++ ':' :: text)) =
    if rule ≠ capioFileCommittedOnClose then .error (.errExit ("error commit rule: ".toList ++ rule))
    else if !isInt text then .error (.errExit "error commit rule on_close invalid number: !is_int()".toList)
    else match stol text with
      | some nClose => .ok (rule, nClose)
      | none => .error .thrown := by
  have hnone (c : Char) (hc : c ∈ rule) : decide (c ≠ ':') = true := decide_eq_true fun he => hrule (he ▸ hc)
  unfold parseCommitted
  dsimp only
  rw [List.dropWhile_append_of_pos hnone, List.takeWhile_append_of_pos hnone,
    List.dropWhile_cons_of_neg (by decide), List.takeWhile_cons_of_neg (by decide), List.append_nil]
  dsimp only
  cases stol text <;> rfl

theorem strtol_numeral (h : Numeral text) : strtol text = some ((natValue text : Int), []) := by
  have hnul : '\x00' ∉ text := fun hc => absurd (h.digits _ hc) (by decide)
  have hstart : text.dropWhile isSpace = text := by
    cases text with
    | nil => rfl
    | cons c cs => rw [List.dropWhile_cons_of_neg (by simp [isSpace_of_isDigit (h.digits c List.mem_cons_self)])]
  have hscan := scanNumeral_digits h [] nofun
  rw [List.append_nil] at hscan
  rw [strtol, cStr_eq_self hnul, hstart, hscan]

theorem isInt_numeral (h : Numeral text) : isInt text = true := by
  rw [isInt, if_neg h.nonempty, strtol_numeral h]
  rfl

theorem stol_numeral (h : Numeral text) (hmax : natValue text ≤ intMax) : stol text = some (natValue text) := by
  unfold intMax at hmax
  rw [stol, strtol_numeral h]
  exact if_pos ⟨by omega, by omega⟩

/-- The number that the setter keeps of one in range. -/
theorem bmod_count (hmax : natValue text ≤ intMax) : (natValue text : Int).bmod 0x100000000 = natValue text := by
  unfold intMax at hmax
  exact Int.bmod_eq_of_le (by omega) (by omega)

theorem readEntry_error (h : parseCommitted (some s) = .error stop) (hnames : ∃ read, streamingNames entry = .ok read) :
    readEntry env (entry.withCommitted s) = .error stop := by
  obtain ⟨read, hread⟩ := hnames
  have hsame : streamingNames (entry.withCommitted s) = .ok read := hread
  unfold readEntry
  rw [hsame]
  change (parseCommitted (some s) >>= _) = _
  rw [h]
  rfl

variable (env) in
theorem readEntry_ok (h : parseCommitted (some s) = .ok (rule, n)) (hnames : ∃ read, streamingNames entry = .ok read)
    (hdeps : rule = capioFileCommittedOnFile → entry.fileDeps ≠ none) : ∃ paths rules,
    readEntry env (entry.withCommitted s) = .ok (paths, rules) ∧ rules.commitRule = rule ∧ rules.nClose = n := by
  obtain ⟨read, hread⟩ := hnames
  have hsame : streamingNames (entry.withCommitted s) = .ok read := hread
  obtain ⟨fileDeps, hfile⟩ : ∃ fileDeps, parseFileDeps env rule entry.fileDeps = .ok fileDeps := by
    unfold parseFileDeps
    split_ifs with hrule
    · obtain ⟨names, hsome⟩ := Option.ne_none_iff_exists'.mp (hdeps hrule)
      rw [hsome]
      exact ⟨_, rfl⟩
    · exact ⟨_, rfl⟩
  have hfile' : parseFileDeps env rule (entry.withCommitted s).fileDeps = .ok fileDeps := hfile
  have hcommitted : parseCommitted (entry.withCommitted s).committed = .ok (rule, n) := h
  unfold readEntry
  rw [hsame, hcommitted]
  simp only [bind, Except.bind, hfile']
  exact ⟨_, _, rfl, rfl, rfl⟩

/-- What the setters leave of an entry. -/
theorem applyRules_has {engine engine' : CapioCLEngine} {path : CString} {rules : StreamingRules}
    (h : applyRules engine path rules = some engine') :
    ∃ l, engine'.locations.lookup path = some l ∧ l.Has rules := by
  have hscript := applyRules_eq engine path rules
  rw [h] at hscript
  obtain ⟨_, hfirst, _⟩ := runScript_cons_ok_iff.mp hscript.symm
  have hmem : path ∈ engine.locations := by
    by_contra hnot
    rw [Update.run, if_neg hnot] at hfirst
    cases hfirst
  obtain ⟨l, hl⟩ := Option.isSome_iff_exists.mp (AList.lookup_isSome.mpr hmem)
  refine ⟨_, runScript_writes hl hscript.symm, writeAll_has ?_⟩
  rw [written_rulesUpdates]
  simp [lastRules]

theorem taken_of_parse (hparse : parseCommitted (some s) = .ok (rule, n)) (hn : n.bmod 0x100000000 = n)
    (hnames : ∃ read, streamingNames entry = .ok read)
    (hdeps : rule = capioFileCommittedOnFile → entry.fileDeps ≠ none) : ∃ paths rules,
    readEntry env (entry.withCommitted s) = .ok (paths, rules) ∧
      ∀ engine engine' path, applyRules engine path rules = some engine' →
        engine'.getCommitRule path = rule ∧ engine'.getCommitCloseCount path = n := by
  obtain ⟨paths, rules, hread, hrule, hcount⟩ := readEntry_ok env hparse hnames hdeps
  refine ⟨paths, rules, hread, fun engine engine' path happly => ?_⟩
  obtain ⟨l, hl, hhas⟩ := applyRules_has happly
  rw [getCommitRule, getCommitCloseCount, hl]
  exact ⟨hhas.commitRule.trans hrule, hhas.commitOnCloseNumber.trans (hcount ▸ hn)⟩

theorem exact_of_taken (hparse : parseCommitted (some s) = .ok (rule, n)) (hn : n.bmod 0x100000000 = n)
    (hgrammar : ∀ r m, CommitGrammar s r m ↔ r = rule ∧ m = n) (hnames : ∃ read, streamingNames entry = .ok read)
    (hdeps : rule = capioFileCommittedOnFile → entry.fileDeps ≠ none) : ParsedExactly env entry s where
  taken := by
    intro r m h
    obtain ⟨rfl, rfl⟩ := (hgrammar r m).mp h
    exact taken_of_parse hparse hn hnames hdeps
  refused := fun hnone => absurd ((hgrammar rule n).mpr ⟨rfl, rfl⟩) (hnone rule n)

theorem exact_of_refused {message : CString} (hparse : parseCommitted (some s) = .error (.errExit message))
    (hnone : ∀ r m, ¬ CommitGrammar s r m) (hnames : ∃ read, streamingNames entry = .ok read) :
    ParsedExactly env entry s where
  taken := fun r m h => absurd h (hnone r m)
  refused := fun _ => ⟨message, readEntry_error hparse hnames⟩

/-- A string without a meaning that no check stops. -/
theorem not_exact (hnone : ∀ r m, ¬ CommitGrammar s r m)
    (hparse : parseCommitted (some s) = .error .thrown ∨ ∃ n, parseCommitted (some s) = .ok (rule, n))
    (hnames : ∃ read, streamingNames entry = .ok read)
    (hdeps : rule = capioFileCommittedOnFile → entry.fileDeps ≠ none) : ¬ ParsedExactly env entry s := by
  intro h
  obtain ⟨message, hrefused⟩ := h.refused hnone
  rcases hparse with hthrown | ⟨n, hok⟩
  · rw [readEntry_error hthrown hnames] at hrefused
    cases hrefused
  · obtain ⟨_, _, hread, _⟩ := readEntry_ok env hok hnames hdeps
    rw [hread] at hrefused
    cases hrefused

/-- What passes for an integer after `on_close:` is taken, or throws. -/
theorem exact_count_iff (hnames : ∃ read, streamingNames entry = .ok read) (hint : isInt text = true) :
    ParsedExactly env entry (capioFileCommittedOnClose ++ ':' :: text) ↔
      Numeral text ∧ 1 ≤ natValue text ∧ natValue text ≤ intMax := by
  have hword : ':' ∉ capioFileCommittedOnClose := by decide
  have hnot_file : capioFileCommittedOnClose = capioFileCommittedOnFile → entry.fileDeps ≠ none :=
    fun h => absurd h (by decide)
  have hparse : parseCommitted (some (capioFileCommittedOnClose ++ ':' :: text)) = _ := parseCommitted_colon hword
  rw [if_neg (not_not_intro rfl), if_neg (by simp [hint])] at hparse
  by_cases hcount : Numeral text ∧ 1 ≤ natValue text ∧ natValue text ≤ intMax
  · rw [stol_numeral hcount.1 hcount.2.2] at hparse
    refine iff_of_true (exact_of_taken hparse (bmod_count hcount.2.2) (fun r m => ?_) hnames hnot_file) hcount
    exact (grammar_colon_iff hword).trans ((and_iff_right rfl).trans (and_iff_right hcount))
  · refine iff_of_false (not_exact (fun r m h => hcount ((grammar_colon_iff hword).mp h).2.1) ?_ hnames hnot_file) hcount
    cases hstol : stol text with
    | none => exact .inl (by rw [hparse, hstol])
    | some n => exact .inr ⟨n, by rw [hparse, hstol]⟩

end Parser

/-- In a section that is complete otherwise, the string is parsed as the grammar has it just when
it is a rule if it has no colon, and a count in range if what follows `on_close:` passes for an
integer. -/
theorem committed_parsed_exactly_iff (env : Env) (entry : StreamingEntry) (s : CString)
    (hnames : ∃ read, streamingNames entry = .ok read)
    (hdeps : s = capioFileCommittedOnFile → entry.fileDeps ≠ none) :
    ParsedExactly env entry s ↔ WellSpelled s := by
  by_cases hs : ':' ∈ s
  · obtain ⟨word, text, rfl, hword⟩ := List.eq_append_cons_of_mem hs
    have hparse : parseCommitted (some (word ++ ':' :: text)) = _ := parseCommitted_colon hword
    have hsplit (text' : CString) (h : word ++ ':' :: text = capioFileCommittedOnClose ++ ':' :: text') :
        word = capioFileCommittedOnClose ∧ text = text' := append_separator_inj hword (by decide) h
    by_cases hclose : word = capioFileCommittedOnClose
    · subst hclose
      by_cases hint : isInt text = true
      · refine (exact_count_iff hnames hint).trans ⟨fun hcount => ⟨fun h => absurd hs h, ?_⟩, fun h => h.count text rfl hint⟩
        intro text' htext _
        exact (hsplit text' htext).2 ▸ hcount
      · rw [if_neg (not_not_intro rfl), if_pos (by simp [hint])] at hparse
        refine iff_of_true (exact_of_refused hparse (fun r m h => ?_) hnames) ⟨fun h => absurd hs h, ?_⟩
        · exact hint (isInt_numeral ((grammar_colon_iff hword).mp h).2.1.1)
        · intro text' htext hint'
          exact absurd ((hsplit text' htext).2 ▸ hint') hint
    · rw [if_pos hclose] at hparse
      refine iff_of_true (exact_of_refused hparse (fun r m h => ?_) hnames) ⟨fun h => absurd hs h, ?_⟩
      · exact hclose ((grammar_colon_iff hword).mp h).1
      · intro text' htext _
        exact absurd (hsplit text' htext).1 hclose
  · have hparse := parseCommitted_word hs
    by_cases hrule : s ∈ commitRules
    · refine iff_of_true (exact_of_taken hparse (by decide) (fun r m => ?_) hnames hdeps) ⟨fun _ => hrule, ?_⟩
      · exact (grammar_word_iff hs).trans (and_iff_right hrule)
      · rintro text rfl
        exact absurd (List.mem_append_right _ List.mem_cons_self) hs
    · refine iff_of_false ?_ (fun h => hrule (h.word hs))
      exact not_exact (fun r m h => hrule ((grammar_word_iff hs).mp h).1) (.inr ⟨-1, hparse⟩) hnames hdeps

/-- One file that is committed as the string says. -/
def committedAs (s : CString) : StreamingEntry :=
  { name := some ["f".toList], dirname := none, committed := some s, fileDeps := none, mode := none, nFiles := none }

theorem committed_parsed_exactly_iff_twoCloses :
    ParsedExactly listingEnv (committedAs []) "on_close:2".toList ↔ WellSpelled "on_close:2".toList :=
  committed_parsed_exactly_iff listingEnv (committedAs []) "on_close:2".toList ⟨_, rfl⟩ (by decide)

/-- A count past the range of `int` becomes another one. -/
theorem large_count_changed : ¬ ParsedExactly listingEnv (committedAs []) "on_close:4294967297".toList := by
  intro h
  have hread : (readEntry listingEnv ((committedAs []).withCommitted "on_close:4294967297".toList)).toOption.map
      (fun read => read.2.nClose) = some 4294967297 := by decide
  have hmeaningless (rule : CString) (n : Int) : ¬ CommitGrammar "on_close:4294967297".toList rule n := by
    intro hgrammar
    have hcolon : CommitGrammar (capioFileCommittedOnClose ++ ':' :: "4294967297".toList) rule n := hgrammar
    exact absurd ((grammar_colon_iff (by decide)).mp hcolon).2.1.2.2 (by decide)
  obtain ⟨message, hrefused⟩ := h.refused hmeaningless
  rw [hrefused] at hread
  cases hread

end Capio.Server
