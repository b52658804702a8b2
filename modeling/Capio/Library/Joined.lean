import Mathlib.Data.List.Infix

/-! Words joined by a separator that occurs in none of them: when one joined text is an initial
segment of another. -/
namespace Capio.Library

variable {α : Type}

/-- A text is cut at its first separator in one way. -/
theorem append_separator_inj {s : α} {xs ys us vs : List α} (hx : s ∉ xs) (hy : s ∉ ys)
    (h : xs ++ s :: us = ys ++ s :: vs) : xs = ys ∧ us = vs := by
  induction xs generalizing ys with
  | nil =>
    cases ys with
    | nil => exact ⟨rfl, (List.cons.inj h).2⟩
    | cons y ys => exact absurd ((List.cons.inj h).1 ▸ List.mem_cons_self) hy
  | cons x xs ih =>
    cases ys with
    | nil => exact absurd ((List.cons.inj h).1 ▸ List.mem_cons_self) hx
    | cons y ys =>
      obtain ⟨rfl, htail⟩ := List.cons.inj h
      obtain ⟨rfl, rfl⟩ := ih (fun hm => hx (List.mem_cons_of_mem _ hm))
        (fun hm => hy (List.mem_cons_of_mem _ hm)) htail
      exact ⟨rfl, rfl⟩

/-- The separator ends a word, so the first words of two joined texts are compared first. -/
theorem append_separator_prefix_iff {s : α} {d q : List α} (hd : s ∉ d) (hq : s ∉ q)
    (A B : List α) : d ++ s :: A <+: q ++ s :: B ↔ d = q ∧ A <+: B := by
  induction d generalizing q with
  | nil =>
    cases q with
    | nil => simp
    | cons c q =>
      have hc : s ≠ c := fun h => hq (h ▸ List.mem_cons_self)
      simp [hc]
  | cons c d ih =>
    cases q with
    | nil =>
      have hc : c ≠ s := fun h => hd (h ▸ List.mem_cons_self)
      simp [hc]
    | cons c' q =>
      rw [List.cons_append, List.cons_append, List.cons_prefix_cons,
        ih (List.not_mem_of_not_mem_cons hd) (List.not_mem_of_not_mem_cons hq), List.cons.injEq,
        and_assoc]

theorem prefix_append_separator_iff {s : α} {d : List α} (hd : s ∉ d) (q B : List α) :
    d <+: q ++ s :: B ↔ d <+: q := by
  refine ⟨fun h => ?_, fun h => h.trans (List.prefix_append _ _)⟩
  by_contra hn
  have hlonger : q.length < d.length := by
    by_contra hle
    exact hn (List.prefix_of_prefix_length_le h (List.prefix_append _ _) (by omega))
  obtain ⟨rest, rfl⟩ :=
    List.prefix_of_prefix_length_le (List.prefix_append q (s :: B)) h hlonger.le
  cases rest with
  | nil => simp at hlonger
  | cons c rest =>
    have hc : c = s := by
      have := (List.prefix_append_right_inj q).mp h
      exact (List.cons_prefix_cons.mp this).1
    exact hd (by simp [hc])

/-- The words of `ds` start those of `qs`, the last one only as text. -/
def StartWords (ds qs : List (List α)) : Prop :=
  ∃ above last more rest, ds = above ++ [last] ∧ qs = above ++ (last ++ more) :: rest

theorem startWords_singleton_iff (d : List α) (qs : List (List α)) :
    StartWords [d] qs ↔ ∃ more rest, qs = (d ++ more) :: rest := by
  constructor
  · intro ⟨above, last, more, rest, h, hqs⟩
    cases above with
    | nil =>
      obtain rfl : d = last := by simpa using h
      exact ⟨more, rest, hqs⟩
    | cons a above => simp at h
  · intro ⟨more, rest, hqs⟩
    exact ⟨[], d, more, rest, rfl, hqs⟩

theorem startWords_cons_iff (d d' : List α) (ds qs : List (List α)) :
    StartWords (d :: d' :: ds) qs ↔ ∃ qs', qs = d :: qs' ∧ StartWords (d' :: ds) qs' := by
  constructor
  · intro ⟨above, last, more, rest, h, hqs⟩
    cases above with
    | nil => simp at h
    | cons a above =>
      obtain ⟨rfl, hds⟩ := List.cons.inj h
      exact ⟨_, hqs, above, last, more, rest, hds, rfl⟩
  · intro ⟨qs', hqs, above, last, more, rest, h, hqs'⟩
    exact ⟨d :: above, last, more, rest, by rw [h]; rfl, by rw [hqs, hqs']; rfl⟩

theorem startWords_ne_nil {ds qs : List (List α)} (h : StartWords ds qs) : qs ≠ [] := by
  obtain ⟨above, last, more, rest, _, rfl⟩ := h
  simp

/-- A joined text starts another one exactly when its words do. -/
theorem intercalate_prefix_iff {s : α} {ds : List (List α)} (hd : ∀ d ∈ ds, s ∉ d)
    (hne : [] ∉ ds) (hds : ds ≠ []) {qs : List (List α)} (hq : ∀ q ∈ qs, s ∉ q) :
    [s].intercalate ds <+: [s].intercalate qs ↔ StartWords ds qs := by
  induction ds generalizing qs with
  | nil => exact absurd rfl hds
  | cons d ds ih =>
    have hd0 : s ∉ d := hd d List.mem_cons_self
    have hdne : d ≠ [] := fun h => hne (h ▸ List.mem_cons_self)
    cases ds with
    | nil =>
      rw [startWords_singleton_iff, List.intercalate_singleton]
      match qs with
      | [] => simp [hdne]
      | [q] =>
        rw [List.intercalate_singleton]
        exact ⟨fun ⟨more, h⟩ => ⟨more, [], by rw [h]⟩,
          fun ⟨more, rest, h⟩ => ⟨more, (List.cons.inj h).1.symm⟩⟩
      | q :: q' :: qs =>
        rw [List.intercalate_cons_cons, List.append_assoc, List.singleton_append,
          prefix_append_separator_iff hd0]
        exact ⟨fun ⟨more, h⟩ => ⟨more, q' :: qs, by rw [h]⟩,
          fun ⟨more, rest, h⟩ => ⟨more, (List.cons.inj h).1.symm⟩⟩
    | cons d' ds =>
      have hdrest : ∀ x ∈ d' :: ds, s ∉ x := fun x hx => hd x (List.mem_cons_of_mem _ hx)
      have hnerest : [] ∉ d' :: ds := fun hx => hne (List.mem_cons_of_mem _ hx)
      rw [startWords_cons_iff, List.intercalate_cons_cons, List.append_assoc,
        List.singleton_append]
      match qs with
      | [] => simp
      | [q] =>
        have hq0 : s ∉ q := hq q List.mem_cons_self
        constructor
        · intro h
          rw [List.intercalate_singleton] at h
          exact absurd (h.subset (by simp)) hq0
        · intro ⟨qs', h, hrest⟩
          exact absurd (List.cons.inj h).2.symm (startWords_ne_nil hrest)
      | q :: q' :: qs =>
        rw [List.intercalate_cons_cons, List.append_assoc, List.singleton_append,
          append_separator_prefix_iff hd0 (hq q List.mem_cons_self),
          ih hdrest hnerest (List.cons_ne_nil _ _) (fun x hx => hq x (List.mem_cons_of_mem _ hx))]
        constructor
        · intro ⟨h, hrest⟩
          exact ⟨q' :: qs, by rw [h], hrest⟩
        · intro ⟨qs', h, hrest⟩
          obtain ⟨rfl, rfl⟩ := List.cons.inj h
          exact ⟨rfl, hrest⟩

/-- Joining one more word. -/
theorem intercalate_concat (s : α) {ws : List (List α)} (hws : ws ≠ []) (last : List α) :
    [s].intercalate (ws ++ [last]) = [s].intercalate ws ++ s :: last := by
  induction ws with
  | nil => exact absurd rfl hws
  | cons w ws ih =>
    cases ws with
    | nil => simp
    | cons w' ws =>
      rw [List.cons_append, List.intercalate_cons_of_ne_nil (by simp),
        ih (List.cons_ne_nil _ _), List.intercalate_cons_cons]
      simp

/-- A joined text and one more separator start another joined text just when the words are the
first of more. -/
theorem intercalate_below_iff {s : α} {ds qs : List (List α)} (hd : ∀ d ∈ ds, s ∉ d) (hne : ds ≠ [])
    (hq : ∀ q ∈ qs, s ∉ q) :
    [s].intercalate ds ++ [s] <+: [s].intercalate qs ↔ ∃ rest, rest ≠ [] ∧ qs = ds ++ rest := by
  induction ds generalizing qs with
  | nil => exact absurd rfl hne
  | cons d ds ih =>
    have hd0 := hd d List.mem_cons_self
    match qs with
    | [] => simp
    | [q] =>
      have hq0 := hq q List.mem_cons_self
      apply iff_of_false
      · intro h
        rw [List.intercalate_singleton] at h
        exact hq0 (h.subset (by simp))
      · rintro ⟨rest, hrest, h⟩
        obtain ⟨_, htail⟩ := List.cons.inj h
        exact hrest (List.append_eq_nil_iff.mp htail.symm).2
    | q :: q' :: qs =>
      have hq0 := hq q List.mem_cons_self
      rw [List.intercalate_cons_cons, List.append_assoc, List.singleton_append]
      cases ds with
      | nil =>
        rw [List.intercalate_singleton, append_separator_prefix_iff hd0 hq0]
        constructor
        · rintro ⟨rfl, _⟩
          exact ⟨q' :: qs, List.cons_ne_nil _ _, rfl⟩
        · rintro ⟨rest, _, h⟩
          exact ⟨(List.cons.inj h).1.symm, List.nil_prefix⟩
      | cons d' ds =>
        rw [List.intercalate_cons_cons, List.append_assoc, List.append_assoc, List.singleton_append,
          append_separator_prefix_iff hd0 hq0,
          ih (fun x hx => hd x (List.mem_cons_of_mem _ hx)) (List.cons_ne_nil _ _)
            (fun x hx => hq x (List.mem_cons_of_mem _ hx))]
        constructor
        · rintro ⟨rfl, rest, hrest, h⟩
          exact ⟨rest, hrest, congrArg (d :: ·) h⟩
        · rintro ⟨rest, hrest, h⟩
          obtain ⟨rfl, htail⟩ := List.cons.inj h
          exact ⟨rfl, rest, hrest, htail⟩

/-- What ends in an element that the tail does not have starts before the tail. -/
theorem prefix_of_prefix_append {xs ys zs : List α} {c : α} (h : xs ++ [c] <+: ys ++ zs) (hc : c ∉ zs) :
    xs ++ [c] <+: ys := by
  obtain ⟨rest, hrest⟩ := h
  rcases List.append_eq_append_iff.mp hrest with ⟨more, hmore, _⟩ | ⟨more, hmore, hzs⟩
  · exact ⟨more, hmore.symm⟩
  · rcases List.eq_nil_or_concat' more with rfl | ⟨init, last, rfl⟩
    · rw [List.append_nil] at hmore
      exact ⟨[], by rw [hmore, List.append_nil]⟩
    · rw [← List.append_assoc] at hmore
      obtain ⟨_, hlast⟩ := List.append_inj' hmore rfl
      refine absurd ?_ hc
      rw [hzs, List.singleton_inj.mp hlast]
      simp

theorem not_mem_of_mem_splitOn [BEq α] [LawfulBEq α] {s : α} {xs w : List α}
    (hw : w ∈ xs.splitOn s) : s ∉ w := by
  induction xs generalizing w with
  | nil => simp_all
  | cons x xs ih =>
    rw [List.splitOn_cons_eq_if_modifyHead] at hw
    split_ifs at hw with hx
    · rcases List.mem_cons.mp hw with rfl | hw
      · exact List.not_mem_nil
      · exact ih hw
    · have hsplit := List.splitOn_ne_nil s xs
      cases hws : xs.splitOn s with
      | nil => exact absurd hws hsplit
      | cons v vs =>
        rw [hws, List.modifyHead_cons, List.mem_cons] at hw
        rcases hw with rfl | hw
        · have hv : s ∉ v := ih (hws ▸ List.mem_cons_self)
          have hs : s ≠ x := fun h => hx (h ▸ beq_self_eq_true x)
          simp [hs, hv]
        · exact ih (hws ▸ List.mem_cons_of_mem _ hw)

end Capio.Library
