import Mathlib.Data.List.AList
import Mathlib.Data.List.MinMax

/-! Hash tables with an explicit iteration order: the order of `entries` is the
order in which loops visit the table, and no theorem fixes it. -/
namespace Capio.Library

variable {κ ν ρ : Type}

/-- What a fallible body keeps, the loop over it keeps. -/
theorem foldlM_keeps {α σ : Type} {body : σ → α → Option σ} {I : σ → Prop}
    (keep : ∀ s a s', I s → body s a = some s' → I s') {items : List α} {s t : σ} (hs : I s)
    (h : items.foldlM body s = some t) : I t := by
  induction items generalizing s with
  | nil =>
    cases h
    exact hs
  | cons a items ih =>
    rw [List.foldlM_cons] at h
    obtain ⟨s₁, hone, hrest⟩ := Option.bind_eq_some_iff.mp h
    exact ih (keep s a s₁ hs hone) hrest

abbrev UnorderedMap (κ ν : Type) := AList (fun _ : κ => ν)

abbrev UnorderedSet (κ : Type) := UnorderedMap κ Unit

namespace UnorderedMap

/-- Every value is changed, every entry keeps its key. -/
def mapValues (f : ν → ν) (m : UnorderedMap κ ν) : UnorderedMap κ ν :=
  ⟨m.entries.map (.map id fun _ => f), List.NodupKeys.map₂ (fun _ => f) _ m.nodupKeys⟩

@[simp] theorem lookup_mapValues [DecidableEq κ] (f : ν → ν) (m : UnorderedMap κ ν) (key : κ) :
    (mapValues f m).lookup key = (m.lookup key).map f :=
  List.dlookup_map₂ key

/-- Erase-while-iterating over the entries. The body fails with `none`, keeps an
entry with `some none` and removes it with an output otherwise. -/
def drainEntries (body : κ → ν → Option (Option ρ)) :
    List (Σ _ : κ, ν) → Option (List (Σ _ : κ, ν) × List ρ)
  | [] => some ([], [])
  | e :: es => do
    let verdict ← body e.1 e.2
    let (kept, out) ← drainEntries body es
    match verdict with
    | none => some (e :: kept, out)
    | some r => some (kept, r :: out)

theorem drainEntries_eq (body : κ → ν → Option (Option ρ)) (es kept : List (Σ _ : κ, ν))
    (out : List ρ) (h : drainEntries body es = some (kept, out)) :
    (∀ e ∈ es, (body e.1 e.2).isSome) ∧ kept = es.filter (fun e => body e.1 e.2 matches some none) ∧
      out = es.filterMap (fun e => (body e.1 e.2).join) := by
  induction es generalizing kept out with
  | nil => simp_all [drainEntries]
  | cons e es ih =>
    simp only [drainEntries, Option.bind_eq_bind, Option.bind_eq_some_iff] at h
    obtain ⟨verdict, hv, ⟨kept', out'⟩, hrest, h⟩ := h
    obtain ⟨hall, rfl, rfl⟩ := ih kept' out' hrest
    refine ⟨?_, ?_, ?_⟩
    · simpa [hv] using hall
    all_goals cases verdict <;> simp_all

theorem drainEntries_sublist (body : κ → ν → Option (Option ρ)) (es kept : List (Σ _ : κ, ν))
    (out : List ρ) (h : drainEntries body es = some (kept, out)) : kept.Sublist es := by
  obtain ⟨_, rfl, _⟩ := drainEntries_eq body es kept out h
  exact List.filter_sublist

theorem drainEntries_congr {body body' : κ → ν → Option (Option ρ)} {es : List (Σ _ : κ, ν)}
    (h : ∀ e ∈ es, body e.1 e.2 = body' e.1 e.2) : drainEntries body es = drainEntries body' es := by
  induction es with
  | nil => rfl
  | cons e es ih =>
    obtain ⟨he, hes⟩ := List.forall_mem_cons.mp h
    rw [drainEntries, drainEntries, he, ih hes]

variable [DecidableEq κ]

/-- `emplace`, `try_emplace` and `insert`: an entry that is there stays. -/
def emplace (m : UnorderedMap κ ν) (k : κ) (v : ν) : UnorderedMap κ ν :=
  if k ∈ m then m else m.insert k v

theorem lookup_emplace (m : UnorderedMap κ ν) (k k' : κ) (v : ν) :
    (emplace m k v).lookup k' =
      if k' = k then some ((m.lookup k).getD v) else m.lookup k' := by
  unfold emplace
  split_ifs with hk he he
  · subst he
    obtain ⟨w, hw⟩ := Option.isSome_iff_exists.mp (AList.lookup_isSome.mpr hk)
    simp [hw]
  · rfl
  · subst he
    simp [AList.lookup_eq_none.mpr hk]
  · exact AList.lookup_insert_ne he

theorem of_lookup_emplace {m : UnorderedMap κ ν} {k k' : κ} {v w : ν} (h : (emplace m k v).lookup k' = some w) :
    w = v ∨ m.lookup k' = some w := by
  rw [lookup_emplace] at h
  split_ifs at h with he
  · subst he
    cases hk : m.lookup k' with
    | none =>
      rw [hk] at h
      exact .inl (Option.some.inj h).symm
    | some old =>
      rw [hk] at h
      exact .inr h
  · exact .inr h

theorem mem_emplace (m : UnorderedMap κ ν) (k k' : κ) (v : ν) :
    k' ∈ emplace m k v ↔ k' = k ∨ k' ∈ m := by
  unfold emplace
  split_ifs with hk
  · exact ⟨.inr, fun h => h.elim (fun he => he ▸ hk) id⟩
  · exact AList.mem_insert m

theorem lookup_insert_eq (m : UnorderedMap κ ν) (k k' : κ) (v : ν) :
    (AList.insert k v m).lookup k' = if k' = k then some v else m.lookup k' := by
  split_ifs with he
  · subst he; exact AList.lookup_insert m
  · exact AList.lookup_insert_ne he

theorem lookup_erase_eq (m : UnorderedMap κ ν) (k k' : κ) :
    (AList.erase k m).lookup k' = if k' = k then none else m.lookup k' := by
  split_ifs with he
  · subst he; exact AList.lookup_erase k' m
  · exact AList.lookup_erase_ne he

/-- The erase-while-iterating loop on a table. -/
def drain (body : κ → ν → Option (Option ρ)) (m : UnorderedMap κ ν) :
    Option (UnorderedMap κ ν × List ρ) :=
  match h : drainEntries body m.entries with
  | none => none
  | some (kept, out) =>
    some (⟨kept, m.nodupKeys.sublist (drainEntries_sublist body m.entries kept out h)⟩, out)

omit [DecidableEq κ] in
theorem drain_entries {body : κ → ν → Option (Option ρ)} {m m' : UnorderedMap κ ν} {out : List ρ}
    (h : drain body m = some (m', out)) : drainEntries body m.entries = some (m'.entries, out) := by
  unfold drain at h
  split at h
  · cases h
  · rename_i he
    cases h
    exact he

/-- The loop returns only if no body failed. -/
theorem drain_isSome {body : κ → ν → Option (Option ρ)} {m m' : UnorderedMap κ ν} {out : List ρ}
    (h : drain body m = some (m', out)) (k : κ) (v : ν) (hk : m.lookup k = some v) :
    (body k v).isSome :=
  (drainEntries_eq body _ _ _ (drain_entries h)).1 ⟨k, v⟩ (AList.mem_lookup_iff.mp hk)

omit [DecidableEq κ] in
private theorem drainEntries_none {body : κ → ν → Option (Option ρ)} {es : List (Σ _ : κ, ν)}
    (h : drainEntries body es = none) : ∃ e ∈ es, body e.1 e.2 = none := by
  induction es with
  | nil => cases h
  | cons e es ih =>
    cases hb : body e.1 e.2 with
    | none => exact ⟨e, List.mem_cons_self, hb⟩
    | some verdict =>
      cases hrest : drainEntries body es with
      | none =>
        obtain ⟨d, hd, hn⟩ := ih hrest
        exact ⟨d, List.mem_cons_of_mem e hd, hn⟩
      | some rest =>
        simp only [drainEntries, hb, hrest, Option.bind_eq_bind, Option.bind_some] at h
        cases verdict <;> cases h

/-- The loop fails only where a body does. -/
theorem drain_eq_none {body : κ → ν → Option (Option ρ)} {m : UnorderedMap κ ν}
    (h : drain body m = none) : ∃ k v, m.lookup k = some v ∧ body k v = none := by
  unfold drain at h
  split at h
  · rename_i hnone
    obtain ⟨e, he, hb⟩ := drainEntries_none hnone
    exact ⟨e.1, e.2, AList.mem_lookup_iff.mpr he, hb⟩
  · cases h

/-- Exactly the entries the body wants to keep stay, with their values. -/
theorem drain_lookup {body : κ → ν → Option (Option ρ)} {m m' : UnorderedMap κ ν} {out : List ρ}
    (h : drain body m = some (m', out)) (k : κ) (v : ν) :
    m'.lookup k = some v ↔ m.lookup k = some v ∧ body k v = some none := by
  have hkept := (drainEntries_eq body _ _ _ (drain_entries h)).2.1
  change v ∈ m'.lookup k ↔ v ∈ m.lookup k ∧ _
  rw [AList.mem_lookup_iff, AList.mem_lookup_iff, hkept, List.mem_filter]
  cases hb : body k v with
  | none => simp
  | some r => cases r <;> simp

theorem drain_output {body : κ → ν → Option (Option ρ)} {m m' : UnorderedMap κ ν} {out : List ρ}
    (h : drain body m = some (m', out)) (r : ρ) :
    r ∈ out ↔ ∃ k v, m.lookup k = some v ∧ body k v = some (some r) := by
  rw [(drainEntries_eq body _ _ _ (drain_entries h)).2.2, List.mem_filterMap]
  constructor
  · rintro ⟨e, he, hr⟩
    exact ⟨e.1, e.2, AList.mem_lookup_iff.mpr he, by simpa [Option.join_eq_some_iff] using hr⟩
  · rintro ⟨k, v, hk, hr⟩
    exact ⟨⟨k, v⟩, AList.mem_lookup_iff.mp hk, by simp [hr]⟩

private theorem filterMap_count (body : κ → ν → Option (Option ρ)) (key : ρ → κ)
    (hkey : ∀ k v r, body k v = some (some r) → key r = k) (es : List (Σ _ : κ, ν))
    (hn : es.NodupKeys) (k : κ) :
    ((es.filterMap (fun e => (body e.1 e.2).join)).map key).count k ≤ 1 := by
  have hsub : ((es.filterMap (fun e => (body e.1 e.2).join)).map key).Sublist es.keys := by
    clear hn
    induction es with
    | nil => simp
    | cons e es ih =>
      rw [List.filterMap_cons]
      cases hb : (body e.1 e.2).join with
      | none => exact ih.trans (List.sublist_cons_self _ _)
      | some r =>
        have hr : key r = e.1 := hkey _ _ _ (Option.join_eq_some_iff.mp hb)
        simpa [hr] using ih.cons_cons e.1
  have hone : es.keys.count k ≤ 1 := List.nodup_iff_count_le_one.mp hn k
  exact Nat.le_trans (hsub.count_le k) hone

/-- When every output names the key it was made for, no key is named twice. -/
theorem drain_output_once {body : κ → ν → Option (Option ρ)} {m m' : UnorderedMap κ ν} {out : List ρ}
    (h : drain body m = some (m', out)) (key : ρ → κ)
    (hkey : ∀ k v r, body k v = some (some r) → key r = k) (k : κ) : (out.map key).count k ≤ 1 := by
  rw [(drainEntries_eq body _ _ _ (drain_entries h)).2.2]
  exact filterMap_count body key hkey m.entries m.nodupKeys k

/-! ### Loops that change a state -/

section Sweep
variable {σ : Type} {sweepBody : σ → κ → ν → Option (Option ρ × σ)} {next : σ → Option σ} {s t : σ}

omit [DecidableEq κ] in
/-- Erase-while-iterating where every turn hands a state to the next. -/
def sweepEntries (body : σ → κ → ν → Option (Option ρ × σ)) :
    σ → List (Σ _ : κ, ν) → Option (List (Σ _ : κ, ν) × List ρ × σ)
  | s, [] => some ([], [], s)
  | s, e :: es => do
    let (verdict, s) ← body s e.1 e.2
    let (kept, out, s) ← sweepEntries body s es
    match verdict with
    | none => some (e :: kept, out, s)
    | some r => some (kept, r :: out, s)

/-- The state after some steps. -/
def stateAfter (next : σ → Option σ) : Nat → σ → Option σ
  | 0, s => some s
  | n + 1, s => (next s).bind (stateAfter next n)

omit [DecidableEq κ] in
theorem sweepEntries_sublist {es kept : List (Σ _ : κ, ν)} {out : List ρ}
    (h : sweepEntries sweepBody s es = some (kept, out, t)) : kept.Sublist es := by
  induction es generalizing s kept out with
  | nil =>
    cases h
    exact .slnil
  | cons e es ih =>
    obtain ⟨⟨verdict, s'⟩, _, h⟩ := Option.bind_eq_some_iff.mp h
    obtain ⟨⟨kept', out', t'⟩, hrest, h⟩ := Option.bind_eq_some_iff.mp h
    cases verdict with
    | none =>
      cases h
      exact (ih hrest).cons_cons e
    | some r =>
      cases h
      exact (ih hrest).cons e

omit [DecidableEq κ] in
/-- The loop on a table. -/
def sweep (body : σ → κ → ν → Option (Option ρ × σ)) (s : σ) (m : UnorderedMap κ ν) :
    Option (UnorderedMap κ ν × List ρ × σ) :=
  match h : sweepEntries body s m.entries with
  | none => none
  | some (kept, out, t) => some (⟨kept, m.nodupKeys.sublist (sweepEntries_sublist h)⟩, out, t)

/-- One turn for each key: a loop whose state takes its own course decides like one without a state. -/
private theorem sweepEntries_turns (hnext : ∀ s k v r s', sweepBody s k v = some (r, s') → next s = some s')
    {es kept : List (Σ _ : κ, ν)} (hn : es.NodupKeys) {out : List ρ}
    (h : sweepEntries sweepBody s es = some (kept, out, t)) :
    ∃ turn : κ → σ, (∀ i e, es[i]? = some e → stateAfter next i s = some (turn e.1)) ∧
      drainEntries (fun k v => (sweepBody (turn k) k v).map Prod.fst) es = some (kept, out) := by
  induction es generalizing s t kept out with
  | nil =>
    obtain ⟨rfl, rfl, rfl⟩ : [] = kept ∧ [] = out ∧ s = t := by simpa [sweepEntries] using h
    exact ⟨fun _ => s, by simp, rfl⟩
  | cons e es ih =>
    obtain ⟨⟨verdict, s'⟩, hbody, h⟩ := Option.bind_eq_some_iff.mp h
    obtain ⟨⟨kept', out', t'⟩, hrest, h⟩ := Option.bind_eq_some_iff.mp h
    obtain ⟨hnot, hn'⟩ := List.nodupKeys_cons.mp hn
    obtain ⟨turn, hturn, hdrain⟩ := ih hn' hrest
    have hlater {i : Nat} {d : Σ _ : κ, ν} (hd : es[i]? = some d) : d.1 ≠ e.1 := by
      intro he
      exact hnot (he ▸ List.mem_keys_of_mem (List.mem_of_getElem? hd))
    refine ⟨fun k => if k = e.1 then s else turn k, ?_, ?_⟩
    · intro i d hd
      cases i with
      | zero =>
        cases hd
        exact congrArg some (if_pos rfl).symm
      | succ i =>
        rw [List.getElem?_cons_succ] at hd
        rw [stateAfter, hnext _ _ _ _ _ hbody, Option.bind_some, hturn i d hd]
        exact congrArg some (if_neg (hlater hd)).symm
    · have hsame : drainEntries (fun k v => (sweepBody (if k = e.1 then s else turn k) k v).map Prod.fst) es =
          some (kept', out') := by
        rw [← hdrain]
        refine drainEntries_congr fun d hd => ?_
        obtain ⟨i, hi⟩ := List.mem_iff_getElem?.mp hd
        rw [if_neg (hlater hi)]
      simp only [drainEntries, if_pos, hbody, hsame, Option.bind_eq_bind, Option.bind_some, Option.map_some]
      cases verdict with
      | none =>
        cases h
        rfl
      | some r =>
        cases h
        rfl

theorem sweep_turns (hnext : ∀ s k v r s', sweepBody s k v = some (r, s') → next s = some s')
    {m m' : UnorderedMap κ ν} {out : List ρ} (h : sweep sweepBody s m = some (m', out, t)) :
    ∃ turn : κ → σ, (∀ i e, m.entries[i]? = some e → stateAfter next i s = some (turn e.1)) ∧
      drain (fun k v => (sweepBody (turn k) k v).map Prod.fst) m = some (m', out) := by
  unfold sweep at h
  split at h
  · cases h
  · rename_i kept out' t' hentries
    cases h
    obtain ⟨turn, hturn, hdrain⟩ := sweepEntries_turns hnext m.nodupKeys hentries
    refine ⟨turn, hturn, ?_⟩
    unfold drain
    split
    · rename_i hnone
      rw [hdrain] at hnone
      cases hnone
    · rename_i hsome
      rw [hdrain] at hsome
      cases hsome
      rfl

omit [DecidableEq κ] in
private theorem sweepEntries_returns (hnext : ∀ s k v r s', sweepBody s k v = some (r, s') → next s = some s')
    {es : List (Σ _ : κ, ν)}
    (h : ∀ i e, es[i]? = some e → ∃ s', stateAfter next i s = some s' ∧ sweepBody s' e.1 e.2 ≠ none) :
    ∃ result, sweepEntries sweepBody s es = some result := by
  induction es generalizing s with
  | nil => exact ⟨_, rfl⟩
  | cons e es ih =>
    obtain ⟨s₁, hs₁, hbody⟩ := h 0 e rfl
    cases hs₁
    obtain ⟨⟨verdict, s'⟩, hbody⟩ := Option.ne_none_iff_exists'.mp hbody
    obtain ⟨⟨kept, out, t⟩, hrest⟩ := ih fun i d hd => by
      obtain ⟨s₂, hs₂, hbody₂⟩ := h (i + 1) d hd
      rw [stateAfter, hnext _ _ _ _ _ hbody, Option.bind_some] at hs₂
      exact ⟨s₂, hs₂, hbody₂⟩
    simp only [sweepEntries, hbody, hrest, Option.bind_eq_bind, Option.bind_some]
    cases verdict with
    | none => exact ⟨_, rfl⟩
    | some r => exact ⟨_, rfl⟩

omit [DecidableEq κ] in
/-- The loop returns when every turn does. -/
theorem sweep_returns (hnext : ∀ s k v r s', sweepBody s k v = some (r, s') → next s = some s')
    {m : UnorderedMap κ ν}
    (h : ∀ i e, m.entries[i]? = some e → ∃ s', stateAfter next i s = some s' ∧ sweepBody s' e.1 e.2 ≠ none) :
    ∃ result, sweep sweepBody s m = some result := by
  obtain ⟨⟨kept, out, t⟩, hentries⟩ := sweepEntries_returns hnext h
  unfold sweep
  split
  · rename_i hnone
    rw [hentries] at hnone
    cases hnone
  · exact ⟨_, rfl⟩

omit [DecidableEq κ] in
/-- Where no turn changes the state, the loop is the one without a state. -/
theorem sweep_still {body : κ → ν → Option (Option ρ)} {m : UnorderedMap κ ν}
    (h : ∀ e ∈ m.entries, sweepBody s e.1 e.2 = (body e.1 e.2).map (·, s)) :
    sweep sweepBody s m = (drain body m).map fun r => (r.1, r.2, s) := by
  have hentries (es : List (Σ _ : κ, ν)) (hes : ∀ e ∈ es, sweepBody s e.1 e.2 = (body e.1 e.2).map (·, s)) :
      sweepEntries sweepBody s es = (drainEntries body es).map fun r => (r.1, r.2, s) := by
    induction es with
    | nil => rfl
    | cons e es ih =>
      obtain ⟨he, hrest⟩ := List.forall_mem_cons.mp hes
      simp only [sweepEntries, drainEntries, he]
      cases body e.1 e.2 with
      | none => rfl
      | some verdict =>
        simp only [Option.map_some, Option.bind_eq_bind, Option.bind_some, ih hrest]
        cases drainEntries body es with
        | none => rfl
        | some r => cases verdict <;> rfl
  have hall := hentries m.entries h
  unfold sweep drain
  split
  · rename_i hnone
    split
    · rfl
    · rename_i hsome
      rw [hsome, hnone] at hall
      cases hall
  · rename_i hsome
    split
    · rename_i hnone
      rw [hnone, hsome] at hall
      cases hall
    · rename_i hsome'
      rw [hsome, hsome'] at hall
      cases hall
      rfl

end Sweep

/-! ### Loops whose result rests on the order -/

section Order
variable {β ω : Type} {m m' : UnorderedMap κ ν}

/-- The same entries, visited in another order. -/
def Reordered (m m' : UnorderedMap κ ν) : Prop := m'.entries.Perm m.entries

omit [DecidableEq κ] in
theorem exists_order_first {e : Σ _ : κ, ν} (he : e ∈ m.entries) :
    ∃ m' : UnorderedMap κ ν, Reordered m m' ∧ ∃ rest, m'.entries = e :: rest := by
  obtain ⟨front, back, heq⟩ := List.append_of_mem he
  have hperm : (e :: (front ++ back)).Perm m.entries := heq ▸ List.perm_middle.symm
  exact ⟨⟨e :: (front ++ back), (List.perm_nodupKeys hperm).mpr m.nodupKeys⟩, hperm, _, rfl⟩

theorem Reordered.lookup (h : Reordered m m') (k : κ) : m'.lookup k = m.lookup k :=
  AList.perm_lookup h

theorem Reordered.mem (h : Reordered m m') (k : κ) : k ∈ m' ↔ k ∈ m := by
  rw [← AList.lookup_isSome, ← AList.lookup_isSome, h.lookup]

omit [DecidableEq κ] in
/-- The first answer of a loop over the entries is the same in every order exactly when no two
entries answer differently. -/
theorem findSome?_order_iff (answer : (Σ _ : κ, ν) → Option ω) (default : ω) :
    (∀ m', Reordered m m' →
      (m'.entries.findSome? answer).getD default = (m.entries.findSome? answer).getD default) ↔
      ∀ e ∈ m.entries, ∀ e' ∈ m.entries, ∀ a b, answer e = some a → answer e' = some b → a = b := by
  constructor
  · intro h e he e' he' a b ha hb
    obtain ⟨first, hfirst, rest, heq⟩ := exists_order_first he
    obtain ⟨second, hsecond, rest', heq'⟩ := exists_order_first he'
    have hsame := (h first hfirst).trans (h second hsecond).symm
    rw [heq, heq', List.findSome?_cons, List.findSome?_cons, ha, hb] at hsame
    exact hsame
  · intro h m' hperm
    cases hfound : m.entries.findSome? answer with
    | none =>
      have hnone : m'.entries.findSome? answer = none := by
        rw [List.findSome?_eq_none_iff] at hfound ⊢
        exact fun e he => hfound e (hperm.mem_iff.mp he)
      rw [hnone]
    | some a =>
      obtain ⟨e, he, ha⟩ := List.exists_of_findSome?_eq_some hfound
      cases hfound' : m'.entries.findSome? answer with
      | none =>
        rw [List.findSome?_eq_none_iff.mp hfound' e (hperm.mem_iff.mpr he)] at ha
        cases ha
      | some b =>
        obtain ⟨e', he', hb⟩ := List.exists_of_findSome?_eq_some hfound'
        exact h e' (hperm.mem_iff.mp he') e he b a hb ha

variable [LinearOrder β] (p : κ → Bool) (measure : κ → β)

/-- A key that passes the test, none of those that do being greater. -/
structure Greatest (m : UnorderedMap κ ν) (k : κ) : Prop where
  mem : k ∈ m
  passes : p k = true
  le : ∀ k' ∈ m, p k' = true → measure k' ≤ measure k

variable {p measure}

theorem greatest_of_argmax {k : κ} (h : (m.keys.filter p).argmax measure = some k) :
    Greatest p measure m k := by
  obtain ⟨hmem, hle, _⟩ := List.argmax_eq_some_iff.mp h
  rw [List.mem_filter] at hmem
  exact ⟨AList.mem_keys.mpr hmem.1, hmem.2, fun k' hk' hp =>
    hle k' (List.mem_filter.mpr ⟨AList.mem_keys.mp hk', hp⟩)⟩

/-- Whichever of the greatest keys comes first is taken. -/
theorem exists_order_argmax {k : κ} (h : Greatest p measure m k) :
    ∃ m' : UnorderedMap κ ν, Reordered m m' ∧ (m'.keys.filter p).argmax measure = some k := by
  obtain ⟨v, hv⟩ := Option.isSome_iff_exists.mp (AList.lookup_isSome.mpr h.mem)
  obtain ⟨m', hperm, rest, heq⟩ := exists_order_first (AList.mem_lookup_iff.mp hv)
  refine ⟨m', hperm, List.argmax_eq_some_iff.mpr ?_⟩
  have hkeys : m'.keys.filter p = k :: (rest.keys.filter p) := by
    rw [AList.keys, heq, List.keys_cons, List.filter_cons, if_pos h.passes]
  refine ⟨hkeys ▸ List.mem_cons_self, fun k' hk' => ?_, fun k' _ _ => ?_⟩
  · obtain ⟨hmem, hp⟩ := List.mem_filter.mp hk'
    exact h.le k' ((hperm.mem k').mp (AList.mem_keys.mpr hmem)) hp
  · rw [hkeys, List.idxOf_cons_self]
    exact Nat.zero_le _

variable (p measure) in
theorem argmax_order_iff (value : κ → ω) (default : ω) :
    (∀ m', Reordered m m' → ((m'.keys.filter p).argmax measure).elim default value =
        ((m.keys.filter p).argmax measure).elim default value) ↔
      ∀ k k', Greatest p measure m k → Greatest p measure m k' → value k = value k' := by
  constructor
  · intro h k k' hk hk'
    obtain ⟨first, hfirst, hmax⟩ := exists_order_argmax hk
    obtain ⟨second, hsecond, hmax'⟩ := exists_order_argmax hk'
    have hsame := (h first hfirst).trans (h second hsecond).symm
    rw [hmax, hmax'] at hsame
    exact hsame
  · intro h m' hperm
    have hgreatest {k : κ} (hk : Greatest p measure m' k) : Greatest p measure m k :=
      ⟨(hperm.mem k).mp hk.mem, hk.passes, fun k' hk' => hk.le k' ((hperm.mem k').mpr hk')⟩
    cases hmax : (m.keys.filter p).argmax measure with
    | none =>
      have hnone : m'.keys.filter p = [] := by
        rw [List.argmax_eq_none, List.filter_eq_nil_iff] at hmax
        rw [List.filter_eq_nil_iff]
        intro k hk
        exact hmax k (AList.mem_keys.mp ((hperm.mem k).mp (AList.mem_keys.mpr hk)))
      rw [hnone, List.argmax_nil]
    | some k =>
      have hk : Greatest p measure m k := greatest_of_argmax hmax
      cases hmax' : (m'.keys.filter p).argmax measure with
      | none =>
        rw [List.argmax_eq_none, List.filter_eq_nil_iff] at hmax'
        exact absurd hk.passes (hmax' k (AList.mem_keys.mp ((hperm.mem k).mpr hk.mem)))
      | some k' => exact h k' k (hgreatest (greatest_of_argmax hmax')) hk

end Order

end UnorderedMap
end Capio.Library
