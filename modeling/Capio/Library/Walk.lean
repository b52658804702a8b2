import Capio.Library.UnorderedMap

/-! Loops given by one turn, and the loop that walks a hash set with an iterator while
its body erases elements of that set. -/
namespace Capio.Library

/-- What one turn of a loop does, or so many of them. -/
inductive Turn (σ ρ : Type) where
  | again (state : σ)
  | left (result : ρ)
  | failed

namespace Turn
variable {σ ρ ω : Type}

def ofOption : Option ρ → Turn σ ρ
  | some result => .left result
  | none => .failed

def map (f : ρ → ω) : Turn σ ρ → Turn σ ω
  | again s => .again s
  | left result => .left (f result)
  | failed => .failed

/-- The first turns of a loop, fewer when it ends before. -/
def loop (turn : σ → Turn σ ρ) : Nat → σ → Turn σ ρ
  | 0, s => .again s
  | n + 1, s =>
    match turn s with
    | .again s' => loop turn n s'
    | .left result => .left result
    | .failed => .failed

theorem map_ofOption (f : ρ → ω) (o : Option ρ) :
    (ofOption o : Turn σ ρ).map f = ofOption (o.map f) := by
  cases o <;> rfl

end Turn

variable {α σ : Type} [DecidableEq α]

namespace UnorderedSet

/-- `begin()`. An iterator stands at an element or, as `none`, at the end. -/
def first (elements : UnorderedSet α) : Option α := elements.keys.head?

/-- `*it++`: the element and the iterator past it. It is undefined for an iterator
that stands at no element of the set. -/
def next (elements : UnorderedSet α) (it : Option α) : Option (α × Option α) := do
  let a ← it
  if a ∈ elements then some (a, (elements.keys.dropWhile (· ≠ a)).tail.head?) else none

omit [DecidableEq α] in
private theorem notMem_passed {elements : UnorderedSet α} {a : α} {passed rest : List α}
    (h : elements.keys = passed ++ a :: rest) : a ∉ passed := by
  have hn : (passed ++ a :: rest).Nodup := h ▸ elements.keys_nodup
  exact (List.nodup_middle.mp hn).notMem ∘ List.mem_append_left rest

theorem next_eq {elements : UnorderedSet α} {a : α} {passed rest : List α}
    (h : elements.keys = passed ++ a :: rest) : elements.next (some a) = some (a, rest.head?) := by
  have hpassed : a ∉ passed := notMem_passed h
  have hmem : a ∈ elements := AList.mem_keys.mpr (by rw [h]; simp)
  have hdrop : (passed ++ a :: rest).dropWhile (· ≠ a) = a :: rest := by
    rw [List.dropWhile_append_of_pos (fun b hb => decide_eq_true (ne_of_mem_of_not_mem hb hpassed))]
    simp
  unfold next
  rw [Option.bind_eq_bind, Option.bind_some, if_pos hmem, h, hdrop, List.tail_cons]

end UnorderedSet

/-- A turn of `while (it != elements.end()) body(*it++)`, with the set looked up in
the state at every turn. -/
def walkTurn (elements : σ → Option (UnorderedSet α)) (body : σ → α → Option σ) :
    σ × Option α → Turn (σ × Option α) σ
  | (s, it) =>
    match elements s with
    | none => .failed
    | some set =>
      if it = none then .left s
      else
        match set.next it with
        | none => .failed
        | some (a, it) =>
          match body s a with
          | none => .failed
          | some s => .again (s, it)

section Walk
variable {elements : σ → Option (UnorderedSet α)} {body : σ → α → Option σ}

private theorem walk_rest
    (keeps : ∀ s a s' set, elements s = some set → body s a = some s' →
      elements s' = some set ∨ elements s' = some (set.erase a))
    (passed rest : List α) {s : σ} {set : UnorderedSet α} (hs : elements s = some set)
    (hkeys : set.keys = passed ++ rest) {turns : Nat} (h : rest.length < turns) :
    Turn.loop (walkTurn elements body) turns (s, rest.head?) = .ofOption (rest.foldlM body s) := by
  induction rest generalizing s set passed turns with
  | nil =>
    obtain ⟨n, rfl⟩ := Nat.exists_eq_succ_of_ne_zero (Nat.ne_of_gt h)
    simp [Turn.loop, walkTurn, hs, Turn.ofOption]
  | cons a rest ih =>
    obtain ⟨n, rfl⟩ := Nat.exists_eq_succ_of_ne_zero (Nat.ne_of_gt (Nat.zero_lt_of_lt h))
    have hn : rest.length < n := Nat.lt_of_succ_lt_succ h
    have hnext := UnorderedSet.next_eq hkeys
    rw [List.foldlM_cons]
    cases hbody : body s a with
    | none => simp [Turn.loop, walkTurn, hs, hnext, hbody, Turn.ofOption]
    | some s' =>
      have hturn : walkTurn elements body (s, some a) = .again (s', rest.head?) := by
        simp [walkTurn, hs, hnext, hbody]
      have hfirst : Turn.loop (walkTurn elements body) (n + 1) (s, some a) =
          Turn.loop (walkTurn elements body) n (s', rest.head?) := by
        rw [Turn.loop, hturn]
      rw [List.head?_cons, hfirst]
      -- the element the body was given is still behind the iterator, or it is gone
      rcases keeps s a s' set hs hbody with hsame | herased
      · exact ih (passed ++ [a]) hsame (by rw [hkeys, List.append_assoc]; rfl) hn
      · refine ih passed herased ?_ hn
        rw [AList.keys_erase, hkeys, List.erase_append_right _ (UnorderedSet.notMem_passed hkeys),
          List.erase_cons_head]

/-- A walk whose body takes away no element but the one it is given visits each element
that was there at first, once and in their order, and then ends. -/
theorem walk_eq (keeps : ∀ s a s' set, elements s = some set → body s a = some s' →
      elements s' = some set ∨ elements s' = some (set.erase a))
    {s : σ} {set : UnorderedSet α} (hs : elements s = some set) {turns : Nat}
    (h : set.keys.length < turns) :
    Turn.loop (walkTurn elements body) turns (s, set.first) = .ofOption (set.keys.foldlM body s) :=
  walk_rest keeps [] set.keys hs rfl h

end Walk
end Capio.Library
