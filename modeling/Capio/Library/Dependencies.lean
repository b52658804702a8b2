import Mathlib.Data.List.Basic
import Mathlib.Logic.Relation
import Mathlib.Order.WellFoundedSet

/-! A test that recurses through a dependency graph: a leaf decides by itself, every other node
holds when all its dependencies do, asked in order up to the first that does not. -/
namespace Capio.Library

variable {α : Type}

/-- One bound is enough for finitely many items. -/
theorem exists_common_bound {P : α → Nat → Prop} (hmono : ∀ a m n, m ≤ n → P a m → P a n) (items : List α)
    (h : ∀ item ∈ items, ∃ n, P item n) : ∃ n, ∀ item ∈ items, P item n := by
  induction items with
  | nil => exact ⟨0, fun _ h => absurd h List.not_mem_nil⟩
  | cons item items ih =>
    obtain ⟨⟨n₁, h₁⟩, hitems⟩ := List.forall_mem_cons.mp h
    obtain ⟨n₂, h₂⟩ := ih hitems
    refine ⟨max n₁ n₂, List.forall_mem_cons.mpr ⟨?_, fun x hx => ?_⟩⟩
    · exact hmono item n₁ _ (le_max_left _ _) h₁
    · exact hmono x n₂ _ (le_max_right _ _) (h₂ x hx)

/-- The conjunction of the answers, in order; `none` is an answer that does not come. -/
def allInOrder (ask : α → Option Bool) (items : List α) : Option Bool :=
  items.foldlM (fun holds item => if holds then ask item else some false) true

section Conjunction
variable {ask : α → Option Bool}

private theorem foldlM_false (items : List α) : items.foldlM
    (fun holds item => if holds then ask item else some false) false = some false := by
  induction items with
  | nil => rfl
  | cons item items ih => exact ih

theorem allInOrder_cons (item : α) (items : List α) : allInOrder ask (item :: items) =
    (ask item).bind (fun holds => if holds then allInOrder ask items else some false) := by
  unfold allInOrder
  rw [List.foldlM_cons]
  cases ask item with
  | none => rfl
  | some holds =>
    cases holds with
    | true => rfl
    | false => exact foldlM_false items

theorem allInOrder_eq_true_iff (items : List α) :
    allInOrder ask items = some true ↔ ∀ item ∈ items, ask item = some true := by
  induction items with
  | nil => exact iff_of_true rfl (fun _ h => absurd h List.not_mem_nil)
  | cons item items ih =>
    rw [allInOrder_cons, List.forall_mem_cons]
    cases ask item with
    | none => exact iff_of_false (fun h => nomatch h) (fun h => nomatch h.1)
    | some holds =>
      cases holds with
      | false => exact iff_of_false (fun h => nomatch h) (fun h => nomatch h.1)
      | true => exact ih.trans (and_iff_right rfl).symm

theorem allInOrder_ne_none (items : List α) (h : ∀ item ∈ items, ask item ≠ none) :
    allInOrder ask items ≠ none := by
  induction items with
  | nil => exact Option.some_ne_none true
  | cons item items ih =>
    obtain ⟨hitem, hitems⟩ := List.forall_mem_cons.mp h
    obtain ⟨holds, hask⟩ := Option.ne_none_iff_exists'.mp hitem
    rw [allInOrder_cons, hask, Option.bind_some]
    split_ifs
    · exact ih hitems
    · exact Option.some_ne_none false

theorem allInOrder_ne_false (items : List α) (h : ∀ item ∈ items, ask item ≠ some false) :
    allInOrder ask items ≠ some false := by
  induction items with
  | nil => simp [allInOrder]
  | cons item items ih =>
    obtain ⟨hitem, hitems⟩ := List.forall_mem_cons.mp h
    rw [allInOrder_cons]
    cases hask : ask item with
    | none => exact fun h => nomatch h
    | some holds =>
      cases holds with
      | false => exact absurd hask hitem
      | true => exact ih hitems

/-- Answers that come keep coming. -/
theorem allInOrder_mono {ask' : α → Option Bool} (items : List α)
    (h : ∀ item ∈ items, ∀ b, ask item = some b → ask' item = some b) {b : Bool}
    (hb : allInOrder ask items = some b) : allInOrder ask' items = some b := by
  induction items with
  | nil => exact hb
  | cons item items ih =>
    obtain ⟨hitem, hitems⟩ := List.forall_mem_cons.mp h
    rw [allInOrder_cons] at hb ⊢
    obtain ⟨holds, hask, hrest⟩ := Option.bind_eq_some_iff.mp hb
    rw [hitem holds hask, Option.bind_some]
    split_ifs at hrest ⊢
    · exact ih hitems hrest
    · exact hrest

end Conjunction

/-! ### Questions that change a state -/

section Turns
variable {σ : Type}

/-- The conjunction where each question may change the state in which the next is asked. -/
def allInTurn (ask : σ → α → Option (Bool × σ)) (s : σ) (items : List α) : Option (Bool × σ) :=
  items.foldlM (fun st item => if st.1 then ask st.2 item else some (false, st.2)) (true, s)

variable {ask ask' : σ → α → Option (Bool × σ)} {s t : σ} {holds : Bool}

private theorem foldlM_turn_false (items : List α) : items.foldlM
    (fun st item => if st.1 then ask st.2 item else some (false, st.2)) (false, s) = some (false, s) := by
  induction items with
  | nil => rfl
  | cons item items ih => exact ih

@[simp] theorem allInTurn_nil : allInTurn ask s [] = some (true, s) := rfl

theorem allInTurn_cons (item : α) (items : List α) : allInTurn ask s (item :: items) =
    (ask s item).bind (fun st => if st.1 then allInTurn ask st.2 items else some (false, st.2)) := by
  unfold allInTurn
  rw [List.foldlM_cons]
  cases ask s item with
  | none => rfl
  | some st =>
    obtain ⟨holds, t⟩ := st
    cases holds with
    | true => rfl
    | false => exact foldlM_turn_false items

/-- Answers that come keep coming. -/
theorem allInTurn_mono (h : ∀ s item r, ask s item = some r → ask' s item = some r) (items : List α)
    {r : Bool × σ} (hr : allInTurn ask s items = some r) : allInTurn ask' s items = some r := by
  induction items generalizing s with
  | nil => exact hr
  | cons item items ih =>
    rw [allInTurn_cons] at hr ⊢
    obtain ⟨st, hask, hrest⟩ := Option.bind_eq_some_iff.mp hr
    rw [h s item st hask, Option.bind_some]
    split_ifs at hrest ⊢
    · exact ih hrest
    · exact hrest

theorem allInTurn_congr {items : List α} (h : ∀ s, ∀ item ∈ items, ask s item = ask' s item) :
    allInTurn ask s items = allInTurn ask' s items := by
  induction items generalizing s with
  | nil => rfl
  | cons item items ih =>
    rw [allInTurn_cons, allInTurn_cons, h s item List.mem_cons_self]
    simp only [ih fun s item hitem => h s item (List.mem_cons_of_mem _ hitem)]

/-- What one question does to the state, all do. -/
theorem allInTurn_keeps {R : σ → σ → Prop} (hrefl : ∀ s, R s s) (htrans : ∀ s t u, R s t → R t u → R s u)
    (h : ∀ s item holds t, ask s item = some (holds, t) → R s t) (items : List α)
    (hr : allInTurn ask s items = some (holds, t)) : R s t := by
  induction items generalizing s with
  | nil =>
    cases hr
    exact hrefl _
  | cons item items ih =>
    rw [allInTurn_cons] at hr
    obtain ⟨⟨holds', s'⟩, hask, hrest⟩ := Option.bind_eq_some_iff.mp hr
    have hfirst := h s item holds' s' hask
    cases holds' with
    | true => exact htrans _ _ _ hfirst (ih hrest)
    | false =>
      cases hrest
      exact hfirst

theorem allInTurn_append (items items' : List α) : allInTurn ask s (items ++ items') = some (true, t) ↔
    ∃ u, allInTurn ask s items = some (true, u) ∧ allInTurn ask u items' = some (true, t) := by
  induction items generalizing s with
  | nil => simp
  | cons item items ih =>
    rw [List.cons_append, allInTurn_cons, allInTurn_cons]
    cases ask s item with
    | none => simp
    | some st =>
      obtain ⟨holds, s'⟩ := st
      cases holds with
      | true => exact ih
      | false => simp

/-- The question is answered so, whatever it does to the state, and leaves it in these bounds. -/
def Follows (I : σ → Prop) (answer : Option Bool) (result : Option (Bool × σ)) : Prop :=
  result.map Prod.fst = answer ∧ ∀ holds s, result = some (holds, s) → I s

theorem follows_some {I : σ → Prop} (h : I t) : Follows I (some holds) (some (holds, t)) := by
  refine ⟨rfl, fun _ _ he => ?_⟩
  cases he
  exact h

/-- Where the state does not matter to any question, it does not matter to all of them. -/
theorem allInTurn_follows {I : σ → Prop} {answer : α → Option Bool} (items : List α)
    (h : ∀ item ∈ items, ∀ s, I s → Follows I (answer item) (ask s item)) (hs : I s) :
    Follows I (allInOrder answer items) (allInTurn ask s items) := by
  induction items generalizing s with
  | nil => exact follows_some hs
  | cons item items ih =>
    obtain ⟨hitem, hitems⟩ := List.forall_mem_cons.mp h
    obtain ⟨hanswer, hkeeps⟩ := hitem s hs
    rw [allInTurn_cons, allInOrder_cons, ← hanswer]
    cases hask : ask s item with
    | none => exact ⟨rfl, fun _ _ he => nomatch he⟩
    | some st =>
      obtain ⟨holds, t⟩ := st
      have ht : I t := hkeeps holds t hask
      cases holds with
      | true => exact ih hitems ht
      | false => exact follows_some ht

end Turns

/-- The test with a bound on the depth of the recursion; `none` when it is exceeded. -/
def holdsWithin (leaf : α → Option Bool) (deps : α → List α) : Nat → α → Option Bool
  | 0, _ => none
  | depth + 1, node =>
    match leaf node with
    | some holds => some holds
    | none => allInOrder (holdsWithin leaf deps depth) (deps node)

section Recursion
variable {leaf : α → Option Bool} {deps : α → List α}

/-- The first node recurses into the second. -/
def Recurses (leaf : α → Option Bool) (deps : α → List α) (a b : α) : Prop :=
  leaf a = none ∧ b ∈ deps a

theorem holdsWithin_leaf {node : α} {holds : Bool} (h : leaf node = some holds) (depth : Nat) :
    holdsWithin leaf deps (depth + 1) node = some holds := by
  rw [holdsWithin, h]

theorem holdsWithin_node {node : α} (h : leaf node = none) (depth : Nat) :
    holdsWithin leaf deps (depth + 1) node =
      allInOrder (holdsWithin leaf deps depth) (deps node) := by
  rw [holdsWithin, h]

theorem holdsWithin_succ {depth : Nat} {node : α} {b : Bool}
    (h : holdsWithin leaf deps depth node = some b) :
    holdsWithin leaf deps (depth + 1) node = some b := by
  induction depth generalizing node b with
  | zero => cases h
  | succ depth ih =>
    cases hleaf : leaf node with
    | some holds =>
      rw [holdsWithin_leaf hleaf] at h ⊢
      exact h
    | none =>
      rw [holdsWithin_node hleaf] at h ⊢
      exact allInOrder_mono (deps node) (fun item _ b hb => ih hb) h

theorem holdsWithin_mono {depth depth' : Nat} (hle : depth ≤ depth') {node : α} {b : Bool}
    (h : holdsWithin leaf deps depth node = some b) :
    holdsWithin leaf deps depth' node = some b := by
  induction hle with
  | refl => exact h
  | step _ ih => exact holdsWithin_succ ih

theorem holdsWithin_of_wellFounded (h : WellFounded (fun b a => Recurses leaf deps a b))
    (node : α) : ∃ depth, holdsWithin leaf deps depth node ≠ none := by
  induction node using h.induction with
  | _ node ih =>
    cases hleaf : leaf node with
    | some holds =>
      refine ⟨1, ?_⟩
      rw [holdsWithin_leaf hleaf]
      exact Option.some_ne_none holds
    | none =>
      have hmono (a : α) (m n : Nat) (hle : m ≤ n) (h : holdsWithin leaf deps m a ≠ none) :
          holdsWithin leaf deps n a ≠ none := by
        obtain ⟨b, hb⟩ := Option.ne_none_iff_exists'.mp h
        rw [holdsWithin_mono hle hb]
        exact Option.some_ne_none b
      obtain ⟨depth, hdepth⟩ := exists_common_bound hmono (deps node) fun b hb => ih b ⟨hleaf, hb⟩
      refine ⟨depth + 1, ?_⟩
      rw [holdsWithin_node hleaf]
      exact allInOrder_ne_none (deps node) hdepth

/-- Where no leaf says no, no conjunction ends early. -/
private theorem holdsWithin_ne_false (hleaf : ∀ node, leaf node ≠ some false) (depth : Nat)
    (node : α) : holdsWithin leaf deps depth node ≠ some false := by
  induction depth generalizing node with
  | zero => exact fun h => nomatch h
  | succ depth ih =>
    cases hnode : leaf node with
    | some holds =>
      rw [holdsWithin_leaf hnode, ← hnode]
      exact hleaf node
    | none =>
      rw [holdsWithin_node hnode]
      exact allInOrder_ne_false (deps node) fun item _ => ih item

/-- On a cycle the recursion exceeds every depth. -/
theorem holdsWithin_of_cycle (hleaf : ∀ node, leaf node ≠ some false) {node : α}
    (hcycle : Relation.TransGen (Recurses leaf deps) node node) (depth : Nat) :
    holdsWithin leaf deps depth node = none := by
  induction depth generalizing node with
  | zero => rfl
  | succ depth ih =>
    obtain ⟨next, hstep, hrest⟩ := Relation.TransGen.head'_iff.mp hcycle
    have hnext := ih (Relation.TransGen.tail' hrest hstep)
    cases hanswer : holdsWithin leaf deps (depth + 1) node with
    | none => rfl
    | some holds =>
      cases holds with
      | false => exact absurd hanswer (holdsWithin_ne_false hleaf _ _)
      | true =>
        rw [holdsWithin_node hstep.1, allInOrder_eq_true_iff] at hanswer
        rw [hanswer next hstep.2] at hnext
        cases hnext

/-! ### The answer as a condition on what is reached -/

/-- A node on which the answer for the first one rests. -/
abbrev RestsOn (leaf : α → Option Bool) (deps : α → List α) : α → α → Prop :=
  Relation.ReflTransGen (Recurses leaf deps)

theorem restsOn_leaf {node a : α} {holds : Bool} (h : leaf node = some holds) :
    RestsOn leaf deps node a ↔ a = node := by
  constructor
  · intro hrests
    rcases hrests.cases_head with rfl | ⟨b, hstep, _⟩
    · rfl
    · rw [hstep.1] at h
      cases h
  · rintro rfl
    exact .refl

theorem holdsWithin_true {depth : Nat} {node a : α} (h : holdsWithin leaf deps depth node = some true)
    (hrests : RestsOn leaf deps node a) : leaf a ≠ some false := by
  induction depth generalizing node with
  | zero => cases h
  | succ depth ih =>
    cases hleaf : leaf node with
    | some holds =>
      rw [holdsWithin_leaf hleaf, Option.some.injEq] at h
      rw [(restsOn_leaf hleaf).mp hrests, hleaf, h]
      exact fun h => nomatch h
    | none =>
      rw [holdsWithin_node hleaf, allInOrder_eq_true_iff] at h
      rcases hrests.cases_head with rfl | ⟨b, hstep, hrest⟩
      · rw [hleaf]
        exact fun h => nomatch h
      · exact ih (h b hstep.2) hrest

theorem holdsWithin_false {depth : Nat} {node : α} (h : holdsWithin leaf deps depth node = some false) :
    ∃ a, RestsOn leaf deps node a ∧ leaf a = some false := by
  induction depth generalizing node with
  | zero => cases h
  | succ depth ih =>
    cases hleaf : leaf node with
    | some holds =>
      rw [holdsWithin_leaf hleaf, Option.some.injEq] at h
      exact ⟨node, .refl, h ▸ hleaf⟩
    | none =>
      rw [holdsWithin_node hleaf] at h
      by_contra hnone
      refine allInOrder_ne_false (deps node) (fun item hitem hfalse => hnone ?_) h
      obtain ⟨a, hrests, ha⟩ := ih hfalse
      exact ⟨a, .head ⟨hleaf, hitem⟩ hrests, ha⟩

/-- An answer that comes is yes exactly when no leaf it rests on says no. -/
theorem holdsWithin_eq_true_iff {depth : Nat} {node : α} (h : holdsWithin leaf deps depth node ≠ none) :
    holdsWithin leaf deps depth node = some true ↔
      ∀ a, RestsOn leaf deps node a → leaf a ≠ some false := by
  refine ⟨fun htrue a => holdsWithin_true htrue, fun hall => ?_⟩
  obtain ⟨holds, hholds⟩ := Option.ne_none_iff_exists'.mp h
  cases holds with
  | true => exact hholds
  | false =>
    obtain ⟨a, hrests, hfalse⟩ := holdsWithin_false hholds
    exact absurd hfalse (hall a hrests)

/-! ### How deep the recursion goes -/

/-- A depth that is not enough is used up by a chain of nodes that recurse. -/
private theorem exists_chain {depth : Nat} {node : α} (h : holdsWithin leaf deps depth node = none) :
    ∃ chain : List α, chain.length = depth ∧ (∀ a ∈ chain, leaf a = none) ∧
      chain.Pairwise (Relation.TransGen (Recurses leaf deps)) ∧
      ∀ a ∈ chain, RestsOn leaf deps node a := by
  induction depth generalizing node with
  | zero => exact ⟨[], rfl, by simp, .nil, by simp⟩
  | succ depth ih =>
    cases hleaf : leaf node with
    | some holds =>
      rw [holdsWithin_leaf hleaf] at h
      cases h
    | none =>
      rw [holdsWithin_node hleaf] at h
      obtain ⟨item, hitem, hnone⟩ : ∃ item ∈ deps node, holdsWithin leaf deps depth item = none := by
        by_contra hall
        exact allInOrder_ne_none (deps node) (fun item hitem hnone => hall ⟨item, hitem, hnone⟩) h
      obtain ⟨chain, hlength, hinner, hpairwise, hrests⟩ := ih hnone
      have hstep : Recurses leaf deps node item := ⟨hleaf, hitem⟩
      refine ⟨node :: chain, by simp [hlength], ?_, ?_, ?_⟩
      · exact List.forall_mem_cons.mpr ⟨hleaf, hinner⟩
      · exact .cons (fun a ha => Relation.TransGen.head' hstep (hrests a ha)) hpairwise
      · exact List.forall_mem_cons.mpr ⟨.refl, fun a ha => .head hstep (hrests a ha)⟩

/-- Away from cycles the recursion goes no deeper than there are nodes that recurse. -/
theorem holdsWithin_ne_none {nodes : List α} (hnodes : ∀ a, leaf a = none → a ∈ nodes) {node : α}
    (hacyclic : ∀ a, RestsOn leaf deps node a → ¬ Relation.TransGen (Recurses leaf deps) a a) :
    holdsWithin leaf deps (nodes.length + 1) node ≠ none := by
  intro h
  obtain ⟨chain, hlength, hinner, hpairwise, hrests⟩ := exists_chain h
  have hnodup : chain.Nodup := by
    refine hpairwise.imp_of_mem fun {a b} ha _ hab => ?_
    rintro rfl
    exact hacyclic a (hrests a ha) hab
  have hle := (hnodup.subperm fun a ha => hnodes a (hinner a ha)).length_le
  omega

end Recursion

/-- A relation without cycles that starts from finitely many nodes is well founded. -/
theorem wellFounded_of_acyclic {Dep : α → α → Prop} {sources : Set α} (hfinite : sources.Finite)
    (hsource : ∀ a b, Dep a b → a ∈ sources) (hacyclic : ∀ a, ¬ Relation.TransGen Dep a a) :
    WellFounded (fun b a => Dep a b) := by
  have hstrict : IsStrictOrder α (fun b a => Relation.TransGen Dep a b) :=
    { irrefl := hacyclic
      trans := fun _ _ _ hab hbc => hbc.trans hab }
  have hon : sources.WellFoundedOn (fun b a => Relation.TransGen Dep a b) := hfinite.wellFoundedOn
  have hacc : ∀ a ∈ sources, Acc (fun b a => Dep a b) a := by
    intro a ha
    refine hon.induction ha fun a ha ih => Acc.intro a fun b hb => ?_
    by_cases hbs : b ∈ sources
    · exact ih b hbs (.single hb)
    · exact Acc.intro b fun c hc => absurd (hsource b c hc) hbs
  refine ⟨fun a => Acc.intro a fun b hb => ?_⟩
  by_cases hbs : b ∈ sources
  · exact hacc b hbs
  · exact Acc.intro b fun c hc => absurd (hsource b c hc) hbs

end Capio.Library
