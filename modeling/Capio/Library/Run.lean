import Mathlib.Data.List.Induction

/-! Finite runs of a labelled step relation, and the rules that lift facts
about one step to facts about every transition and state of a run. -/
namespace Capio.Library

variable {σ ι : Type*}

/-- One executed step with the states on both sides of it. -/
structure Transition (σ ι : Type*) where
  source : σ
  label : ι
  target : σ

/-- The transitions `ts` lead from `s` to the last index, oldest first. -/
inductive Run (Step : σ → ι → σ → Prop) (s : σ) : List (Transition σ ι) → σ → Prop
  | nil : Run Step s [] s
  | snoc {ts : List (Transition σ ι)} {t : σ} {l : ι} {u : σ} :
      Run Step s ts t → Step t l u → Run Step s (ts ++ [⟨t, l, u⟩]) u

namespace Run
variable {Step : σ → ι → σ → Prop} {s t u : σ} {ts us : List (Transition σ ι)}

theorem single {l : ι} (h : Step s l t) : Run Step s [⟨s, l, t⟩] t := by
  simpa using Run.snoc (.nil : Run Step s [] s) h

theorem append (h : Run Step s ts t) (k : Run Step t us u) : Run Step s (ts ++ us) u := by
  induction k with
  | nil => simpa using h
  | snoc _ hstep ih => simpa [List.append_assoc] using ih.snoc hstep

theorem cons {l : ι} (h : Step s l t) (k : Run Step t ts u) : Run Step s (⟨s, l, t⟩ :: ts) u :=
  (single h).append k

/-- An invariant kept by the steps that meet `C` holds wherever a run of such
steps ends. -/
theorem invariant_of (C : Transition σ ι → Prop) (I : σ → Prop) (h0 : I s)
    (keep : ∀ t l u, I t → Step t l u → C ⟨t, l, u⟩ → I u)
    (h : Run Step s ts t) (hc : ∀ x ∈ ts, C x) : I t := by
  induction h with
  | nil => exact h0
  | snoc _ hstep ih =>
    have hpre := ih (fun x hx => hc x (List.mem_append_left _ hx))
    exact keep _ _ _ hpre hstep (hc _ (by simp))

theorem invariant (I : σ → Prop) (h0 : I s) (keep : ∀ t l u, I t → Step t l u → I u)
    (h : Run Step s ts t) : I t :=
  h.invariant_of (fun _ => True) I h0 (fun t l u hi hs _ => keep t l u hi hs) (fun _ _ => trivial)

/-- The rule for an invariant of the state and of the transitions that have led to it. -/
theorem history_of (C : Transition σ ι → Prop) (I : List (Transition σ ι) → σ → Prop) (h0 : I [] s)
    (keep : ∀ ts t l u, Run Step s ts t → (∀ x ∈ ts, C x) → I ts t → Step t l u → C ⟨t, l, u⟩ →
      I (ts ++ [⟨t, l, u⟩]) u)
    (h : Run Step s ts t) (hc : ∀ x ∈ ts, C x) : I ts t := by
  induction h with
  | nil => exact h0
  | snoc hrun hstep ih =>
    obtain ⟨hpre, hlast⟩ := List.forall_mem_append.mp hc
    exact keep _ _ _ _ hrun hpre (ih hpre) hstep (hlast _ (List.mem_singleton.mpr rfl))

/-- Every transition of a run is a step, taken from a state that an initial part
of the run reaches. -/
theorem source_reached (h : Run Step s ts t) {x : Transition σ ι} (hx : x ∈ ts) :
    ∃ pre post, ts = pre ++ x :: post ∧ Run Step s pre x.source ∧ Step x.source x.label x.target ∧
      Run Step x.target post t := by
  induction h with
  | nil => simp at hx
  | @snoc ts t l u hrun hstep ih =>
    rcases List.mem_append.mp hx with hx | hx
    · obtain ⟨pre, post, rfl, hpre, hs, hpost⟩ := ih hx
      exact ⟨pre, post ++ [⟨t, l, u⟩], by simp, hpre, hs, hpost.snoc hstep⟩
    · obtain rfl := List.mem_singleton.mp hx
      exact ⟨ts, [], rfl, hrun, hstep, .nil⟩

private theorem snoc_inv {x : Transition σ ι} (h : Run Step s (ts ++ [x]) t) :
    Run Step s ts x.source ∧ Step x.source x.label x.target := by
  generalize hts : ts ++ [x] = us at h
  cases h with
  | nil => simp at hts
  | snoc hrun hstep =>
    obtain ⟨rfl, he⟩ := List.append_inj' hts rfl
    cases he
    exact ⟨hrun, hstep⟩

/-- The part of a run before one of its transitions leads to where that starts. -/
theorem before {pre post : List (Transition σ ι)} {x : Transition σ ι}
    (h : Run Step s (pre ++ x :: post) t) : Run Step s pre x.source ∧ Step x.source x.label x.target := by
  induction post using List.reverseRecOn generalizing t with
  | nil => exact snoc_inv h
  | append_singleton post y ih =>
    rw [← List.cons_append, ← List.append_assoc] at h
    exact ih (snoc_inv h).1

/-- A fact that every conforming step has on states with the invariant is a fact
of every transition of a conforming run. -/
theorem forall_of (C : Transition σ ι → Prop) (I : σ → Prop) (P : Transition σ ι → Prop) (h0 : I s)
    (keep : ∀ t l u, I t → Step t l u → C ⟨t, l, u⟩ → I u)
    (fact : ∀ t l u, I t → Step t l u → C ⟨t, l, u⟩ → P ⟨t, l, u⟩)
    (h : Run Step s ts t) (hc : ∀ x ∈ ts, C x) : ∀ x ∈ ts, P x := by
  intro x hx
  obtain ⟨pre, post, rfl, hpre, hstep, _⟩ := h.source_reached hx
  have hi := hpre.invariant_of C I h0 keep (fun y hy => hc y (by simp [hy]))
  exact fact _ _ _ hi hstep (hc x (by simp))

/-- Where each step reaches a good state just when it meets a condition, a run has
only good states just when all its steps meet it. -/
theorem forall_target_iff (I Q : σ → Prop) (C : Transition σ ι → Prop) (h0 : I s)
    (exact : ∀ t l u, I t → Step t l u → (Q u ↔ C ⟨t, l, u⟩))
    (keep : ∀ t l u, I t → Step t l u → Q u → I u) (h : Run Step s ts t) :
    ((∀ x ∈ ts, Q x.target) ↔ ∀ x ∈ ts, C x) ∧ ((∀ x ∈ ts, Q x.target) → I t) := by
  induction h with
  | nil => exact ⟨by simp, fun _ => h0⟩
  | @snoc ts t l u _ hstep ih =>
    obtain ⟨hiff, hi⟩ := ih
    simp only [List.forall_mem_append, List.forall_mem_singleton]
    refine ⟨?_, fun ⟨hall, hlast⟩ => keep t l u (hi hall) hstep hlast⟩
    constructor
    · rintro ⟨hall, hlast⟩
      exact ⟨hiff.mp hall, (exact t l u (hi hall) hstep).mp hlast⟩
    · rintro ⟨hall, hlast⟩
      exact ⟨hiff.mpr hall, (exact t l u (hi (hiff.mpr hall)) hstep).mpr hlast⟩

/-- Where runs are bounded in length and only a good state can be without a step, a
run leads to a good state. -/
theorem exists_end (P : σ → Prop) {bound : Nat} (bounded : ∀ ts t, Run Step s ts t → ts.length ≤ bound)
    (goesOn : ∀ ts t, Run Step s ts t → P t ∨ ∃ l u, Step t l u) : ∃ ts t, Run Step s ts t ∧ P t := by
  by_contra hnone
  have hlong (n : Nat) : ∃ ts t, Run Step s ts t ∧ ts.length = n := by
    induction n with
    | zero => exact ⟨[], s, .nil, rfl⟩
    | succ n ih =>
      obtain ⟨ts, t, hrun, hn⟩ := ih
      rcases goesOn ts t hrun with hp | ⟨l, u, hstep⟩
      · exact absurd ⟨ts, t, hrun, hp⟩ hnone
      · exact ⟨_, u, hrun.snoc hstep, by rw [List.length_append, hn, List.length_singleton]⟩
  obtain ⟨ts, t, hrun, hn⟩ := hlong (bound + 1)
  have hle := bounded ts t hrun
  omega

/-- By the order of the transitions, something held at first or was made, and was
not lost since. -/
inductive Since (init : Prop) (Makes Loses : Transition σ ι → Prop) : List (Transition σ ι) → Prop
  | initial : init → Since init Makes Loses []
  | made {ts : List (Transition σ ι)} {x : Transition σ ι} : Makes x → Since init Makes Loses (ts ++ [x])
  | kept {ts : List (Transition σ ι)} {x : Transition σ ι} :
      Since init Makes Loses ts → ¬ Loses x → Since init Makes Loses (ts ++ [x])

theorem since_nil {init : Prop} {Makes Loses : Transition σ ι → Prop} :
    Since init Makes Loses [] ↔ init := by
  constructor
  · intro h
    generalize hts : ([] : List (Transition σ ι)) = ts at h
    cases h with
    | initial hi => exact hi
    | made _ => simp at hts
    | kept _ _ => simp at hts
  · exact .initial

theorem since_snoc {init : Prop} {Makes Loses : Transition σ ι → Prop} {x : Transition σ ι} :
    Since init Makes Loses (ts ++ [x]) ↔ Makes x ∨ Since init Makes Loses ts ∧ ¬ Loses x := by
  constructor
  · intro h
    generalize hts : ts ++ [x] = us at h
    cases h with
    | initial _ => simp at hts
    | made hm =>
      obtain ⟨_, he⟩ := List.append_inj' hts rfl
      cases he
      exact .inl hm
    | kept hs hl =>
      obtain ⟨rfl, he⟩ := List.append_inj' hts rfl
      cases he
      exact .inr ⟨hs, hl⟩
  · rintro (hm | ⟨hs, hl⟩)
    · exact .made hm
    · exact .kept hs hl

/-- What did not hold at first was made. -/
theorem Since.exists_made {Makes Loses : Transition σ ι → Prop} (h : Since False Makes Loses ts) :
    ∃ x ∈ ts, Makes x := by
  induction h with
  | initial hi => exact hi.elim
  | made hm => exact ⟨_, by simp, hm⟩
  | kept _ _ ih =>
    obtain ⟨x, hx, hm⟩ := ih
    exact ⟨x, List.mem_append_left _ hx, hm⟩

/-- A property of states that the steps make and lose in these ways is told by the
order of the transitions alone. -/
theorem since_iff (Q : σ → Prop) (Makes Loses : Transition σ ι → Prop)
    (step : ∀ t l u, Step t l u → (Q u ↔ Makes ⟨t, l, u⟩ ∨ Q t ∧ ¬ Loses ⟨t, l, u⟩))
    (h : Run Step s ts t) : Q t ↔ Since (Q s) Makes Loses ts := by
  induction h with
  | nil => exact since_nil.symm
  | snoc _ hstep ih => rw [step _ _ _ hstep, ih, since_snoc]

/-- Once true, a property kept by the later steps is true where they end. -/
theorem persists (Q : σ → Prop) (hq : Q s) (h : Run Step s ts t)
    (keep : ∀ x ∈ ts, Q x.source → Q x.target) : Q t := by
  induction h with
  | nil => exact hq
  | @snoc ts t l u _ _ ih =>
    have hpre := ih (fun x hx => keep x (List.mem_append_left _ hx))
    exact keep ⟨t, l, u⟩ (by simp) hpre

end Run

/-- What a step did and what it sent. -/
structure Event (α ρ : Type*) where
  action : α
  replies : ρ

section
variable {σ α ρ : Type}

/-- The step relation of a machine that refuses an action or takes it in one way. -/
def StepOf (step : σ → α → Option (σ × ρ)) (s : σ) (e : Event α ρ) (t : σ) : Prop :=
  step s e.action = some (t, e.replies)

/-- Takes the actions one after the other, if each is enabled. -/
def execute (step : σ → α → Option (σ × ρ)) (s : σ) :
    List α → Option (List (Transition σ (Event α ρ)) × σ)
  | [] => some ([], s)
  | a :: actions => do
    let (t, replies) ← step s a
    let (ts, u) ← execute step t actions
    some (⟨s, ⟨a, replies⟩, t⟩ :: ts, u)

theorem execute_run {step : σ → α → Option (σ × ρ)} {s u : σ} {actions : List α}
    {ts : List (Transition σ (Event α ρ))} (h : execute step s actions = some (ts, u)) :
    Run (StepOf step) s ts u ∧ ts.map (fun x => x.label.action) = actions := by
  induction actions generalizing s ts with
  | nil =>
    cases h
    exact ⟨.nil, rfl⟩
  | cons a actions ih =>
    obtain ⟨⟨t, replies⟩, hstep, h⟩ := Option.bind_eq_some_iff.mp h
    obtain ⟨⟨rest, v⟩, hrest, h⟩ := Option.bind_eq_some_iff.mp h
    cases h
    obtain ⟨hrun, hactions⟩ := ih hrest
    exact ⟨.cons hstep hrun, by rw [List.map_cons, hactions]⟩

/-- A run found by executing actions, with a fact evaluated on it. -/
theorem execute_any (step : σ → α → Option (σ × ρ)) (s : σ) (actions : List α)
    (P : List (Transition σ (Event α ρ)) → σ → Bool)
    (h : (execute step s actions).any (fun r => P r.1 r.2) = true) :
    ∃ ts u, Run (StepOf step) s ts u ∧ ts.map (fun x => x.label.action) = actions ∧ P ts u = true := by
  obtain ⟨⟨ts, u⟩, he, hp⟩ := (Option.any_eq_true _ _).mp h
  obtain ⟨hrun, hactions⟩ := execute_run he
  exact ⟨ts, u, hrun, hactions, hp⟩

end
end Capio.Library
