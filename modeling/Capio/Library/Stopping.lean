import Capio.Library.Run

/-! Parties of a machine that stop for good, each at any point of a run. -/
namespace Capio.Library

structure Stopping (σ ι : Type) where
  state : σ
  stopped : ι → Bool

inductive StoppingAction (α ι : Type) where
  | act (a : α)
  | stop (i : ι)

namespace Stopping
variable {σ α ρ ι : Type} [DecidableEq ι] (machine : σ → α → Option (σ × ρ)) (party : α → ι)

/-- A party that has stopped takes no action any more, and the state stays as it was. -/
def step (s : Stopping σ ι) : StoppingAction α ι → Option (Stopping σ ι × Option ρ)
  | .act a => if s.stopped (party a) then none else (machine s.state a).map fun r => (⟨r.1, s.stopped⟩, some r.2)
  | .stop i => some (⟨s.state, Function.update s.stopped i true⟩, none)

abbrev Step : Stopping σ ι → Event (StoppingAction α ι) (Option ρ) → Stopping σ ι → Prop :=
  StepOf (step machine party)

abbrev Trace (σ α ρ ι : Type) := List (Transition (Stopping σ ι) (Event (StoppingAction α ι) (Option ρ)))

/-- The action of the machine in a transition. -/
def inner (x : Transition (Stopping σ ι) (Event (StoppingAction α ι) (Option ρ))) :
    Option (Transition σ (Event α ρ)) :=
  match x.label with
  | ⟨.act a, some r⟩ => some ⟨x.source.state, ⟨a, r⟩, x.target.state⟩
  | _ => none

variable {machine party} {s t : Stopping σ ι} {ts : Trace σ α ρ ι}

/-- Everything a step can do. -/
theorem step_cases {e : Event (StoppingAction α ι) (Option ρ)} (h : Step machine party s e t) :
    (∃ a r, e = ⟨.act a, some r⟩ ∧ s.stopped (party a) = false ∧ StepOf machine s.state ⟨a, r⟩ t.state ∧
      t.stopped = s.stopped) ∨
    (∃ i, e = ⟨.stop i, none⟩ ∧ t = ⟨s.state, Function.update s.stopped i true⟩) := by
  obtain ⟨action, sent⟩ := e
  cases action with
  | act a =>
    simp only [StepOf, step] at h
    split_ifs at h with hstopped
    obtain ⟨⟨u, r⟩, hr, he⟩ := Option.map_eq_some_iff.mp h
    cases he
    exact .inl ⟨a, r, rfl, Bool.eq_false_iff.mpr hstopped, hr, rfl⟩
  | stop i =>
    cases h
    exact .inr ⟨i, rfl, rfl⟩

/-- Without its stops, a run is one of the machine. -/
theorem run_inner (h : Run (Step machine party) s ts t) :
    Run (StepOf machine) s.state (ts.filterMap inner) t.state := by
  induction h with
  | nil => exact .nil
  | @snoc ts t e u _ hstep ih =>
    rw [List.filterMap_append]
    rcases step_cases hstep with ⟨a, r, rfl, _, hone, _⟩ | ⟨i, rfl, rfl⟩
    · exact ih.snoc hone
    · exact (List.append_nil _).symm ▸ ih

theorem stopped_step {e : Event (StoppingAction α ι) (Option ρ)} {i : ι} (h : Step machine party s e t)
    (hi : s.stopped i = true) : t.stopped i = true := by
  rcases step_cases h with ⟨_, _, _, _, _, hsame⟩ | ⟨j, _, rfl⟩
  · rw [hsame, hi]
  · dsimp only
    rw [Function.update_apply, hi]
    exact ite_self _

theorem stopped_run {i : ι} (h : Run (Step machine party) s ts t) (hi : s.stopped i = true) : t.stopped i = true :=
  h.invariant (fun u => u.stopped i = true) hi fun _ _ _ hu hstep => stopped_step hstep hu

section
variable {i : ι} {P Q : σ → Prop} {F : Transition σ (Event α ρ) → Prop}

/-- A step after a party has stopped is one of another party. -/
private theorem other_step {e : Event (StoppingAction α ι) (Option ρ)} (h : Step machine party s e t)
    (hi : s.stopped i = true) : s.state = t.state ∧ inner ⟨s, e, t⟩ = none ∨
    ∃ a, StepOf machine s.state a t.state ∧ party a.action ≠ i ∧ inner ⟨s, e, t⟩ = some ⟨s.state, a, t.state⟩ := by
  rcases step_cases h with ⟨a, r, rfl, hgoes, hone, _⟩ | ⟨j, rfl, rfl⟩
  · refine .inr ⟨⟨a, r⟩, hone, ?_, rfl⟩
    rintro rfl
    rw [hi] at hgoes
    cases hgoes
  · exact .inl ⟨rfl, rfl⟩

/-- What the other parties leave alone stays as the stopped one has left it, and they do
nothing that they do not do beside it. -/
theorem left_run (h : Run (Step machine party) s ts t) (hi : s.stopped i = true)
    (hp : ∀ ⦃u e v⦄, P u → StepOf machine u e v → P v)
    (hq : ∀ ⦃u e v⦄, P u → Q u → StepOf machine u e v → party e.action ≠ i → Q v ∧ F ⟨u, e, v⟩)
    (hps : P s.state) (hqs : Q s.state) : (P t.state ∧ Q t.state) ∧ ∀ x ∈ ts.filterMap inner, F x := by
  induction h with
  | nil => exact ⟨⟨hps, hqs⟩, fun _ hx => (List.not_mem_nil hx).elim⟩
  | @snoc ts t e u hrun hstep ih =>
    obtain ⟨⟨hpt, hqt⟩, hall⟩ := ih
    rw [List.filterMap_append]
    rcases other_step hstep (stopped_run hrun hi) with ⟨hsame, hnone⟩ | ⟨a, hone, hother, hsome⟩
    · refine ⟨hsame ▸ ⟨hpt, hqt⟩, fun x hx => ?_⟩
      rw [List.filterMap_cons_none hnone, List.filterMap_nil, List.append_nil] at hx
      exact hall x hx
    · obtain ⟨hqu, hf⟩ := hq hpt hqt hone hother
      refine ⟨⟨hp hpt hone, hqu⟩, fun x hx => ?_⟩
      rw [List.filterMap_cons_some hsome, List.filterMap_nil] at hx
      rcases List.mem_append.mp hx with hx | hx
      · exact hall x hx
      · obtain rfl := List.mem_singleton.mp hx
        exact hf

end

end Stopping
end Capio.Library
