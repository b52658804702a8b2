import Mathlib.Data.List.Induction

/-! Scripts: a list of instructions run from left to right by a step function that may fail. The
first instruction that fails ends the run. -/
namespace Capio.Library

variable {σ υ ε : Type} {step : σ → υ → Except ε σ} {s t : σ} {us vs : List υ} {u : υ} {e : ε}

def runScript (step : σ → υ → Except ε σ) (us : List υ) (s : σ) : Except ε σ := us.foldlM step s

theorem runScript_append (us vs : List υ) (s : σ) :
    runScript step (us ++ vs) s = (runScript step us s).bind (runScript step vs) :=
  List.foldlM_append

theorem runScript_append_ok_iff : runScript step (us ++ vs) s = .ok t ↔
    ∃ m, runScript step us s = .ok m ∧ runScript step vs m = .ok t := by
  rw [runScript_append]
  cases runScript step us s with
  | error e => simp [Except.bind]
  | ok m => simp [Except.bind]

theorem runScript_cons_ok_iff : runScript step (u :: us) s = .ok t ↔
    ∃ m, step s u = .ok m ∧ runScript step us m = .ok t := by
  change (step s u).bind (runScript step us) = .ok t ↔ _
  cases step s u with
  | error e => simp [Except.bind]
  | ok m => simp [Except.bind]

theorem runScript_singleton (u : υ) (s : σ) : runScript step [u] s = step s u := by
  change (step s u).bind (fun m => .ok m) = step s u
  cases step s u with
  | error e => rfl
  | ok m => rfl

theorem runScript_flatMap {α : Type} (toScript : α → List υ) (items : List α) (s : σ) :
    runScript step (items.flatMap toScript) s =
      items.foldlM (fun s item => runScript step (toScript item) s) s := by
  induction items generalizing s with
  | nil => rfl
  | cons item items ih =>
    rw [List.flatMap_cons, runScript_append, List.foldlM_cons]
    cases runScript step (toScript item) s with
    | error e => rfl
    | ok t => exact ih t

/-- What every successful instruction keeps holds after a successful run, of the instructions
executed so far. -/
theorem runScript_invariant (I : List υ → σ → Prop) (h0 : I [] s)
    (keep : ∀ before m u m', I before m → step m u = .ok m' → I (before ++ [u]) m')
    (h : runScript step us s = .ok t) : I us t := by
  induction us using List.reverseRecOn generalizing t with
  | nil =>
    have hst : s = t := Except.ok.inj h
    exact hst ▸ h0
  | append_singleton us u ih =>
    obtain ⟨m, hm, hu⟩ := runScript_append_ok_iff.mp h
    rw [runScript_singleton] at hu
    exact keep us m u t (ih hm) hu

/-- A run fails at its first failing instruction. -/
theorem runScript_error_iff : runScript step us s = .error e ↔
    ∃ before u after m, us = before ++ u :: after ∧ runScript step before s = .ok m ∧
      step m u = .error e := by
  constructor
  · intro h
    induction us using List.reverseRecOn with
    | nil => cases h
    | append_singleton us u ih =>
      rw [runScript_append] at h
      cases hm : runScript step us s with
      | error e' =>
        rw [hm] at h
        obtain ⟨before, v, after, m, rfl, hbefore, hv⟩ := ih (hm.trans h)
        exact ⟨before, v, after ++ [u], m, by simp, hbefore, hv⟩
      | ok m =>
        rw [hm] at h
        exact ⟨us, u, [], m, rfl, hm, (runScript_singleton u m).symm.trans h⟩
  · rintro ⟨before, u, after, m, rfl, hbefore, hu⟩
    rw [runScript_append, hbefore]
    change (step m u).bind (runScript step after) = .error e
    rw [hu]
    rfl

end Capio.Library
