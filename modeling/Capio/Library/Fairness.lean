import Capio.Library.Run
import Mathlib.Order.WellFounded

/-! Runs without an end, and what they reach when some steps are never put off for good. -/
namespace Capio.Library

variable {σ ι : Type*}

structure Unending (Step : σ → ι → σ → Prop) (s : σ) where
  state : Nat → σ
  label : Nat → ι
  starts : state 0 = s
  steps : ∀ n, Step (state n) (label n) (state (n + 1))

/-- The steps of one part of a system, in which the other parts take steps too. -/
def Stutters (Step : σ → ι → σ → Prop) (s : σ) (l : Option ι) (t : σ) : Prop :=
  match l with
  | some l => Step s l t
  | none => t = s

namespace Unending
variable {Step : σ → ι → σ → Prop} {s : σ} (r : Unending Step s)

def transition (n : Nat) : Transition σ ι := ⟨r.state n, r.label n, r.state (n + 1)⟩

def upTo (n : Nat) : List (Transition σ ι) := (List.range n).map r.transition

theorem run_upTo (n : Nat) : Run Step s (r.upTo n) (r.state n) := by
  induction n with
  | zero =>
    rw [r.starts]
    exact .nil
  | succ n ih =>
    unfold upTo at ih ⊢
    rw [List.range_succ, List.map_append]
    exact ih.snoc (r.steps n)

/-- A run without an end of a whole, as one of a part. -/
def view {τ κ : Type*} {Part : τ → κ → τ → Prop} (f : σ → τ) (g : Transition σ ι → Option κ)
    (h : ∀ n, Stutters Part (f (r.state n)) (g (r.transition n)) (f (r.state (n + 1)))) :
    Unending (Stutters Part) (f s) :=
  ⟨fun n => f (r.state n), fun n => g (r.transition n), by rw [r.starts], h⟩

/-- Steps of this kind come again and again. -/
def Fair (P : Transition σ ι → Prop) : Prop := ∀ n, ∃ m, n ≤ m ∧ P (r.transition m)

/-- A first step before a run. -/
def cons {l : ι} {t : σ} (h : Step t l s) : Unending Step t :=
  ⟨fun | 0 => t | n + 1 => r.state n, fun | 0 => l | n + 1 => r.label n, rfl, fun
    | 0 => by dsimp only; rw [r.starts]; exact h
    | n + 1 => r.steps n⟩

/-- A run with an end, and one without an end from where it has led. -/
theorem exists_after {u : σ} {ts : List (Transition σ ι)} (h : Run Step u ts s) :
    ∃ q : Unending Step u, (∀ n, q.transition (n + ts.length) = r.transition n) ∧ q.upTo ts.length = ts := by
  induction h with
  | nil => exact ⟨r, fun n => rfl, rfl⟩
  | @snoc ts t l s _ hstep ih =>
    obtain ⟨q, hq, hfirst⟩ := ih (r.cons hstep)
    refine ⟨q, fun n => ?_, ?_⟩
    · rw [List.length_append, List.length_singleton, Nat.add_comm ts.length 1, ← Nat.add_assoc, hq]
      rfl
    · have hlast : q.transition ts.length = ⟨t, l, r.state 0⟩ := by
        rw [← Nat.zero_add ts.length, hq 0]
        rfl
      rw [List.length_append, List.length_singleton, upTo, List.range_succ, List.map_append, List.map_singleton, hlast,
        r.starts]
      exact congrArg (· ++ _) hfirst

theorem forall_after {P : Transition σ ι → Prop} {ts : List (Transition σ ι)} (hts : r.upTo ts.length = ts)
    (hfirst : ∀ x ∈ ts, P x) (hlater : ∀ n, P (r.transition (n + ts.length))) (n : Nat) : P (r.transition n) := by
  by_cases hn : n < ts.length
  · refine hfirst _ ?_
    rw [← hts]
    exact List.mem_map_of_mem (List.mem_range.mpr hn)
  · obtain ⟨k, rfl⟩ := Nat.exists_eq_add_of_le' (not_lt.mp hn)
    exact hlater k

theorem fair_of_later {P : Transition σ ι → Prop} {k : Nat} (h : ∀ n, P (r.transition (n + k))) : r.Fair P :=
  fun n => ⟨n + k, Nat.le_add_right n k, h n⟩

/-- The steps that come again and again lower the rank, and no step raises it, until the goal is
reached. -/
theorem reaches {α : Type*} [Preorder α] [WellFoundedLT α] {P : Transition σ ι → Prop} (hfair : r.Fair P)
    (I : σ → Prop) (Goal : Nat → Prop) (rank : σ → α) {n : Nat} (hstart : I (r.state n))
    (hstep : ∀ m, n ≤ m → I (r.state m) → Goal m ∨ (I (r.state (m + 1)) ∧
      rank (r.state (m + 1)) ≤ rank (r.state m) ∧
      (P (r.transition m) → rank (r.state (m + 1)) < rank (r.state m)))) :
    ∃ m, n ≤ m ∧ Goal m := by
  by_contra hnever
  have hgoes (m : Nat) (hm : n ≤ m) (hi : I (r.state m)) :=
    (hstep m hm hi).resolve_left fun hgoal => hnever ⟨m, hm, hgoal⟩
  have hnone (a : α) : ∀ m, n ≤ m → I (r.state m) → rank (r.state m) = a → False := by
    induction a using WellFoundedLT.induction with
    | ind a ih =>
      rintro m hm hi rfl
      have hkeeps (k : Nat) (hmk : m ≤ k) : I (r.state k) ∧ rank (r.state k) ≤ rank (r.state m) := by
        induction k, hmk using Nat.le_induction with
        | base => exact ⟨hi, le_rfl⟩
        | succ k hmk ihk =>
          obtain ⟨hik, hle, _⟩ := hgoes k (hm.trans hmk) ihk.1
          exact ⟨hik, hle.trans ihk.2⟩
      obtain ⟨k, hmk, hk⟩ := hfair m
      obtain ⟨hik, hle⟩ := hkeeps k hmk
      obtain ⟨hik', _, hlower⟩ := hgoes k (hm.trans hmk) hik
      exact ih _ ((hlower hk).trans_le hle) (k + 1) (by omega) hik' rfl
  exact hnone _ n le_rfl hstart rfl

/-- A number that never rises, and falls again until it is zero, is zero in the end. -/
theorem settles (rank : σ → Nat) {n : Nat} (hle : ∀ m, n ≤ m → rank (r.state (m + 1)) ≤ rank (r.state m))
    (hfalls : ∀ m, n ≤ m → 0 < rank (r.state m) → ∃ k, m ≤ k ∧ rank (r.state (k + 1)) < rank (r.state k)) :
    ∃ m, n ≤ m ∧ ∀ k, m ≤ k → rank (r.state k) = 0 := by
  have hfair : r.Fair fun x => rank x.target < rank x.source ∨ rank x.source = 0 := by
    intro m
    rcases Nat.eq_zero_or_pos (rank (r.state (max n m))) with hzero | hpos
    · exact ⟨max n m, le_max_right n m, .inr hzero⟩
    · obtain ⟨k, hk, hlt⟩ := hfalls _ (le_max_left n m) hpos
      exact ⟨k, (le_max_right n m).trans hk, .inl hlt⟩
  obtain ⟨m, hm, hzero⟩ := r.reaches hfair (fun _ => True) (fun m => rank (r.state m) = 0) rank (n := n) trivial
    fun m hm _ => or_iff_not_imp_left.mpr fun hne => ⟨trivial, hle m hm, fun hp => hp.resolve_right hne⟩
  refine ⟨m, hm, fun k hk => ?_⟩
  induction k, hk using Nat.le_induction with
  | base => exact hzero
  | succ k hmk ih => exact Nat.le_zero.mp (ih ▸ hle k (hm.trans hmk))

/-- Where steps that keep an invariant never run out, there is a run without an end. -/
theorem exists_of (I : σ → Prop) (P : ι → Prop) (hgoes : ∀ s, I s → ∃ l t, P l ∧ Step s l t ∧ I t) (hs : I s) :
    ∃ r : Unending Step s, ∀ n, I (r.state n) ∧ P (r.label n) := by
  choose l t hl hstep hi using hgoes
  let next (s : Subtype I) : Subtype I := ⟨t s.1 s.2, hi s.1 s.2⟩
  let states (n : Nat) : Subtype I := next^[n] ⟨s, hs⟩
  have hsucc (n : Nat) : states (n + 1) = next (states n) := Function.iterate_succ_apply' next n _
  refine ⟨⟨fun n => (states n).1, fun n => l _ (states n).2, rfl, fun n => ?_⟩, fun n => ⟨(states n).2, hl _ _⟩⟩
  rw [hsucc]
  exact hstep _ _

end Unending
end Capio.Library
