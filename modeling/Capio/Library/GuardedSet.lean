import Mathlib.Data.Finset.Basic
import Mathlib.Logic.Function.Basic

/-! A set behind a mutex. Threads put elements into it and notify the others, and a thread that waits
for an element sleeps on a condition variable until the element is there. A sleeper can wake up for
no reason. -/
namespace Capio.Library

/-- What a thread does under the mutex. -/
inductive Errand (κ : Type*) where
  | put (k : κ)
  | remove (k : κ)
  | look (k : κ)

/-- Where a thread stands. It has the mutex while it is on its errand, while it tests whether its element
is there and when it has found it. -/
inductive Station (κ : Type*) where
  | away
  | heads (e : Errand κ)
  | within (e : Errand κ)
  | notifies (k : κ)
  | arrives (k : κ)
  | tests (k : κ)
  | sleeps (k : κ)
  | passes (k : κ)

namespace Station
variable {κ : Type*}

def Holds : Station κ → Prop
  | within _ | tests _ | passes _ => True
  | _ => False

def Notifies : Station κ → Prop
  | notifies _ => True
  | _ => False

/-- A thread that is woken. -/
def woken : Station κ → Station κ
  | sleeps k => arrives k
  | s => s

@[simp] theorem woken_holds (s : Station κ) : s.woken.Holds ↔ s.Holds := by cases s <;> rfl

theorem not_sleeps_woken {s : Station κ} {k : κ} : s.woken ≠ sleeps k := by
  cases s <;> exact nofun

end Station

structure GuardedSet (ι κ : Type*) where
  holder : Option ι
  items : Finset κ
  station : ι → Station κ

/-- A move of one thread. -/
inductive SetMove (κ : Type*) where
  | starts (e : Errand κ)
  | comes (k : κ)
  | lock
  | act
  | notify
  | test
  | unlock
  | wake

/-- A move by which a thread comes to the set. -/
def SetMove.Begins {κ : Type*} : SetMove κ → Prop
  | starts _ | comes _ => True
  | _ => False

/-- A move by which a thread gets on with its business in the set. -/
def SetMove.Forward {κ : Type*} : SetMove κ → Prop
  | lock | act | notify | test | unlock => True
  | _ => False

namespace GuardedSet
variable {ι κ : Type*} [DecidableEq ι] [DecidableEq κ]

def place (g : GuardedSet ι κ) (i : ι) (s : Station κ) : GuardedSet ι κ :=
  { g with station := Function.update g.station i s }

/-- A thread gives the mutex back. -/
def leave (g : GuardedSet ι κ) (i : ι) (s : Station κ) : GuardedSet ι κ := { g.place i s with holder := none }

/-- A move, and whether the element that the thread looks for is there. -/
def step (g : GuardedSet ι κ) (i : ι) : SetMove κ → Option (GuardedSet ι κ × Bool)
  | .starts e =>
    match g.station i with
    | .away => some (g.place i (.heads e), false)
    | _ => none
  | .comes k =>
    match g.station i with
    | .away => some (g.place i (.arrives k), false)
    | _ => none
  | .lock =>
    match g.holder, g.station i with
    | none, .heads e => some ({ g.place i (.within e) with holder := some i }, false)
    | none, .arrives k => some ({ g.place i (.tests k) with holder := some i }, false)
    | _, _ => none
  | .act =>
    match g.station i with
    | .within (.put k) => some ({ g.leave i (.notifies k) with items := insert k g.items }, false)
    | .within (.remove k) => some ({ g.leave i .away with items := g.items.erase k }, false)
    | .within (.look k) => some (g.leave i .away, decide (k ∈ g.items))
    | _ => none
  | .notify =>
    match g.station i with
    | .notifies _ => some ({ g with station := Function.update (fun j => (g.station j).woken) i .away }, false)
    | _ => none
  | .test =>
    match g.station i with
    | .tests k => some (if k ∈ g.items then g.place i (.passes k) else g.leave i (.sleeps k), decide (k ∈ g.items))
    | _ => none
  | .unlock =>
    match g.station i with
    | .passes _ => some (g.leave i .away, true)
    | _ => none
  | .wake =>
    match g.station i with
    | .sleeps k => some (g.place i (.arrives k), false)
    | _ => none

/-- One thread has the mutex, who has found an element finds it still, and for who sleeps although
the element is there another thread is about to notify. -/
structure Sound (g : GuardedSet ι κ) : Prop where
  mutex : ∀ i, (g.station i).Holds ↔ g.holder = some i
  found : ∀ i k, g.station i = .passes k → k ∈ g.items
  noticed : ∀ i k, g.station i = .sleeps k → k ∈ g.items → ∃ j, g.station j = .notifies k

variable {g g' : GuardedSet ι κ} {i j : ι} {m : SetMove κ} {found : Bool}

/-- What a move of a thread changes. -/
inductive Moves (g : GuardedSet ι κ) (i : ι) : GuardedSet ι κ → Prop
  | outside {s : Station κ} (hold : ¬ (g.station i).Holds) (hs : ¬ s.Holds) (hn : ∀ k, g.station i ≠ .notifies k)
    (hsleep : ∀ k, s ≠ .sleeps k) : Moves g i (g.place i s)
  | takes {s : Station κ} (hfree : g.holder = none) (hs : s.Holds) (hpass : ∀ k, s ≠ .passes k)
    (hn : ∀ k, g.station i ≠ .notifies k) : Moves g i { g.place i s with holder := some i }
  | finds {k : κ} (ht : g.station i = .tests k) (hk : k ∈ g.items) : Moves g i (g.place i (.passes k))
  | gives {s : Station κ} (items : Finset κ) (hold : (g.station i).Holds) (hs : ¬ s.Holds)
    (hsleep : ∀ k, s = .sleeps k → k ∉ items) (hnew : ∀ k ∈ items, k ∈ g.items ∨ s = .notifies k) :
    Moves g i { g.leave i s with items }
  | notify {k : κ} (hn : g.station i = .notifies k) :
    Moves g i { g with station := Function.update (fun j => (g.station j).woken) i .away }

theorem moves_of_step (h : g.step i m = some (g', found)) : Moves g i g' := by
  cases m with
  | starts e =>
    cases hi : g.station i <;> simp only [step, hi, reduceCtorEq] at h
    cases h
    exact .outside (by rw [hi]; exact id) id (by rw [hi]; exact fun _ => nofun) (fun _ => nofun)
  | comes k =>
    cases hi : g.station i <;> simp only [step, hi, reduceCtorEq] at h
    cases h
    exact .outside (by rw [hi]; exact id) id (by rw [hi]; exact fun _ => nofun) (fun _ => nofun)
  | lock =>
    simp only [step] at h
    split at h
    · cases h
      exact .takes ‹_› trivial (fun _ => nofun) (fun k hk => by simp_all)
    · cases h
      exact .takes ‹_› trivial (fun _ => nofun) (fun k hk => by simp_all)
    · cases h
  | act =>
    simp only [step] at h
    split at h
    · rename_i k hi
      cases h
      refine .gives _ (by rw [hi]; trivial) id (fun _ => nofun) fun l hl => ?_
      exact (Finset.mem_insert.mp hl).symm.imp_right fun hl => by rw [hl]
    · rename_i k hi
      cases h
      exact .gives _ (by rw [hi]; trivial) id (fun _ => nofun) fun l hl => .inl (Finset.mem_of_mem_erase hl)
    · rename_i k hi
      cases h
      exact .gives g.items (by rw [hi]; trivial) id (fun _ => nofun) fun l hl => .inl hl
    · cases h
  | notify =>
    cases hi : g.station i <;> simp only [step, hi, reduceCtorEq] at h
    cases h
    exact .notify hi
  | test =>
    cases hi : g.station i <;> simp only [step, hi, reduceCtorEq] at h
    rename_i k
    split_ifs at h with hk
    · cases h
      exact .finds hi hk
    · cases h
      refine .gives g.items (by rw [hi]; trivial) id (fun l hl => ?_) fun l hl => .inl hl
      cases hl
      exact hk
  | unlock =>
    cases hi : g.station i <;> simp only [step, hi, reduceCtorEq] at h
    cases h
    exact .gives g.items (by rw [hi]; trivial) id (fun _ => nofun) fun l hl => .inl hl
  | wake =>
    cases hi : g.station i <;> simp only [step, hi, reduceCtorEq] at h
    cases h
    exact .outside (by rw [hi]; exact id) id (by rw [hi]; exact fun _ => nofun) (fun _ => nofun)

omit [DecidableEq κ] in
/-- One thread changes its station, with the mutex and the set. -/
theorem sound_update (h : g.Sound) {holder : Option ι} {items : Finset κ} {s : Station κ}
    (hown : s.Holds ↔ holder = some i) (hothers : ∀ j, j ≠ i → (g.holder = some j ↔ holder = some j))
    (hpass : ∀ k, s = .passes k → k ∈ items) (hkept : ∀ j k, j ≠ i → g.station j = .passes k → k ∈ items)
    (hsleep : ∀ k, s = .sleeps k → k ∉ items) (hnew : ∀ k ∈ items, k ∈ g.items ∨ s = .notifies k)
    (hn : ∀ k, g.station i ≠ .notifies k) : Sound ⟨holder, items, Function.update g.station i s⟩ := by
  constructor
  · intro j
    dsimp only
    by_cases hj : j = i
    · rw [hj, Function.update_self]
      exact hown
    · rw [Function.update_of_ne hj, h.mutex]
      exact hothers j hj
  · intro j k hk
    dsimp only at hk ⊢
    by_cases hj : j = i
    · rw [hj, Function.update_self] at hk
      exact hpass k hk
    · rw [Function.update_of_ne hj] at hk
      exact hkept j k hj hk
  · intro j k hk hmem
    dsimp only at hk hmem ⊢
    by_cases hj : j = i
    · rw [hj, Function.update_self] at hk
      exact absurd hmem (hsleep k hk)
    · rw [Function.update_of_ne hj] at hk
      rcases hnew k hmem with hold | hs
      · obtain ⟨l, hl⟩ := h.noticed j k hk hold
        have hli : l ≠ i := fun he => hn k (he ▸ hl)
        exact ⟨l, by rwa [Function.update_of_ne hli]⟩
      · exact ⟨i, by rw [Function.update_self, hs]⟩

omit [DecidableEq κ] in
theorem sound_step (h : g.Sound) (hm : Moves g i g') : g'.Sound := by
  cases hm with
  | @outside s hold hs hn hsleep =>
    refine sound_update h ?_ (fun _ _ => Iff.rfl) ?_ (fun j k _ => h.found j k) (fun k hk => absurd hk (hsleep k))
      (fun k hk => .inl hk) hn
    · rw [← h.mutex]
      exact iff_of_false hs hold
    · rintro k rfl
      exact absurd trivial hs
  | @takes s hfree hs hpass hn =>
    refine sound_update h (iff_of_true hs rfl) (fun j hj => ?_) (fun k hk => absurd hk (hpass k)) (fun j k _ => h.found j k)
      ?_ (fun k hk => .inl hk) hn
    · rw [hfree]
      exact iff_of_false nofun (fun he => hj (Option.some.inj he).symm)
    · rintro k rfl
      cases hs
  | @finds k ht hk =>
    have hmine : g.holder = some i := (h.mutex i).mp (by rw [ht]; trivial)
    refine sound_update h (iff_of_true trivial hmine) (fun _ _ => Iff.rfl) ?_ (fun j k _ => h.found j k) (fun _ => nofun)
      (fun k hk => .inl hk) (by rw [ht]; exact fun _ => nofun)
    rintro l ⟨⟩
    exact hk
  | @gives s items hold hs hsleep hnew =>
    have hmine : g.holder = some i := (h.mutex i).mp hold
    have halone (j : ι) (hj : j ≠ i) : ¬ (g.station j).Holds := by
      rw [h.mutex, hmine]
      exact fun he => hj (Option.some.inj he).symm
    refine sound_update h (iff_of_false hs nofun) (fun j hj => ?_) ?_ (fun j k hj hk => ?_) hsleep hnew (fun k hk => ?_)
    · rw [hmine]
      exact iff_of_false (fun he => hj (Option.some.inj he).symm) nofun
    · rintro k rfl
      exact absurd trivial hs
    · refine absurd ?_ (halone j hj)
      rw [hk]
      trivial
    · rw [hk] at hold
      cases hold
  | @notify k hn =>
    have hmine : ¬ (g.station i).Holds := by
      rw [hn]
      exact id
    constructor
    · intro j
      dsimp only
      by_cases hj : j = i
      · rw [hj, Function.update_self, ← h.mutex]
        exact iff_of_false id hmine
      · rw [Function.update_of_ne hj, Station.woken_holds]
        exact h.mutex j
    · intro j l hl
      dsimp only at hl ⊢
      by_cases hj : j = i
      · rw [hj, Function.update_self] at hl
        cases hl
      · rw [Function.update_of_ne hj] at hl
        refine h.found j l ?_
        cases hs : g.station j <;> rw [hs] at hl <;> cases hl
        rfl
    · intro j l hl
      dsimp only at hl
      by_cases hj : j = i
      · rw [hj, Function.update_self] at hl
        cases hl
      · rw [Function.update_of_ne hj] at hl
        exact absurd hl Station.not_sleeps_woken

/-- Who has the mutex can go on, and gives it back. -/
theorem holder_goes_on (h : g.Sound) (hi : g.holder = some i) : ∃ m : SetMove κ, m.Forward ∧ (g.step i m).isSome = true := by
  have hold := (h.mutex i).mpr hi
  cases hs : g.station i with
  | within e => cases e <;> exact ⟨.act, trivial, by simp only [step, hs, Option.isSome_some]⟩
  | tests k => exact ⟨.test, trivial, by simp only [step, hs, Option.isSome_some]⟩
  | passes k => exact ⟨.unlock, trivial, by simp only [step, hs, Option.isSome_some]⟩
  | _ =>
    rw [hs] at hold
    cases hold

/-- Whoever waits for the mutex gets it when it is free. -/
theorem lock_goes_on (hfree : g.holder = none) (hs : (∃ e, g.station i = .heads e) ∨ ∃ k, g.station i = .arrives k) :
    (g.step i .lock).isSome = true := by
  rcases hs with ⟨e, hs⟩ | ⟨k, hs⟩ <;> simp only [step, hfree, hs, Option.isSome_some]

/-- Where a thread has business with the set, some thread can go on. -/
theorem goes_on (h : g.Sound) (hi : (∃ e, g.station i = .heads e) ∨ (∃ k, g.station i = .arrives k) ∨
    (∃ k, g.station i = .notifies k) ∨ (g.station i).Holds ∨ ∃ k ∈ g.items, g.station i = .sleeps k) :
    ∃ (j : ι) (m : SetMove κ), m.Forward ∧ (g.step j m).isSome = true := by
  cases hholder : g.holder with
  | some j =>
    obtain ⟨m, hm⟩ := holder_goes_on h hholder
    exact ⟨j, m, hm⟩
  | none =>
    rcases hi with hs | hs | ⟨k, hs⟩ | hs | ⟨k, hk, hs⟩
    · exact ⟨i, .lock, trivial, lock_goes_on hholder (.inl hs)⟩
    · exact ⟨i, .lock, trivial, lock_goes_on hholder (.inr hs)⟩
    · exact ⟨i, .notify, trivial, by simp only [step, hs, Option.isSome_some]⟩
    · cases hholder.symm.trans ((h.mutex i).mp hs)
    · obtain ⟨j, hj⟩ := h.noticed i k hs hk
      exact ⟨j, .notify, trivial, by simp only [step, hj, Option.isSome_some]⟩

end GuardedSet
end Capio.Library
