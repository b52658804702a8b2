import Mathlib.Logic.Relation
import Mathlib.Data.List.Induction
import Mathlib.Order.Basic

/-! Threads that talk to one server over a queue. A thread that asks sends nothing until it
has its answer, and one that has left sends nothing until it joins again. A thread that is
killed while it waits does not come back. -/
namespace Capio.Library

/-- What a message does to the standing of its sender. -/
inductive Kind where
  | tells
  | asks
  | joins
  | leaves
  deriving DecidableEq

/-- Where a thread is between two messages. -/
inductive Control where
  | gone
  | free
  | waiting
  | leaving
  | killed
  deriving DecidableEq

/-- Its question has no answer that anybody has read. -/
def Control.asked : Control → Bool
  | waiting | killed => true
  | _ => false

/-- Where a message leaves its sender. -/
def Kind.next : Kind → Control
  | tells | joins => .free
  | asks => .waiting
  | leaves => .leaving

/-- A thread's part in an exchange: what it sends, where it reads an answer, and what it
ends with. -/
inductive Program (ρ α : Type) where
  | done (a : α)
  | send (r : ρ) (next : Program ρ α)
  | await (next : Nat → Program ρ α)

namespace Program
variable {ρ α : Type}

/-- Sends the messages one after the other. -/
def sendAll (rs : List ρ) (next : Program ρ α) : Program ρ α := rs.foldr send next

/-- A program that reads an answer after each question and nowhere else, sends messages of
its own only, and nothing after it has left. `Ends` is what holds at its end. -/
def Conforms (kind : ρ → Kind) (Own : ρ → Prop) (Ends : Control → α → Prop) : Control → Program ρ α → Prop
  | .free, done a => Ends .free a
  | .leaving, done a => Ends .leaving a
  | .free, send r next => Own r ∧ kind r ≠ .joins ∧ next.Conforms kind Own Ends (kind r).next
  | .waiting, await next => ∀ v, (next v).Conforms kind Own Ends .free
  | _, _ => False

theorem sendAll_snoc (rs : List ρ) (r : ρ) (next : Program ρ α) :
    sendAll (rs ++ [r]) next = sendAll rs (send r next) := by
  rw [sendAll, List.foldr_append]
  rfl

variable {kind : ρ → Kind} {Own : ρ → Prop} {Ends : Control → α → Prop} {p : Program ρ α}

theorem conforms_sendAll {rs : List ρ} (hrs : ∀ r ∈ rs, Own r ∧ kind r = .tells)
    (h : p.Conforms kind Own Ends .free) : (sendAll rs p).Conforms kind Own Ends .free := by
  induction rs with
  | nil => exact h
  | cons r rs ih =>
    obtain ⟨⟨hown, hkind⟩, hrs⟩ := List.forall_mem_cons.mp hrs
    refine ⟨hown, by rw [hkind]; exact nofun, ?_⟩
    rw [hkind]
    exact ih hrs

theorem Conforms.imp {Own' : ρ → Prop} {Ends' : Control → α → Prop} {c : Control} (hown : ∀ r, Own r → Own' r)
    (hends : ∀ c a, Ends c a → Ends' c a) (h : p.Conforms kind Own Ends c) : p.Conforms kind Own' Ends' c := by
  induction p generalizing c with
  | done a =>
    cases c with
    | free | leaving => exact hends _ a h
    | _ => exact h
  | send r next ih =>
    cases c with
    | free => exact ⟨hown r h.1, h.2.1, ih h.2.2⟩
    | _ => exact h
  | await next ih =>
    cases c with
    | waiting => exact fun v => ih v (h v)
    | _ => exact h

section
variable {κ : Type} [Preorder κ] (Worth : κ → ρ → Nat → Prop) (Good : κ → α → Prop)

/-- A program that relies on its answers. An answer is worth something of the message before it,
by what is known when it is read, and more may be known by then. -/
def Trusts : κ → Option ρ → Program ρ α → Prop
  | k, _, done a => Good k a
  | k, _, send r next => next.Trusts k (some r)
  | k, some r, await next => ∀ k' v, k ≤ k' → Worth k' r v → (next v).Trusts k' none
  | _, none, await _ => False

variable {Worth} {Good} {k k' : κ} {last : Option ρ}

theorem Trusts.mono (hgood : ∀ {k k' a}, k ≤ k' → Good k a → Good k' a) (h : p.Trusts Worth Good k last)
    (hle : k ≤ k') : p.Trusts Worth Good k' last := by
  induction p generalizing last with
  | done a => exact hgood hle h
  | send r next ih => exact ih h
  | await next _ =>
    cases last with
    | none => exact h
    | some r => exact fun k'' v hle' hworth => h k'' v (hle.trans hle') hworth

theorem trusts_sendAll {rs : List ρ} (h : ∀ last, p.Trusts Worth Good k last) :
    (sendAll rs p).Trusts Worth Good k last := by
  induction rs generalizing last with
  | nil => exact h last
  | cons r rs ih => exact ih

end

end Program

/-- What there is of one thread: its messages in the queue, whether the server knows it and
owes it an answer, and the answers it has not read. -/
structure Lane (ρ : Type) where
  control : Control
  queued : List ρ
  connected : Prop
  due : Prop
  answers : List Nat

namespace Lane
variable {ρ : Type} (kind : ρ → Kind)

/-- Whether the server knows the thread after a message. -/
def joined (connected : Prop) (r : ρ) : Prop := kind r = .joins ∨ connected ∧ kind r ≠ .leaves

/-- Every message comes from a thread that the server knows then, or makes it known. -/
def Orderly : Prop → List ρ → Prop
  | _, [] => True
  | connected, r :: rs => (kind r = .joins ∨ connected) ∧ Orderly (joined kind connected r) rs

inductive Step (l : Lane ρ) : Lane ρ → Prop
  | join {r : ρ} (hc : l.control = .gone ∨ l.control = .free) (hr : kind r = .joins) :
    Step l { l with control := .free, queued := l.queued ++ [r] }
  | send {r : ρ} (hc : l.control = .free) (hr : kind r ≠ .joins) :
    Step l { l with control := (kind r).next, queued := l.queued ++ [r] }
  | vanish (hc : l.control = .free ∨ l.control = .leaving) : Step l { l with control := .gone }
  | kill (hc : l.control = .waiting) : Step l { l with control := .killed }
  | arrive {r : ρ} {rest : List ρ} (hq : l.queued = r :: rest) :
    Step l { l with queued := rest, connected := joined kind l.connected r, due := l.due ∨ kind r = .asks }
  | answer {v : Nat} (hd : l.due) : Step l { l with due := False, answers := l.answers ++ [v] }
  | read {v : Nat} {rest : List Nat} (hc : l.control = .waiting) (ha : l.answers = v :: rest) :
    Step l { l with control := .free, answers := rest }

/-- Where the one open question of a thread is: in the queue behind its other messages,
with the server, or answered. -/
inductive Open (l : Lane ρ) : Prop
  | queued {pre : List ρ} {r : ρ} (hq : l.queued = pre ++ [r]) (hr : kind r = .asks)
    (hpre : ∀ q ∈ pre, kind q ≠ .asks) (hd : ¬ l.due) (ha : l.answers = []) : Open l
  | due (hq : l.queued = []) (hd : l.due) (ha : l.answers = []) : Open l
  | answered {v : Nat} (hq : l.queued = []) (hd : ¬ l.due) (ha : l.answers = [v]) : Open l

structure Closed (l : Lane ρ) : Prop where
  queued : ∀ q ∈ l.queued, kind q ≠ .asks
  due : ¬ l.due
  answers : l.answers = []

structure Ok (l : Lane ρ) : Prop where
  asked : l.control.asked = true → Open kind l
  others : l.control.asked = false → Closed kind l
  orderly : Orderly kind l.connected l.queued
  known : l.control = .free ∨ l.control = .waiting → l.queued.foldl (joined kind) l.connected

variable {kind} {l m : Lane ρ}

theorem orderly_snoc {connected : Prop} {rs : List ρ} {r : ρ} (h : Orderly kind connected rs)
    (hr : kind r = .joins ∨ rs.foldl (joined kind) connected) : Orderly kind connected (rs ++ [r]) := by
  induction rs generalizing connected with
  | nil => exact ⟨hr, trivial⟩
  | cons q rs ih => exact ⟨h.1, ih h.2 hr⟩

theorem joined_iff_of_eq {connected : Prop} {r : ρ} (h : kind r = .tells ∨ kind r = .asks) :
    joined kind connected r ↔ connected := by
  rcases h with h | h <;> simp [joined, h]

/-- A thread that asks has nothing else open. -/
theorem ok_send {r : ρ} (hi : Ok kind l) (hc : l.control = .free) (hr : kind r ≠ .joins) :
    Ok kind { l with control := (kind r).next, queued := l.queued ++ [r] } := by
  have hclosed := hi.others (by rw [hc]; rfl)
  have hknown := hi.known (.inl hc)
  refine ⟨fun hw => ?_, fun hw => ⟨?_, hclosed.due, hclosed.answers⟩, orderly_snoc hi.orderly (.inr hknown), ?_⟩
  · have hasks : kind r = .asks := by
      cases hk : kind r <;> simp [hk, Kind.next, Control.asked] at hw ⊢
    exact .queued rfl hasks hclosed.queued hclosed.due hclosed.answers
  · intro q hq
    rcases List.mem_append.mp hq with hq | hq
    · exact hclosed.queued q hq
    · obtain rfl := List.mem_singleton.mp hq
      intro hasks
      dsimp only at hw
      rw [hasks] at hw
      cases hw
  · intro hw
    have hstays : kind r = .tells ∨ kind r = .asks := by
      cases hk : kind r with
      | tells => exact .inl rfl
      | asks => exact .inr rfl
      | joins => exact absurd hk hr
      | leaves => simp [hk, Kind.next] at hw
    rw [List.foldl_append]
    exact (joined_iff_of_eq hstays).mpr hknown

theorem ok_join {r : ρ} (hi : Ok kind l) (hc : l.control = .gone ∨ l.control = .free) (hr : kind r = .joins) :
    Ok kind { l with control := .free, queued := l.queued ++ [r] } := by
  have hclosed := hi.others (by rcases hc with hc | hc <;> rw [hc] <;> rfl)
  refine ⟨fun hw => ?_, fun _ => ⟨?_, hclosed.due, hclosed.answers⟩, orderly_snoc hi.orderly (.inl hr),
    fun _ => ?_⟩
  · cases hw
  · intro q hq
    rcases List.mem_append.mp hq with hq | hq
    · exact hclosed.queued q hq
    · obtain rfl := List.mem_singleton.mp hq
      rw [hr]
      exact nofun
  · rw [List.foldl_append]
    exact .inl hr

theorem ok_vanish (hi : Ok kind l) (hc : l.control = .free ∨ l.control = .leaving) :
    Ok kind { l with control := .gone } := by
  have hclosed := hi.others (by rcases hc with hc | hc <;> rw [hc] <;> rfl)
  refine ⟨fun hw => ?_, fun _ => ⟨hclosed.queued, hclosed.due, hclosed.answers⟩, hi.orderly, nofun⟩
  cases hw

theorem ok_kill (hi : Ok kind l) (hc : l.control = .waiting) : Ok kind { l with control := .killed } := by
  refine ⟨fun _ => ?_, fun hw => ?_, hi.orderly, nofun⟩
  · cases hi.asked (by rw [hc]; rfl) with
    | queued hq hr hpre hd ha => exact .queued hq hr hpre hd ha
    | due hq hd ha => exact .due hq hd ha
    | answered hq hd ha => exact .answered hq hd ha
  · cases hw

theorem ok_arrive {r : ρ} {rest : List ρ} (hi : Ok kind l) (hq : l.queued = r :: rest) :
    Ok kind { l with
      queued := rest, connected := joined kind l.connected r, due := l.due ∨ kind r = .asks } := by
  have horderly := hi.orderly
  rw [hq] at horderly
  refine ⟨fun hw => ?_, fun hw => ?_, horderly.2, fun hk => ?_⟩
  · cases hi.asked hw with
    | @queued pre q hqueued hasks hpre hd ha =>
      rw [hq] at hqueued
      cases pre with
      | nil =>
        obtain ⟨rfl, rfl⟩ := List.cons.inj hqueued
        exact .due rfl (.inr hasks) ha
      | cons p pre =>
        obtain ⟨rfl, rfl⟩ := List.cons.inj hqueued
        obtain ⟨hp, hpre⟩ := List.forall_mem_cons.mp hpre
        exact .queued rfl hasks hpre (fun hor => hor.elim hd hp) ha
    | due hnil _ _ | answered hnil _ _ =>
      rw [hq] at hnil
      cases hnil
  · have hclosed := hi.others hw
    obtain ⟨hr, hrest⟩ := List.forall_mem_cons.mp (hq ▸ hclosed.queued)
    exact ⟨hrest, fun hor => hor.elim hclosed.due hr, hclosed.answers⟩
  · have hknown := hi.known hk
    rw [hq] at hknown
    exact hknown

theorem ok_answer {v : Nat} (hi : Ok kind l) (hd : l.due) :
    Ok kind { l with due := False, answers := l.answers ++ [v] } := by
  refine ⟨fun hw => ?_, fun hw => absurd hd (hi.others hw).due, hi.orderly, hi.known⟩
  cases hi.asked hw with
  | queued _ _ _ hn _ => exact absurd hd hn
  | due hq _ ha => exact .answered hq not_false (by rw [ha]; rfl)
  | answered _ hn _ => exact absurd hd hn

theorem ok_read {v : Nat} {rest : List Nat} (hi : Ok kind l) (hc : l.control = .waiting)
    (ha : l.answers = v :: rest) : Ok kind { l with control := .free, answers := rest } := by
  refine ⟨fun hw => ?_, fun _ => ?_, hi.orderly, fun _ => hi.known (.inr hc)⟩
  · cases hw
  · cases hi.asked (by rw [hc]; rfl) with
    | queued _ _ _ _ hnone | due _ _ hnone =>
      rw [ha] at hnone
      cases hnone
    | answered hq hd hone =>
      rw [ha] at hone
      obtain ⟨_, rfl⟩ := List.cons.inj hone
      exact ⟨by rw [hq]; exact nofun, hd, rfl⟩

/-- A lane that nobody has used. -/
def unused : Lane ρ := ⟨.gone, [], False, False, []⟩

theorem ok_unused : Ok kind (unused : Lane ρ) := by
  refine ⟨fun hw => ?_, fun _ => ⟨nofun, not_false, rfl⟩, trivial, nofun⟩
  cases hw

/-- A message arrives while nothing is owed to its sender. -/
theorem Ok.not_due {r : ρ} {rest : List ρ} (hi : Ok kind l) (hq : l.queued = r :: rest) : ¬ l.due := by
  cases hw : l.control.asked with
  | true =>
    cases hi.asked hw with
    | queued _ _ _ hd _ => exact hd
    | due hnil _ _ | answered hnil _ _ =>
      rw [hq] at hnil
      cases hnil
  | false => exact (hi.others hw).due

/-- An answer is there for a thread that has asked, and it is the only one. -/
theorem Ok.one_answer (hi : Ok kind l) (ha : l.answers ≠ []) :
    l.control.asked = true ∧ l.queued = [] ∧ ¬ l.due ∧ ∃ v, l.answers = [v] := by
  cases hw : l.control.asked with
  | true =>
    cases hi.asked hw with
    | queued _ _ _ _ hnone | due _ _ hnone => exact absurd hnone ha
    | answered hq hd hone => exact ⟨rfl, hq, hd, _, hone⟩
  | false => exact absurd (hi.others hw).answers ha

end Lane
end Capio.Library
