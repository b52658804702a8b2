import Capio.Library.GuardedSet
import Capio.Node.ThreadProtocol
import Capio.Node.Machine

/-! The threads of one process and the set `tids`: a parent announces each thread that it clones to the
server, and the thread waits until it has. -/
namespace Capio.Node
open Library
open Server (Tid sender announces latest)

/-- What a thread of the process is doing. -/
inductive Life where
  | gone
  /-- In `hook_clone_child`. -/
  | newborn
  | running
  /-- In `hook_clone_parent`, before `init_process`. -/
  | clones (child : Tid)
  /-- In `register_capio_tid`, or before `notify_all`. -/
  | registers (child : Tid)
  /-- In `exit_handler`: in `is_capio_tid`, in `exit_group_request`, in `remove_capio_tid`. -/
  | leaves
  | parts
  | removes
  /-- The write cache is deleted. -/
  | deletes
  deriving DecidableEq

/-- A thread that the server has been told of and that has not told it the end. -/
def Life.Known : Life → Prop
  | .gone | .newborn | .removes => False
  | _ => True

/-- A thread that has no child to announce. -/
def Life.Childless : Life → Prop
  | .clones _ | .registers _ => False
  | _ => True

/-- A thread that can be in the set. -/
def Life.Here : Life → Prop
  | .gone | .deletes => False
  | _ => True

/-- The response buffers that a process has made or has from its parent, oldest first and each for an
id, and the table in which its threads look for theirs. -/
structure Listeners where
  made : List Tid
  bufsResponse : UnorderedMap Tid Nat
  first : ∀ tid, bufsResponse.lookup tid = if tid ∈ made then some (made.idxOf tid) else none

namespace Listeners

def empty : Listeners := ⟨[], ∅, fun _ => rfl⟩

/-- `insert` leaves the buffer that an earlier thread had under the id. -/
def registerListener (l : Listeners) (tid : Tid) : Listeners where
  made := l.made ++ [tid]
  bufsResponse := UnorderedMap.emplace l.bufsResponse tid l.made.length
  first u := by
    rw [UnorderedMap.lookup_emplace, l.first, l.first]
    by_cases hu : u = tid
    · subst hu
      by_cases hmem : u ∈ l.made
      · simp [hmem, List.idxOf_append_of_mem hmem]
      · simp [hmem, List.idxOf_append_of_notMem hmem]
    · by_cases hmem : u ∈ l.made
      · simp [hu, hmem, List.idxOf_append_of_mem hmem]
      · simp [hu, hmem]

/-- The thread reads from the buffer that was made for it last, which the server writes to. -/
def Listens (l : Listeners) (tid : Tid) : Prop :=
  ∃ older newer, l.made = older ++ tid :: newer ∧ tid ∉ newer ∧ l.bufsResponse.lookup tid = some older.length

variable {l : Listeners} {tid : Tid}

theorem mem_registerListener {u : Tid} : u ∈ (l.registerListener tid).bufsResponse ↔ u = tid ∨ u ∈ l.bufsResponse :=
  UnorderedMap.mem_emplace _ _ _ _

theorem mem_made (h : tid ∈ l.bufsResponse) : tid ∈ l.made := by
  by_contra hnot
  have hnone := l.first tid
  rw [if_neg hnot] at hnone
  exact AList.lookup_eq_none.mp hnone h

/-- A thread listens where the server answers exactly if nobody had its id before. -/
theorem listens_iff (h : tid ∈ l.bufsResponse) : l.Listens tid ↔ l.made.count tid = 1 := by
  have hfirst := l.first tid
  rw [if_pos (mem_made h)] at hfirst
  constructor
  · rintro ⟨older, newer, hmade, hnewer, hlookup⟩
    have holder : tid ∉ older := by
      intro hmem
      rw [hlookup, hmade, List.idxOf_append_of_mem hmem, Option.some.injEq] at hfirst
      exact absurd (List.idxOf_lt_length_of_mem hmem) (by omega)
    rw [hmade, List.count_append, List.count_cons_self, List.count_eq_zero_of_not_mem holder,
      List.count_eq_zero_of_not_mem hnewer]
  · intro hone
    obtain ⟨older, newer, hmade⟩ := List.append_of_mem (mem_made h)
    rw [hmade, List.count_append, List.count_cons_self] at hone
    have holder : tid ∉ older := List.count_eq_zero.mp (by omega)
    have hnewer : tid ∉ newer := List.count_eq_zero.mp (by omega)
    refine ⟨older, newer, hmade, hnewer, ?_⟩
    rw [hfirst, hmade, List.idxOf_append_of_notMem holder, List.idxOf_cons_self, Nat.add_zero]

end Listeners

structure Process where
  tids : GuardedSet Tid Tid
  life : Tid → Life
  listeners : Listeners
  sent : List Request

namespace Process

inductive Action where
  /-- The kernel makes the thread. -/
  | clone (parent child : Tid)
  | initProcess (parent : Tid) (appName : Option CString)
  | move (tid : Tid) (m : SetMove Tid)
  | request (tid : Tid) (r : Request)
  | exit (tid : Tid)
  | exitGroup (tid : Tid)
  | vanish (tid : Tid)

def setLife (p : Process) (tid : Tid) (l : Life) : Process := { p with life := Function.update p.life tid l }

/-- The thread has moved in the set. -/
def turn (p : Process) (tids : GuardedSet Tid Tid) (tid : Tid) (l : Life) : Process :=
  { p with tids := tids, life := Function.update p.life tid l }

/-- What a move in the set is for the thread that makes it. -/
def after (found : Bool) : Life → SetMove Tid → Life
  | .newborn, .unlock | .registers _, .notify => .running
  | .leaves, .act => if found then .parts else .deletes
  | .removes, .act => .gone
  | l, _ => l

/-- Whether the thread may send its requests. A deleted write cache is flushed. -/
def Speaks : Life → Prop
  | .running | .parts | .deletes => True
  | _ => False

instance : DecidablePred Speaks
  | .running | .parts | .deletes => isTrue trivial
  | .gone | .newborn | .clones _ | .registers _ | .leaves | .removes => isFalse id

def step (p : Process) : Action → Option (Process × Unit)
  | .clone parent child => do
    let (tids, _) ← p.tids.step child (.comes child)
    if p.life parent = .running ∧ p.life child = .gone then
      some ((p.turn tids child .newborn).setLife parent (.clones child), ())
    else none
  | .initProcess parent appName =>
    match p.life parent with
    | .clones child => do
      let (tids, _) ← p.tids.step parent (.starts (.put child))
      let p := { p with
        listeners := p.listeners.registerListener child
        sent := p.sent ++ [Machine.handshake child parent appName] }
      some (p.turn tids parent (.registers child), ())
    | _ => none
  | .move _ (.starts _) | .move _ (.comes _) => none
  | .move tid m => do
    let (tids, found) ← p.tids.step tid m
    some (p.turn tids tid (after found (p.life tid) m), ())
  | .request tid r =>
    if Speaks (p.life tid) ∧ sender r = tid ∧ (kind r = .asks ∨ kind r = .tells) then
      some ({ p with sent := p.sent ++ [r] }, ())
    else none
  | .exit tid => do
    let (tids, _) ← p.tids.step tid (.starts (.look tid))
    if p.life tid = .running then some (p.turn tids tid .leaves, ()) else none
  | .exitGroup tid => do
    let (tids, _) ← p.tids.step tid (.starts (.remove tid))
    if p.life tid = .parts then some ({ p with sent := p.sent ++ [Request.exitGroup tid] }.turn tids tid .removes, ())
    else none
  | .vanish tid => if p.life tid = .deletes then some (p.setLife tid .gone, ()) else none

abbrev Event := Library.Event Action Unit

abbrev Step := StepOf step

abbrev Trace := List (Transition Process Event)

/-- The first thread has made its handshake. The constructor of the library has then put it into the
set, and a forked process has copies of the set and of the buffers of its parent. -/
def start (own : Tid) (appName : Option CString) (items : Finset Tid) (held : Listeners) : Process :=
  ⟨⟨none, items, fun _ => .away⟩, Function.update (fun _ => .gone) own .running, held.registerListener own,
    [Machine.handshake own own appName]⟩

/-- The server knows the thread, and there is a buffer under its id. -/
def Announced (p : Process) (tid : Tid) : Prop :=
  (∃ appName, latest tid p.sent = some (some appName)) ∧ tid ∈ p.listeners.bufsResponse

/-- Where a thread stands that is at this point. -/
def Stands (tid : Tid) : Life → Station Tid → Prop
  | .newborn, s => s = .arrives tid ∨ s = .tests tid ∨ s = .sleeps tid ∨ s = .passes tid
  | .registers child, s => s = .heads (.put child) ∨ s = .within (.put child) ∨ s = .notifies child
  | .leaves, s => s = .heads (.look tid) ∨ s = .within (.look tid)
  | .removes, s => s = .heads (.remove tid) ∨ s = .within (.remove tid)
  | _, s => s = .away

/-- The parent has the child still to put into the set. -/
def Parent (p : Process) (tid child : Tid) : Prop :=
  p.life tid = .clones child ∨ p.life tid = .registers child ∧ p.tids.station tid ≠ .notifies child

/-- What holds in every run. Only what a process has inherited is in the set without being announced. -/
structure Kept (inherited : Finset Tid) (p : Process) : Prop where
  sound : p.tids.Sound
  stands : ∀ tid, Stands tid (p.life tid) (p.tids.station tid)
  known : ∀ tid ∈ p.tids.items, tid ∈ inherited ∨ p.life tid = .removes ∨
    p.Announced tid ∧ (p.life tid).Here
  child : ∀ tid child, p.Parent tid child → p.life child = .newborn ∧ child ∉ p.tids.items
  announced : ∀ tid child, p.Parent tid child → p.life tid = .registers child → p.Announced child
  alone : ∀ tid other child, p.Parent tid child → p.Parent other child → tid = other
  newborn : ∀ child, p.life child = .newborn → child ∉ inherited ∧ (child ∈ p.tids.items ∨ ∃ tid, p.Parent tid child)
  speaks : ∀ tid, Life.Known (p.life tid) → p.Announced tid

section
variable {inherited : Finset Tid} {p p' : Process} {tid child : Tid} {l : Life} {tids : GuardedSet Tid Tid}

theorem parent_not_newborn (h : p.Parent tid child) : p.life tid ≠ .newborn := by
  intro hnew
  rcases h with h | ⟨h, _⟩ <;> cases h.symm.trans hnew

theorem not_notifies {s : Station Tid} (h : ¬ s.Notifies) : s ≠ .notifies child := by
  rintro rfl
  exact h trivial

theorem woken_notifies {s : Station Tid} : s.woken = .notifies child ↔ s = .notifies child := by
  cases s <;> simp [Station.woken]

theorem stands_woken {s : Station Tid} (h : Stands tid l s) : Stands tid l s.woken := by
  cases s with
  | sleeps k =>
    cases l <;> simp [Stands, Station.woken] at h ⊢
    exact h
  | _ => exact h

theorem stands_within {e : Errand Tid} (h : Stands tid l (.heads e)) : Stands tid l (.within e) := by
  cases l <;> simp_all [Stands]

theorem stands_waiting {k : Tid} {s : Station Tid} (hs : s = .arrives k ∨ s = .tests k ∨ s = .sleeps k ∨ s = .passes k)
    (h : Stands tid l s) : l = .newborn ∧ k = tid := by
  rcases hs with rfl | rfl | rfl | rfl <;> cases l <;> simp_all [Stands]

/-- A thread makes a move in the set, and the others are at most woken. -/
theorem kept_turn (h : Kept inherited p) (hsound : tids.Sound)
    (hothers : ∀ other, other ≠ tid → tids.station other = p.tids.station other ∨
      tids.station other = (p.tids.station other).woken)
    (hstands : Stands tid l (tids.station tid))
    (hparent : ∀ child, (p.turn tids tid l).Parent tid child → p.Parent tid child)
    (hitems : ∀ k ∈ tids.items, k ∈ p.tids.items ∨
      p.Parent tid k ∧ p.life tid = .registers k ∧ ¬ (p.turn tids tid l).Parent tid k)
    (hkept : ∀ k ∈ p.tids.items, k ∈ tids.items ∨ k = tid ∧ l ≠ .newborn)
    (hdone : ∀ child, p.Parent tid child → (p.turn tids tid l).Parent tid child ∨ child ∈ tids.items)
    (hown : tid ∈ tids.items → tid ∈ inherited ∨ l = .removes ∨ p.Announced tid ∧ l.Here)
    (hfrom : l = .newborn → p.life tid = .newborn) (hto : p.life tid = .newborn → l = .newborn ∨ tid ∈ p.tids.items)
    (hregisters : ∀ child, l = .registers child → p.life tid = .registers child ∨ p.Announced child)
    (hspeaks : l.Known → p.Announced tid) : Kept inherited (p.turn tids tid l) := by
  have hlife {other : Tid} (ho : other ≠ tid) : (p.turn tids tid l).life other = p.life other :=
    Function.update_of_ne ho _ _
  have hmine : (p.turn tids tid l).life tid = l := Function.update_self ..
  have hother {other child : Tid} (ho : other ≠ tid) :
      (p.turn tids tid l).Parent other child ↔ p.Parent other child := by
    unfold Parent
    rw [hlife ho]
    have hstation : tids.station other = .notifies child ↔ p.tids.station other = .notifies child := by
      rcases hothers other ho with he | he <;> rw [he]
      exact woken_notifies
    change _ ∨ _ ∧ ¬ tids.station other = .notifies child ↔ _
    rw [hstation]
  have hfrom' {other child : Tid} (hp : (p.turn tids tid l).Parent other child) : p.Parent other child := by
    by_cases ho : other = tid
    · subst ho
      exact hparent child hp
    · exact (hother ho).mp hp
  constructor
  case sound => exact hsound
  case stands =>
    intro other
    by_cases ho : other = tid
    · subst ho
      rw [hmine]
      exact hstands
    · rw [hlife ho]
      change Stands other (p.life other) (tids.station other)
      rcases hothers other ho with he | he <;> rw [he]
      · exact h.stands other
      · exact stands_woken (h.stands other)
  case known =>
    intro k hk
    by_cases hkt : k = tid
    · subst hkt
      rw [hmine]
      exact hown hk
    · rw [hlife hkt]
      rcases hitems k hk with hold | ⟨hchild, hreg, _⟩
      · exact h.known k hold
      · obtain ⟨hnew, _⟩ := h.child tid k hchild
        rw [hnew]
        exact .inr (.inr ⟨h.announced tid k hchild hreg, trivial⟩)
  case child =>
    intro other child hp
    obtain ⟨hnew, hmem⟩ := h.child other child (hfrom' hp)
    constructor
    · by_cases hc : child = tid
      · subst hc
        rw [hmine]
        exact (hto hnew).resolve_right hmem
      · rw [hlife hc]
        exact hnew
    · intro hin
      obtain ⟨hchild, _, hnot⟩ := (hitems child hin).resolve_left hmem
      obtain rfl := h.alone other tid child (hfrom' hp) hchild
      exact hnot hp
  case announced =>
    intro other child hp hreg
    have hold := h.announced other child (hfrom' hp)
    by_cases ho : other = tid
    · subst ho
      rw [hmine] at hreg
      exact (hregisters child hreg).elim hold id
    · rw [hlife ho] at hreg
      exact hold hreg
  case alone => exact fun other other' child hp hp' => h.alone other other' child (hfrom' hp) (hfrom' hp')
  case newborn =>
    intro child hnew
    have hold : p.life child = .newborn := by
      by_cases hc : child = tid
      · subst hc
        rw [hmine] at hnew
        exact hfrom hnew
      · rwa [hlife hc] at hnew
    obtain ⟨hfresh, hmem | ⟨other, hp⟩⟩ := h.newborn child hold
    · refine ⟨hfresh, .inl ((hkept child hmem).resolve_right ?_)⟩
      rintro ⟨rfl, hne⟩
      rw [hmine] at hnew
      exact hne hnew
    · by_cases ho : other = tid
      · subst ho
        exact ⟨hfresh, (hdone child hp).symm.imp_right fun hp => ⟨other, hp⟩⟩
      · exact ⟨hfresh, .inr ⟨other, (hother ho).mpr hp⟩⟩
  case speaks =>
    intro other hknown
    by_cases ho : other = tid
    · subst ho
      rw [hmine] at hknown
      exact hspeaks hknown
    · rw [hlife ho] at hknown
      exact h.speaks other hknown

/-- A move that changes nothing but where the thread stands. -/
theorem kept_place (h : Kept inherited p) (hsound : tids.Sound) (hitems : tids.items = p.tids.items)
    (hothers : ∀ other, other ≠ tid → tids.station other = p.tids.station other)
    (hstands : Stands tid (p.life tid) (tids.station tid)) (hbefore : ¬ (p.tids.station tid).Notifies)
    (hafter : ¬ (tids.station tid).Notifies) : Kept inherited (p.turn tids tid (p.life tid)) := by
  have hmine : (p.turn tids tid (p.life tid)).life tid = p.life tid := Function.update_self ..
  have hsame (child : Tid) : (p.turn tids tid (p.life tid)).Parent tid child ↔ p.Parent tid child := by
    unfold Parent
    rw [hmine]
    exact or_congr_right (and_congr_right fun _ => iff_of_true (not_notifies hafter) (not_notifies hbefore))
  refine kept_turn h hsound (fun other ho => .inl (hothers other ho)) hstands (fun child => (hsame child).mp) ?_ ?_
    (fun child hp => .inl ((hsame child).mpr hp)) ?_ id .inl (fun _ => .inl) (h.speaks tid)
  · rw [hitems]
    exact fun k hk => .inl hk
  · rw [hitems]
    exact fun k hk => .inl hk
  · rw [hitems]
    exact h.known tid

theorem sound_move {found : Bool} {m : SetMove Tid} (h : Kept inherited p) (hm : p.tids.step tid m = some (tids, found)) :
    tids.Sound := GuardedSet.sound_step h.sound (GuardedSet.moves_of_step hm)

/-- The thread that puts its child into the set. -/
theorem kept_put (h : Kept inherited p) (hs : p.tids.station tid = .within (.put child))
    (hlife : p.life tid = .registers child)
    (hsound : ({ p.tids.leave tid (.notifies child) with items := insert child p.tids.items } : GuardedSet Tid Tid).Sound) :
    Kept inherited (p.turn { p.tids.leave tid (.notifies child) with items := insert child p.tids.items } tid
      (.registers child)) := by
  have hparent : p.Parent tid child := .inr ⟨hlife, fun he => by cases hs.symm.trans he⟩
  have hnot (c : Tid) : ¬ (p.turn { p.tids.leave tid (.notifies child) with items := insert child p.tids.items } tid
      (.registers child)).Parent tid c := by
    rintro (hp | ⟨hp, hne⟩) <;> dsimp only [turn] at hp <;> rw [Function.update_self] at hp <;> cases hp
    exact hne (Function.update_self ..)
  obtain ⟨hnew, _⟩ := h.child tid child hparent
  refine kept_turn h hsound (fun other ho => .inl (Function.update_of_ne ho _ _)) (.inr (.inr (Function.update_self ..)))
    (fun c hp => absurd hp (hnot c)) (fun k hk => ?_) (fun k hk => .inl (Finset.mem_insert_of_mem hk)) (fun c hp => ?_)
    (fun hk => ?_) (fun hl => by cases hl) (fun hl => absurd hl (parent_not_newborn hparent)) (fun c hc => .inl ?_) ?_
  · rcases Finset.mem_insert.mp hk with rfl | hk
    · exact .inr ⟨hparent, hlife, hnot k⟩
    · exact .inl hk
  · rcases hp with hp | ⟨hp, _⟩
    · cases hlife.symm.trans hp
    · cases hlife.symm.trans hp
      exact .inr (Finset.mem_insert_self ..)
  · rcases Finset.mem_insert.mp hk with rfl | hk
    · cases hnew.symm.trans hlife
    · rw [← hlife]
      exact h.known tid hk
  · rw [hlife, hc]
  · intro _
    exact h.speaks tid (by rw [hlife]; trivial)

/-- The thread that waits, up to where it has the mutex and has found itself in the set. -/
theorem kept_waits (h : Kept inherited p) (hsound : tids.Sound) (hitems : tids.items = p.tids.items)
    (hothers : ∀ other, other ≠ tid → tids.station other = p.tids.station other) {k : Tid} {s : Station Tid}
    (hs : p.tids.station tid = s) (hfrom : s = .arrives k ∨ s = .tests k ∨ s = .sleeps k ∨ s = .passes k)
    (hto : tids.station tid = .arrives k ∨ tids.station tid = .tests k ∨ tids.station tid = .sleeps k ∨
      tids.station tid = .passes k) : Kept inherited (p.turn tids tid (p.life tid)) := by
  have hstands := h.stands tid
  rw [hs] at hstands
  obtain ⟨hlife, rfl⟩ := stands_waiting hfrom hstands
  refine kept_place h hsound hitems hothers ?_ ?_ ?_
  · rw [hlife]
    exact hto
  · rw [hs]
    rcases hfrom with rfl | rfl | rfl | rfl <;> exact id
  · rcases hto with he | he | he | he <;> rw [he] <;> exact id

theorem not_parent (h : (p.life tid).Childless) (child : Tid) : ¬ p.Parent tid child := by
  rintro (hp | ⟨hp, _⟩) <;> rw [hp] at h <;> exact h

/-- A thread that has no child to announce, before and after. -/
theorem kept_free (h : Kept inherited p) (hsound : tids.Sound)
    (hothers : ∀ other, other ≠ tid → tids.station other = p.tids.station other ∨
      tids.station other = (p.tids.station other).woken)
    (hstands : Stands tid l (tids.station tid)) (hnone : ∀ child, ¬ p.Parent tid child) (hnew : l ≠ .newborn)
    (hl : l.Childless)
    (hitems : ∀ k ∈ tids.items, k ∈ p.tids.items) (hkept : ∀ k ∈ p.tids.items, k ∈ tids.items ∨ k = tid)
    (hown : tid ∈ tids.items → tid ∈ inherited ∨ l = .removes ∨ p.Announced tid ∧ l.Here)
    (hto : p.life tid = .newborn → tid ∈ p.tids.items) (hspeaks : l.Known → p.Announced tid) :
    Kept inherited (p.turn tids tid l) := by
  have hmine : (p.turn tids tid l).life tid = l := Function.update_self ..
  have hafter (child : Tid) : ¬ (p.turn tids tid l).Parent tid child := by
    refine not_parent ?_ child
    rwa [hmine]
  exact kept_turn h hsound hothers hstands (fun child hp => absurd hp (hafter child)) (fun k hk => .inl (hitems k hk))
    (fun k hk => (hkept k hk).imp_right fun hk => ⟨hk, hnew⟩) (fun child hp => absurd hp (hnone child)) hown
    (fun hl => absurd hl hnew) (fun hl => .inr (hto hl)) (fun child he => by rw [he] at hl; exact hl.elim) hspeaks

theorem within_cases {e : Errand Tid} (h : Stands tid l (.within e)) :
    (∃ child, l = .registers child ∧ e = .put child) ∨ l = .leaves ∧ e = .look tid ∨ l = .removes ∧ e = .remove tid := by
  cases l <;> simp_all [Stands]

theorem notifies_life (h : Stands tid l (.notifies child)) : l = .registers child := by
  cases l <;> simp_all [Stands]

theorem kept_move {found : Bool} {m : SetMove Tid} (h : Kept inherited p) (hbegins : ¬ m.Begins)
    (hstep : p.tids.step tid m = some (tids, found)) :
    Kept inherited (p.turn tids tid (after found (p.life tid) m)) := by
  have hsound := sound_move h hstep
  have hstands := h.stands tid
  have hothers {s : Station Tid} (other : Tid) (ho : other ≠ tid) :
      Function.update p.tids.station tid s other = p.tids.station other := Function.update_of_ne ho _ _
  cases m with
  | starts e => exact absurd trivial hbegins
  | comes k => exact absurd trivial hbegins
  | lock =>
    have hsame : after found (p.life tid) .lock = p.life tid := by cases p.life tid <;> rfl
    rw [hsame]
    simp only [GuardedSet.step] at hstep
    split at hstep
    · rename_i e _ hs
      cases hstep
      have hafter : Function.update p.tids.station tid (.within e) tid = .within e := Function.update_self ..
      refine kept_place h hsound rfl hothers ?_ (by rw [hs]; exact id) ?_
      · rw [hs] at hstands
        dsimp only [GuardedSet.place]
        rw [hafter]
        exact stands_within hstands
      · dsimp only [GuardedSet.place]
        rw [hafter]
        exact id
    · rename_i k _ hs
      cases hstep
      exact kept_waits h hsound rfl hothers hs (.inl rfl) (.inr (.inl (Function.update_self ..)))
    · cases hstep
  | act =>
    simp only [GuardedSet.step] at hstep
    split at hstep
    · rename_i child hs
      cases hstep
      rw [hs] at hstands
      obtain ⟨c, hlife, he⟩ | ⟨_, he⟩ | ⟨_, he⟩ := within_cases hstands <;> cases he
      rw [hlife]
      exact kept_put h hs hlife hsound
    · rename_i k hs
      cases hstep
      rw [hs] at hstands
      obtain ⟨c, _, he⟩ | ⟨_, he⟩ | ⟨hlife, he⟩ := within_cases hstands <;> cases he
      rw [hlife]
      exact kept_free h hsound (fun other ho => .inl (hothers other ho)) (Function.update_self ..)
        (not_parent (by rw [hlife]; trivial)) (fun he => by cases he) trivial (fun k hk => Finset.mem_of_mem_erase hk)
        (fun k hk => (eq_or_ne k tid).symm.imp_left fun hne => Finset.mem_erase.mpr ⟨hne, hk⟩)
        (fun hk => absurd rfl (Finset.ne_of_mem_erase hk)) (fun he => by cases hlife.symm.trans he) False.elim
    · rename_i k hs
      cases hstep
      rw [hs] at hstands
      obtain ⟨c, _, he⟩ | ⟨hlife, he⟩ | ⟨_, he⟩ := within_cases hstands <;> cases he
      have hknown : p.Announced tid := h.speaks tid (by rw [hlife]; trivial)
      rw [hlife]
      by_cases hk : tid ∈ p.tids.items
      · rw [decide_eq_true hk]
        exact kept_free h hsound (fun other ho => .inl (hothers other ho)) (Function.update_self ..)
          (not_parent (by rw [hlife]; trivial)) (fun he => by cases he) trivial (fun _ => id) (fun _ => .inl) (fun _ => .inr (.inr ⟨hknown, trivial⟩))
          (fun he => by cases hlife.symm.trans he) (fun _ => hknown)
      · rw [decide_eq_false hk]
        exact kept_free h hsound (fun other ho => .inl (hothers other ho)) (Function.update_self ..)
          (not_parent (by rw [hlife]; trivial)) (fun he => by cases he) trivial (fun _ => id) (fun _ => .inl) (fun hk' => absurd hk' hk)
          (fun he => by cases hlife.symm.trans he) (fun _ => hknown)
    · cases hstep
  | notify =>
    simp only [GuardedSet.step] at hstep
    split at hstep
    · rename_i child hs
      cases hstep
      rw [hs] at hstands
      have hlife := notifies_life hstands
      have hknown : p.Announced tid := h.speaks tid (by rw [hlife]; trivial)
      have hnone (c : Tid) : ¬ p.Parent tid c := by
        rintro (hp | ⟨hp, hne⟩) <;> cases hlife.symm.trans hp
        exact hne hs
      rw [hlife]
      change Kept inherited (p.turn _ tid .running)
      have haway : Function.update (fun j => (p.tids.station j).woken) tid .away tid = .away := Function.update_self ..
      exact kept_free h hsound (fun other ho => .inr (Function.update_of_ne ho _ fun j => (p.tids.station j).woken))
        haway hnone (fun he => by cases he) trivial (fun _ => id) (fun _ => .inl)
        (fun _ => .inr (.inr ⟨hknown, trivial⟩)) (fun he => by cases hlife.symm.trans he) (fun _ => hknown)
    · cases hstep
  | test =>
    have hsame : after found (p.life tid) .test = p.life tid := by cases p.life tid <;> rfl
    rw [hsame]
    simp only [GuardedSet.step] at hstep
    split at hstep
    · rename_i k hs
      split_ifs at hstep with hk <;> cases hstep
      · exact kept_waits h hsound rfl hothers hs (.inr (.inl rfl)) (.inr (.inr (.inr (Function.update_self ..))))
      · exact kept_waits h hsound rfl hothers hs (.inr (.inl rfl)) (.inr (.inr (.inl (Function.update_self ..))))
    · cases hstep
  | unlock =>
    simp only [GuardedSet.step] at hstep
    split at hstep
    · rename_i k hs
      cases hstep
      have hin := h.sound.found tid k hs
      rw [hs] at hstands
      obtain ⟨hlife, rfl⟩ := stands_waiting (.inr (.inr (.inr rfl))) hstands
      have hknown : p.Announced k := by
        rcases h.known k hin with hinherited | hremoves | ⟨hknown, _⟩
        · exact absurd hinherited (h.newborn k hlife).1
        · cases hlife.symm.trans hremoves
        · exact hknown
      rw [hlife]
      exact kept_free h hsound (fun other ho => .inl (hothers other ho)) (Function.update_self ..)
        (not_parent (by rw [hlife]; trivial)) (fun he => by cases he) trivial (fun _ => id) (fun _ => .inl) (fun _ => .inr (.inr ⟨hknown, trivial⟩)) (fun _ => hin)
        (fun _ => hknown)
    · cases hstep
  | wake =>
    have hsame : after found (p.life tid) .wake = p.life tid := by cases p.life tid <;> rfl
    rw [hsame]
    simp only [GuardedSet.step] at hstep
    split at hstep
    · rename_i k hs
      cases hstep
      exact kept_waits h hsound rfl hothers hs (.inr (.inr (.inl rfl))) (.inl (Function.update_self ..))
    · cases hstep

/-- The process sends a message, and only a thread that has left is not announced any more. -/
theorem kept_sent (h : Kept inherited p) (listeners : Listeners) (sent : List Request)
    (hannounced : ∀ tid, p.life tid ≠ .removes → p.Announced tid → ({ p with listeners, sent } : Process).Announced tid) :
    Kept inherited { p with listeners, sent } where
  sound := h.sound
  stands := h.stands
  known k hk := by
    refine (h.known k hk).imp_right fun hk => ?_
    by_cases hl : p.life k = .removes
    · exact .inl hl
    · exact .inr ((hk.resolve_left hl).imp_left (hannounced k hl))
  child := h.child
  announced tid child hp hreg := by
    have hnew := (h.child tid child hp).1
    exact hannounced child (fun he => by cases hnew.symm.trans he) (h.announced tid child hp hreg)
  alone := h.alone
  newborn := h.newborn
  speaks tid hl := by
    refine hannounced tid ?_ (h.speaks tid hl)
    intro hremoves
    rw [hremoves] at hl
    cases hl

theorem announced_snoc {r : Request} (h : p.Announced tid) (hr : announces tid r ≠ some none) :
    ({ p with sent := p.sent ++ [r] } : Process).Announced tid := by
  obtain ⟨⟨appName, ha⟩, hbuf⟩ := h
  refine ⟨?_, hbuf⟩
  dsimp only
  rw [Server.latest_snoc]
  cases hone : announces tid r with
  | none => exact ⟨appName, ha⟩
  | some a =>
    cases a with
    | none => exact absurd hone hr
    | some name => exact ⟨name, rfl⟩

/-- The kernel makes a thread with a number that the process has not inherited. -/
theorem kept_clone (h : Kept inherited p) (hfresh : child ∉ inherited) (hparent : p.life tid = .running)
    (hchild : p.life child = .gone) (hsound : (p.tids.place child (.arrives child)).Sound) :
    Kept inherited ((p.turn (p.tids.place child (.arrives child)) child .newborn).setLife tid (.clones child)) := by
  have hne : child ≠ tid := by
    rintro rfl
    cases hparent.symm.trans hchild
  have hmem : child ∉ p.tids.items := by
    intro hk
    rcases h.known child hk with hinherited | hremoves | ⟨_, hhere⟩
    · exact hfresh hinherited
    · cases hchild.symm.trans hremoves
    · rw [hchild] at hhere
      exact hhere
  generalize hp' : (p.turn (p.tids.place child (.arrives child)) child .newborn).setLife tid (.clones child) = p'
  have hitems : p'.tids.items = p.tids.items := by rw [← hp']; rfl
  have hannounced (other : Tid) : p'.Announced other ↔ p.Announced other := by rw [← hp']; rfl
  have hlife (other : Tid) (ht : other ≠ tid) (hc : other ≠ child) : p'.life other = p.life other := by
    rw [← hp']
    exact (Function.update_of_ne ht _ _).trans (Function.update_of_ne hc _ _)
  have hmine : p'.life tid = .clones child := by rw [← hp']; exact Function.update_self ..
  have hnew : p'.life child = .newborn := by
    rw [← hp']
    exact (Function.update_of_ne hne _ _).trans (Function.update_self ..)
  have hstation (other : Tid) (hc : other ≠ child) : p'.tids.station other = p.tids.station other := by
    rw [← hp']
    exact Function.update_of_ne hc _ _
  have harrives : p'.tids.station child = .arrives child := by rw [← hp']; exact Function.update_self ..
  have hnone (c : Tid) : ¬ p.Parent tid c := not_parent (by rw [hparent]; trivial) c
  -- a parent is the thread that has just cloned, or was one before
  have hcases {other c : Tid} (hp : p'.Parent other c) : other = tid ∧ c = child ∨ other ≠ tid ∧ p.Parent other c := by
    by_cases ho : other = tid
    · subst ho
      rcases hp with hp | ⟨hp, _⟩ <;> cases hmine.symm.trans hp
      exact .inl ⟨rfl, rfl⟩
    · refine .inr ⟨ho, ?_⟩
      have hoc : other ≠ child := by
        rintro rfl
        rcases hp with hp | ⟨hp, _⟩ <;> cases hnew.symm.trans hp
      unfold Parent at hp
      rwa [hlife other ho hoc, hstation other hoc] at hp
  constructor
  case sound =>
    rw [← hp']
    exact hsound
  case stands =>
    intro other
    by_cases hc : other = child
    · subst hc
      rw [hnew, harrives]
      exact .inl rfl
    · rw [hstation other hc]
      by_cases ht : other = tid
      · subst ht
        have hold := h.stands other
        rw [hparent] at hold
        rw [hmine]
        exact hold
      · rw [hlife other ht hc]
        exact h.stands other
  case known =>
    intro k hk
    rw [hitems] at hk
    have hkc : k ≠ child := by
      rintro rfl
      exact hmem hk
    rw [hannounced]
    by_cases ht : k = tid
    · subst ht
      rw [hmine]
      refine (h.known k hk).imp_right fun hold => .inr ⟨h.speaks k (by rw [hparent]; trivial), trivial⟩
    · rw [hlife k ht hkc]
      exact h.known k hk
  case child =>
    intro other c hp
    rw [hitems]
    rcases hcases hp with ⟨rfl, rfl⟩ | ⟨_, hold⟩
    · exact ⟨hnew, hmem⟩
    · obtain ⟨hborn, hnot⟩ := h.child other c hold
      refine ⟨?_, hnot⟩
      rw [hlife c ?_ ?_]
      · exact hborn
      · rintro rfl
        cases hborn.symm.trans hparent
      · rintro rfl
        cases hborn.symm.trans hchild
  case announced =>
    intro other c hp hreg
    rw [hannounced]
    rcases hcases hp with ⟨rfl, rfl⟩ | ⟨ht, hold⟩
    · cases hmine.symm.trans hreg
    · refine h.announced other c hold ?_
      rcases hold with hold | ⟨hold, _⟩
      · rw [hlife other ht] at hreg
        · exact hreg
        · rintro rfl
          cases hchild.symm.trans hold
      · exact hold
  case alone =>
    intro one other c hone hother
    have hold (u : Tid) (hu : p.Parent u child) : False := by cases (h.child u child hu).1.symm.trans hchild
    rcases hcases hone with ⟨hone, hc⟩ | ⟨_, hone⟩
    · rcases hcases hother with ⟨hother, _⟩ | ⟨_, hother⟩
      · rw [hone, hother]
      · rw [hc] at hother
        exact (hold other hother).elim
    · rcases hcases hother with ⟨_, hc⟩ | ⟨_, hother⟩
      · rw [hc] at hone
        exact (hold one hone).elim
      · exact h.alone one other c hone hother
  case newborn =>
    intro c hc
    by_cases hcc : c = child
    · subst hcc
      exact ⟨hfresh, .inr ⟨tid, .inl hmine⟩⟩
    · have hct : c ≠ tid := by
        rintro rfl
        cases hmine.symm.trans hc
      rw [hlife c hct hcc] at hc
      rw [hitems]
      refine (h.newborn c hc).imp_right fun hold => hold.imp_right ?_
      rintro ⟨other, hp⟩
      have ht : other ≠ tid := by
        rintro rfl
        exact hnone c hp
      have hoc : other ≠ child := by
        rintro rfl
        rcases hp with hp | ⟨hp, _⟩ <;> cases hchild.symm.trans hp
      refine ⟨other, ?_⟩
      unfold Parent
      rw [hlife other ht hoc, hstation other hoc]
      exact hp
  case speaks =>
    intro other hknown
    rw [hannounced]
    by_cases ht : other = tid
    · subst ht
      exact h.speaks other (by rw [hparent]; trivial)
    · have hoc : other ≠ child := by
        rintro rfl
        rw [hnew] at hknown
        cases hknown
      rw [hlife other ht hoc] at hknown
      exact h.speaks other hknown

theorem handshake_announces (tid pid : Tid) (appName : Option CString) :
    ∃ name, announces tid (Machine.handshake tid pid appName) = some (some name) := by
  cases appName with
  | none => exact ⟨_, if_pos rfl⟩
  | some name => exact ⟨name, if_pos rfl⟩

/-- The parent makes the handshake for its child, and goes to put it into the set. -/
theorem kept_init (h : Kept inherited p) (hparent : p.life tid = .clones child) (appName : Option CString)
    (hsound : (p.tids.place tid (.heads (.put child))).Sound) :
    Kept inherited (({ p with listeners := p.listeners.registerListener child, sent := p.sent ++ [Machine.handshake child tid appName] }
      : Process).turn (p.tids.place tid (.heads (.put child))) tid (.registers child)) := by
  have hother (other : Tid) : announces other (Machine.handshake child tid appName) ≠ some none := by
    cases appName <;> dsimp only [Machine.handshake, announces] <;> split_ifs <;> intro he <;> cases he
  have hsent := kept_sent h (p.listeners.registerListener child) (p.sent ++ [Machine.handshake child tid appName])
    (fun other _ ho => ⟨(announced_snoc ho (hother other)).1, Listeners.mem_registerListener.mpr (.inr ho.2)⟩)
  generalize hq : ({ p with listeners := p.listeners.registerListener child, sent := p.sent ++ [Machine.handshake child tid appName] }
    : Process) = q at hsent
  have hlife : q.life tid = .clones child := by rw [← hq]; exact hparent
  have htids : p.tids = q.tids := by rw [← hq]
  have hchild : q.Announced child := by
    obtain ⟨name, hname⟩ := handshake_announces child tid appName
    rw [← hq]
    refine ⟨⟨name, ?_⟩, Listeners.mem_registerListener.mpr (.inl rfl)⟩
    dsimp only
    rw [Server.latest_snoc, hname]
    rfl
  rw [htids] at hsound ⊢
  have hmine : (q.turn (q.tids.place tid (.heads (.put child))) tid (.registers child)).life tid = .registers child :=
    Function.update_self ..
  refine kept_turn hsent hsound (fun other ho => .inl (Function.update_of_ne ho _ _)) (.inl (Function.update_self ..))
    (fun c hp => ?_) (fun k hk => .inl hk) (fun k hk => .inl hk) (fun c hp => .inl ?_) (fun hk => ?_) (fun he => by cases he)
    (fun hnew => ?_) (fun c hc => ?_) (fun _ => hsent.speaks tid (by rw [hlife]; trivial))
  · rcases hp with hp | ⟨hp, _⟩ <;> cases hmine.symm.trans hp
    exact .inl hlife
  · rcases hp with hp | ⟨hp, _⟩ <;> cases hlife.symm.trans hp
    refine .inr ⟨hmine, ?_⟩
    dsimp only [turn, GuardedSet.place]
    rw [Function.update_self]
    intro he
    cases he
  · exact (hsent.known tid hk).imp_right fun _ =>
      .inr ⟨hsent.speaks tid (by rw [hlife]; trivial), trivial⟩
  · cases hlife.symm.trans hnew
  · cases hc
    exact .inr hchild

/-- A thread begins an errand of its own in the set. -/
theorem kept_leaves (h : Kept inherited p) {e : Errand Tid} (hsound : (p.tids.place tid (.heads e)).Sound)
    (hfrom : p.life tid = .running ∨ p.life tid = .parts) (hl : l = .leaves ∨ l = .removes)
    (hstands : Stands tid l (.heads e)) : Kept inherited (p.turn (p.tids.place tid (.heads e)) tid l) := by
  have hknown : p.Announced tid := h.speaks tid (by rcases hfrom with hf | hf <;> rw [hf] <;> trivial)
  have hmine : (p.tids.place tid (.heads e)).station tid = .heads e := Function.update_self ..
  refine kept_free h hsound (fun other ho => .inl (Function.update_of_ne ho _ _)) (by rw [hmine]; exact hstands)
    (not_parent ?_) ?_ ?_ (fun _ => id) (fun _ => .inl) (fun _ => ?_) (fun hnew => ?_) (fun _ => hknown)
  · rcases hfrom with hf | hf <;> rw [hf] <;> trivial
  · rintro rfl
    rcases hl with he | he <;> cases he
  · rcases hl with rfl | rfl <;> trivial
  · rcases hl with rfl | rfl
    · exact .inr (.inr ⟨hknown, trivial⟩)
    · exact .inr (.inl rfl)
  · rcases hfrom with hf | hf <;> cases hf.symm.trans hnew

theorem starts_spec {e : Errand Tid} {found : Bool} (h : p.tids.step tid (.starts e) = some (tids, found)) :
    tids = p.tids.place tid (.heads e) := by
  simp only [GuardedSet.step] at h
  split at h <;> cases h
  rfl

theorem comes_spec {k : Tid} {found : Bool} (h : p.tids.step tid (.comes k) = some (tids, found)) :
    tids = p.tids.place tid (.arrives k) := by
  simp only [GuardedSet.step] at h
  split at h <;> cases h
  rfl

theorem kept_step {e : Event} (h : Kept inherited p) (hstep : Step p e p')
    (hfresh : ∀ parent child, e.action = .clone parent child → child ∉ inherited) : Kept inherited p' := by
  obtain ⟨a, out⟩ := e
  have hstep : p.step a = some (p', out) := hstep
  cases a with
  | clone parent child =>
    obtain ⟨⟨tids, found⟩, hset, hstep⟩ := Option.bind_eq_some_iff.mp hstep
    dsimp only at hstep
    split_ifs at hstep with hlife
    cases hstep
    obtain rfl := comes_spec hset
    exact kept_clone h (hfresh parent child rfl) hlife.1 hlife.2 (sound_move h hset)
  | initProcess parent appName =>
    simp only [step] at hstep
    split at hstep
    · rename_i child hlife
      obtain ⟨⟨tids, found⟩, hset, hstep⟩ := Option.bind_eq_some_iff.mp hstep
      cases hstep
      obtain rfl := starts_spec hset
      exact kept_init h hlife appName (sound_move h hset)
    · cases hstep
  | move tid m =>
    have hmove : ¬ m.Begins ∧ ∃ tids found, p.tids.step tid m = some (tids, found) ∧
        p' = p.turn tids tid (after found (p.life tid) m) := by
      cases m with
      | starts e => cases hstep
      | comes k => cases hstep
      | _ =>
        obtain ⟨⟨tids, found⟩, hset, hstep⟩ := Option.bind_eq_some_iff.mp hstep
        cases hstep
        exact ⟨id, tids, found, hset, rfl⟩
    obtain ⟨hbegins, tids, found, hset, rfl⟩ := hmove
    exact kept_move h hbegins hset
  | request tid r =>
    simp only [step] at hstep
    split_ifs at hstep with hspeaks
    cases hstep
    refine kept_sent h _ _ fun other _ ho => announced_snoc ho fun he => ?_
    obtain ⟨_, _, hk⟩ := hspeaks
    cases r <;> first | cases he | (rcases hk with hk | hk <;> cases hk)
  | exit tid =>
    obtain ⟨⟨tids, found⟩, hset, hstep⟩ := Option.bind_eq_some_iff.mp hstep
    dsimp only at hstep
    split_ifs at hstep with hlife
    cases hstep
    obtain rfl := starts_spec hset
    exact kept_leaves h (sound_move h hset) (.inl hlife) (.inl rfl) (.inl rfl)
  | exitGroup tid =>
    obtain ⟨⟨tids, found⟩, hset, hstep⟩ := Option.bind_eq_some_iff.mp hstep
    dsimp only at hstep
    split_ifs at hstep with hlife
    cases hstep
    obtain rfl := starts_spec hset
    have hleft := kept_leaves h (sound_move h hset) (.inr hlife) (.inr rfl) (.inl rfl)
    refine kept_sent hleft _ _ fun other hother ho => announced_snoc ho ?_
    have hne : tid ≠ other := by
      rintro rfl
      exact hother (Function.update_self ..)
    rw [announces, if_neg hne]
    intro he
    cases he
  | vanish tid =>
    simp only [step] at hstep
    split_ifs at hstep with hlife
    cases hstep
    have haway := h.stands tid
    rw [hlife] at haway
    refine kept_free h h.sound (fun other _ => .inl rfl) haway (not_parent ?_) (fun he => by cases he) trivial
      (fun _ => id) (fun _ => .inl) (fun hk => ?_) (fun hnew => ?_) False.elim
    · rw [hlife]
      trivial
    · rcases h.known tid hk with hinherited | hremoves | ⟨_, hhere⟩
      · exact .inl hinherited
      · cases hlife.symm.trans hremoves
      · rw [hlife] at hhere
        exact hhere.elim
    · cases hlife.symm.trans hnew

end

section
variable {own : Tid} {appName : Option CString} {inherited : Finset Tid} {held : Listeners} {ts : Trace} {p : Process}
  {child : Tid}

theorem kept_start : Kept inherited (start own appName inherited held) := by
  have hlife (tid : Tid) : (start own appName inherited held).life tid = .running ∨
      (start own appName inherited held).life tid = .gone := by
    dsimp only [start]
    by_cases ht : tid = own
    · rw [ht, Function.update_self]
      exact .inl rfl
    · rw [Function.update_of_ne ht]
      exact .inr rfl
  have hnone (tid child : Tid) : ¬ (start own appName inherited held).Parent tid child := by
    rintro (hp | ⟨hp, _⟩) <;> rcases hlife tid with hl | hl <;> cases hl.symm.trans hp
  constructor
  case sound =>
    refine ⟨fun _ => iff_of_false id ?_, fun _ _ he => ?_, fun _ _ he => ?_⟩
    · rintro (hw | ⟨_, hw, _⟩)
    · cases he
    · cases he
  case stands =>
    intro tid
    rcases hlife tid with hl | hl <;> rw [hl] <;> rfl
  case known => exact fun tid hk => .inl hk
  case child => exact fun tid child hp => absurd hp (hnone tid child)
  case announced => exact fun tid child hp => absurd hp (hnone tid child)
  case alone => exact fun tid other child hp => absurd hp (hnone tid child)
  case newborn =>
    intro tid hnew
    rcases hlife tid with hl | hl <;> cases hl.symm.trans hnew
  case speaks =>
    intro tid hknown
    by_cases ht : tid = own
    · subst ht
      obtain ⟨name, hname⟩ := handshake_announces tid tid appName
      have hlatest := Server.latest_snoc tid [] (Machine.handshake tid tid appName)
      rw [hname, List.nil_append] at hlatest
      exact ⟨⟨name, hlatest⟩, Listeners.mem_registerListener.mpr (.inl rfl)⟩
    · have hgone : (start own appName inherited held).life tid = .gone := by
        dsimp only [start]
        rw [Function.update_of_ne ht]
      rw [hgone] at hknown
      cases hknown

/-- The kernel gives no thread a number that the process has inherited in its set. -/
def Fresh (inherited : Finset Tid) (ts : Trace) : Prop :=
  ∀ x ∈ ts, ∀ parent child, x.label.action = .clone parent child → child ∉ inherited

theorem kept_run (h : Run Step (start own appName inherited held) ts p) (hfresh : Fresh inherited ts) : Kept inherited p :=
  h.invariant_of (fun x : Transition Process Event => ∀ parent child, x.label.action = .clone parent child →
    child ∉ inherited) (Kept inherited)
    kept_start (fun _ _ _ hi hstep hc => kept_step hi hstep hc) hfresh

/-- A step by which a thread, or the parent that it waits for, gets on. -/
def Action.Forward : Action → Prop
  | .initProcess .. => True
  | .move _ m => m.Forward
  | _ => False

theorem move_enabled {tid : Tid} {m : SetMove Tid} (hm : m.Forward) (h : (p.tids.step tid m).isSome = true) :
    (p.step (.move tid m)).isSome = true := by
  obtain ⟨⟨tids, found⟩, hset⟩ := Option.isSome_iff_exists.mp h
  cases m with
  | starts e | comes k | wake => cases hm
  | _ =>
    simp only [step, hset]
    rfl

/-- A cloned thread that has not gone on yet is never the last that can. -/
theorem newborn_goes_on (h : Kept inherited p) (hnew : p.life child = .newborn) :
    ∃ a, Action.Forward a ∧ (p.step a).isSome = true := by
  have hgoes {tid : Tid} (hi : (∃ e, p.tids.station tid = .heads e) ∨ (∃ k, p.tids.station tid = .arrives k) ∨
      (∃ k, p.tids.station tid = .notifies k) ∨ (p.tids.station tid).Holds ∨
      ∃ k ∈ p.tids.items, p.tids.station tid = .sleeps k) : ∃ a, Action.Forward a ∧ (p.step a).isSome = true := by
    obtain ⟨j, m, hm, hset⟩ := GuardedSet.goes_on h.sound hi
    exact ⟨.move j m, hm, move_enabled hm hset⟩
  have hstands := h.stands child
  rw [hnew] at hstands
  rcases hstands with hs | hs | hs | hs
  · exact hgoes (.inr (.inl ⟨_, hs⟩))
  · exact hgoes (.inr (.inr (.inr (.inl (by rw [hs]; trivial)))))
  · obtain ⟨_, hmem | ⟨tid, hclones | ⟨hregisters, hne⟩⟩⟩ := h.newborn child hnew
    · exact hgoes (.inr (.inr (.inr (.inr ⟨child, hmem, hs⟩))))
    · have haway := h.stands tid
      rw [hclones] at haway
      have haway : p.tids.station tid = .away := haway
      refine ⟨.initProcess tid none, trivial, ?_⟩
      simp only [step, hclones, GuardedSet.step, haway]
      rfl
    · have hset := h.stands tid
      rw [hregisters] at hset
      rcases hset with hset | hset | hset
      · exact hgoes (.inl ⟨_, hset⟩)
      · exact hgoes (.inr (.inr (.inr (.inl (by rw [hset]; trivial)))))
      · exact absurd hset hne
  · exact hgoes (.inr (.inr (.inr (.inl (by rw [hs]; trivial)))))

end

/-- Two threads are cloned at once. One sleeps before its parent is done, the other comes late. -/
def twoClones : List Action :=
  [.clone 1 2, .move 2 .lock, .move 2 .test, .initProcess 1 none, .move 2 .wake, .move 1 .lock, .move 1 .act,
    .move 2 .lock, .move 2 .test, .move 2 .unlock, .request 2 (.close 2 "/c/a".toList), .clone 2 3, .move 1 .notify,
    .initProcess 2 none, .move 2 .lock, .move 2 .act, .move 2 .notify, .move 3 .lock, .move 3 .test, .move 3 .unlock,
    .exit 2, .move 2 .lock, .move 2 .act, .exitGroup 2]

end Process
end Capio.Node
