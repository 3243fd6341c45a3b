/-
  `thread.rs` — `RwLock`, over a lock of POSIX threads.

  `read` and `write` make their guard whatever the lock answered, and a guard
  unlocks when it is dropped.  A guard may be dropped by another thread than
  the one it was made in, as both guards are `Send`.

  * `exclusive`: as long as no thread asks for the lock against its own hold or
    beyond the reader limit, and every guard is dropped where it was made, the
    guards exclude each other and every drop gives up the guard's own hold;
  * `not_exclusive`: a thread that asks for the lock while it holds it gets a
    guard without a hold.
-/
import Ekostd.Lib.Sts
import Ekostd.Lib.PosixRwLock

namespace Ekostd.Thread.RwLock

open PosixRwLock

/-- A `ReadGuard` or a `WriteGuard`, its number, and the thread it was made in. -/
structure Guard (ι : Type*) where
  id : ℕ
  mode : Mode
  thread : ι
  deriving DecidableEq

/-- The raw lock, the guards that live, the next number, and what every drop so far gave up. -/
structure State (ι : Type*) where
  raw : List (Hold ι ℕ)
  guards : List (Guard ι)
  next : ℕ
  dropped : List (Guard ι × Option (Hold ι ℕ))

/-- A thread calls `read` or `write` and the raw lock answers `code`, or it drops a guard; an
    unlock that is undefined gives up the hold at `pick`. -/
inductive Act (ι : Type*) where
  | lock (t : ι) (m : Mode) (code : Code)
  | drop (t : ι) (g : Guard ι) (pick : ℕ)

variable {ι : Type*} [DecidableEq ι]

namespace State

/-- A call of the raw lock and the guard made after it, whose code nobody looks at. -/
def lock (limit : ℕ) (s : State ι) (t : ι) (m : Mode) (code : Code) : Option (State ι) :=
  (acquire limit s.raw t m s.next code).map fun raw =>
    { s with raw := raw, guards := ⟨s.next, m, t⟩ :: s.guards, next := s.next + 1 }

/-- `RwLock::read`. -/
def read (limit : ℕ) (s : State ι) (t : ι) (code : Code) : Option (State ι) :=
  s.lock limit t .read code

/-- `RwLock::write`. -/
def write (limit : ℕ) (s : State ι) (t : ι) (code : Code) : Option (State ι) :=
  s.lock limit t .write code

/-- `drop` of a `ReadGuard` or a `WriteGuard`, in the thread `t`. -/
def drop (s : State ι) (t : ι) (g : Guard ι) (pick : ℕ) : Option (State ι) :=
  if g ∈ s.guards then
    some { s with
      raw := release s.raw t g.id pick
      guards := s.guards.erase g
      dropped := s.dropped ++ [(g, released s.raw t g.id pick)] }
  else none

/-- One call of one thread. -/
def step (limit : ℕ) (s : State ι) : Act ι → Option (State ι)
  | .lock t .read code => s.read limit t code
  | .lock t .write code => s.write limit t code
  | .drop t g pick => s.drop t g pick

end State

/-- A lock whose raw lock counts at most `limit` readers, used by the threads `ι`. -/
def system (ι : Type*) [DecidableEq ι] (limit : ℕ) : Sts (State ι) (Act ι) where
  init := ⟨[], [], 0, []⟩
  step := State.step limit

/-- The hold a guard stands for. -/
def Guard.hold (g : Guard ι) : Hold ι ℕ := ⟨g.thread, g.mode, g.id⟩

omit [DecidableEq ι] in
theorem hold_injective : Function.Injective (Guard.hold : Guard ι → Hold ι ℕ) := by
  rintro ⟨id, m, t⟩ ⟨id', m', t'⟩ h
  simp only [Guard.hold, Hold.mk.injEq] at h
  simp [h]

/-- At most one `WriteGuard` lives, and beside it no `ReadGuard`; and every guard that was dropped
    gave up the hold that it had made. -/
structure Excludes (s : State ι) : Prop where
  guards : s.guards.Pairwise fun g g' => g.mode = .read ∧ g'.mode = .read
  dropped : ∀ d ∈ s.dropped, d.2 = some d.1.hold

/-- A call is made in order: a lock is asked for by a thread that holds none against it, below the
    reader limit, and a guard is dropped in the thread it was made in. -/
def InOrder (limit : ℕ) (s : State ι) : Act ι → Prop
  | .lock t m _ => ¬ Conflicts s.raw t m ∧ ¬ AtLimit limit s.raw m
  | .drop t g _ => g.thread = t

instance (limit : ℕ) (s : State ι) : (a : Act ι) → Decidable (InOrder limit s a)
  | .lock t m _ => inferInstanceAs (Decidable (¬ Conflicts s.raw t m ∧ ¬ AtLimit limit s.raw m))
  | .drop t g _ => inferInstanceAs (Decidable (g.thread = t))

/-- Every guard stands for a hold, and the holds exclude each other. -/
structure Inv (s : State ι) : Prop where
  raw : s.raw = s.guards.map Guard.hold
  exclusive : Exclusive s.raw
  fresh : ∀ g ∈ s.guards, g.id < s.next
  distinct : s.guards.Pairwise fun g g' => g.id ≠ g'.id
  dropped : ∀ d ∈ s.dropped, d.2 = some d.1.hold

omit [DecidableEq ι] in
theorem Inv.excludes {s : State ι} (h : Inv s) : Excludes s := by
  refine ⟨?_, h.dropped⟩
  have hx := h.exclusive
  rw [Exclusive, h.raw, List.pairwise_map] at hx
  exact hx

omit [DecidableEq ι] in
theorem Inv.guard_eq {s : State ι} (h : Inv s) {g g' : Guard ι} (hg : g ∈ s.guards)
    (hg' : g' ∈ s.guards) (hid : g.id = g'.id) : g = g' :=
  List.inj_on_of_nodup_map (List.pairwise_map.2 h.distinct) hg hg' hid

theorem Inv.lock {limit : ℕ} {s s' : State ι} {t : ι} {m : Mode} {code : Code} (h : Inv s)
    (hc : InOrder limit s (.lock t m code)) (hs : s.lock limit t m code = some s') : Inv s' := by
  obtain ⟨raw, hraw, rfl⟩ := Option.map_eq_some_iff.1 hs
  have hx := h.exclusive.acquire hraw
  cases code with
  | ok =>
    simp only [acquire] at hraw
    split_ifs at hraw
    cases hraw
    refine ⟨by simp [h.raw, Guard.hold], hx, fun g hg => ?_, ?_, h.dropped⟩
    · rcases List.mem_cons.1 hg with rfl | hg
      · exact Nat.lt_succ_self _
      · exact (h.fresh g hg).trans (Nat.lt_succ_self _)
    · exact List.pairwise_cons.2 ⟨fun g hg => (h.fresh g hg).ne', h.distinct⟩
  | EDEADLK =>
    simp only [acquire] at hraw
    split_ifs at hraw with hconf
    exact absurd hconf hc.1
  | EAGAIN =>
    simp only [acquire] at hraw
    split_ifs at hraw with hlim
    exact absurd hlim hc.2

theorem Inv.drop {s s' : State ι} {g : Guard ι} {pick : ℕ} (h : Inv s)
    (hs : s.drop g.thread g pick = some s') : Inv s' := by
  simp only [State.drop] at hs
  split_ifs at hs with hg
  cases hs
  have hmem : g.hold ∈ s.raw := by rw [h.raw]; exact List.mem_map_of_mem hg
  have hown : released s.raw g.thread g.id pick = some g.hold := by
    refine released_eq hmem (fun h' hh' htag => ?_) pick
    rw [h.raw] at hh'
    obtain ⟨g', hg', rfl⟩ := List.mem_map.1 hh'
    rw [h.guard_eq hg' hg htag]
  refine ⟨?_, h.exclusive.release _ _ _, fun g' hg' => h.fresh g' (List.mem_of_mem_erase hg'),
    h.distinct.sublist List.erase_sublist, fun d hd => ?_⟩
  · simp only [release, hown]
    rw [h.raw, List.map_erase hold_injective]
  · rcases List.mem_append.1 hd with hd | hd
    · exact h.dropped d hd
    · rw [List.mem_singleton.1 hd]; exact hown

/-- **What one call preserves**, if it is made in order. -/
theorem Inv.step {limit : ℕ} {s s' : State ι} {a : Act ι} (h : Inv s) (hc : InOrder limit s a)
    (hs : s.step limit a = some s') : Inv s' := by
  cases a with
  | lock t m code => cases m <;> exact h.lock hc hs
  | drop t g pick =>
    obtain rfl : g.thread = t := hc
    exact h.drop hs

/-- **Runs whose calls are made in order**: the guards exclude each other, and every drop gives up
    the hold its guard had made. -/
theorem exclusive {limit : ℕ} {as : List (Act ι)} {s : State ι}
    (hc : (system ι limit).Meets (InOrder limit) as) (h : (system ι limit).run as = some s) :
    Excludes s :=
  (Sts.run_of_meets (I := Inv)
    ⟨rfl, by simp [system, Exclusive], by simp [system], List.Pairwise.nil, by simp [system]⟩
    (fun hI hc ha => hI.step hc ha) hc h).excludes

/-- A writer, and after it two readers. -/
theorem exclusive_readers : Excludes (((system (Fin 2) 2).run
    [.lock 0 .write .ok, .drop 0 ⟨0, .write, 0⟩ 0, .lock 0 .read .ok, .lock 1 .read .ok]).get
      (by decide)) :=
  exclusive (Sts.MeetsFrom.meets (by decide)) (Option.some_get _).symm

/-- **A thread that holds the lock asks for it again**: it gets a guard without a hold. -/
theorem not_exclusive : ∃ s : State (Fin 2),
    (system (Fin 2) 2).run [.lock 0 .write .ok, .lock 0 .read .EDEADLK] = some s ∧
    ¬ Excludes s := by
  refine ⟨_, rfl, fun h => ?_⟩
  have := h.guards
  revert this
  decide

end Ekostd.Thread.RwLock
