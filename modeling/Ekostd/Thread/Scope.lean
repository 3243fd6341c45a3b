/-
  `thread.rs` — `scope`, and the threads started through it.

  `Scope::spawn` remembers a thread when `pthread_create` made one; `scope`
  joins what is remembered after its body returned.  A body that unwinds passes
  over the joins, since nothing joins on drop.

  The threads run beside the body and end at any time; a join waits until its
  thread has.

  * `Safe`: a scope that was left has joined every thread once, so that no
    closure is running;
  * `safe_iff_meets`: this is so exactly in the runs in which the body does not
    unwind after it has started a thread.
-/
import Ekostd.Lib.Sts
import Ekostd.Lib.PosixFs

namespace Ekostd.Thread.Scope

open PosixFs

/-- A `pthread_t`. -/
abbrev Tid := ℕ

/-- How `f` left. -/
inductive Exit where
  | returned
  | unwound
  deriving DecidableEq

/-- Where the caller of `scope` is: in `f`, in `spawn` after `pthread_create`, in the joins, or
    out of it. -/
inductive Pc where
  | body
  | push (tid : Tid)
  | join (todo : List Tid)
  | left (exit : Exit)
  deriving DecidableEq

/-- The caller and its `Scope`, the threads that were started and whether they are running, and
    the joins that returned. -/
structure State where
  pc : Pc
  handles : List Tid
  started : List Tid
  running : Tid → Bool
  joined : List Tid

/-- `f` calls `spawn`, in which `pthread_create` answers `rc`, and returns or unwinds; the caller
    goes on in `spawn` or in the joins; a thread's closure ends. -/
inductive Act where
  | spawn (rc : Except Errno Tid)
  | push
  | ret
  | unwind
  | join
  | finish (tid : Tid)
  deriving DecidableEq

/-- One step.  A thread that was not joined keeps its identifier. -/
def State.step (s : State) : Act → Option State
  | .spawn (.ok tid) =>
    if s.pc = .body ∧ tid ∉ s.started then
      some { s with
        pc := .push tid, started := s.started ++ [tid],
        running := Function.update s.running tid true }
    else none
  | .spawn (.error _) => if s.pc = .body then some s else none
  | .push =>
    match s.pc with
    | .push tid => some { s with pc := .body, handles := s.handles ++ [tid] }
    | _ => none
  | .ret => if s.pc = .body then some { s with pc := .join s.handles } else none
  | .unwind => if s.pc = .body then some { s with pc := .left .unwound } else none
  | .join =>
    match s.pc with
    | .join [] => some { s with pc := .left .returned }
    | .join (tid :: todo) =>
      if s.running tid then none
      else some { s with pc := .join todo, joined := s.joined ++ [tid] }
    | _ => none
  | .finish tid =>
    if s.running tid then some { s with running := Function.update s.running tid false } else none

/-- One call of `scope`. -/
def system : Sts State Act where
  init := ⟨.body, [], [], fun _ => false, []⟩
  step := State.step

/-- Every thread was joined exactly once, and none is running. -/
def JoinedAll (s : State) : Prop :=
  ∀ tid ∈ s.started, s.joined.count tid = 1 ∧ s.running tid = false

/-- A scope that was left has joined all its threads. -/
def Safe (s : State) : Prop := ∀ exit, s.pc = .left exit → JoinedAll s

/-- A body does not unwind after it has started a thread. -/
def Allowed (s : State) (a : Act) : Prop := a = .unwind → s.started = []

instance (s : State) (a : Act) : Decidable (Allowed s a) :=
  inferInstanceAs (Decidable (_ → _))

/-! ## What a step can do -/

/-- The steps, one constructor for each. -/
inductive Step (s s' : State) : Act → Prop
  | spawn (tid : Tid) : s.pc = .body → tid ∉ s.started →
      s' = { s with
        pc := .push tid, started := s.started ++ [tid],
        running := Function.update s.running tid true } → Step s s' (.spawn (.ok tid))
  | failed (e : Errno) : s' = s → Step s s' (.spawn (.error e))
  | push (tid : Tid) : s.pc = .push tid →
      s' = { s with pc := .body, handles := s.handles ++ [tid] } → Step s s' .push
  | ret : s.pc = .body → s' = { s with pc := .join s.handles } → Step s s' .ret
  | unwind : s.pc = .body → s' = { s with pc := .left .unwound } → Step s s' .unwind
  | join (tid : Tid) (todo : List Tid) : s.pc = .join (tid :: todo) → s.running tid = false →
      s' = { s with pc := .join todo, joined := s.joined ++ [tid] } → Step s s' .join
  | leave : s.pc = .join [] → s' = { s with pc := .left .returned } → Step s s' .join
  | finish (tid : Tid) : s' = { s with running := Function.update s.running tid false } →
      Step s s' (.finish tid)

theorem step_cases {s s' : State} {a : Act} (h : system.step s a = some s') : Step s s' a := by
  cases a with
  | spawn rc =>
    rcases rc with e | tid <;> simp only [system, State.step, Option.ite_none_right_eq_some] at h
    · exact .failed e (Option.some.inj h.2).symm
    · exact .spawn tid h.1.1 h.1.2 (Option.some.inj h.2).symm
  | push =>
    simp only [system, State.step] at h
    split at h
    next tid hpc => exact .push tid hpc (Option.some.inj h).symm
    next => cases h
  | ret =>
    simp only [system, State.step, Option.ite_none_right_eq_some] at h
    exact .ret h.1 (Option.some.inj h.2).symm
  | unwind =>
    simp only [system, State.step, Option.ite_none_right_eq_some] at h
    exact .unwind h.1 (Option.some.inj h.2).symm
  | join =>
    simp only [system, State.step] at h
    split at h
    next hpc => exact .leave hpc (Option.some.inj h).symm
    next tid todo hpc =>
      rw [Option.ite_none_left_eq_some] at h
      exact .join tid todo hpc (eq_false_of_ne_true h.1) (Option.some.inj h.2).symm
    next => cases h
  | finish tid =>
    simp only [system, State.step, Option.ite_none_right_eq_some] at h
    exact .finish tid (Option.some.inj h.2).symm

/-! ## The threads that are remembered -/

/-- What is remembered and joined, by where the caller is. -/
def Books (s : State) : Prop :=
  match s.pc with
  | .body => s.started = s.handles ∧ s.joined = []
  | .push tid => s.started = s.handles ++ [tid] ∧ s.joined = []
  | .join todo => s.started = s.joined ++ todo
  | .left .returned => s.started = s.joined
  | .left .unwound => s.joined = []

/-- The invariant: the books are right, no identifier is used twice, and what was joined has
    ended. -/
structure Inv (s : State) : Prop where
  books : Books s
  nodup : s.started.Nodup
  ended : ∀ tid ∈ s.joined, s.running tid = false

theorem Inv.joined_subset {s : State} (h : Inv s) : s.joined ⊆ s.started := by
  have hbooks := h.books
  unfold Books at hbooks
  split at hbooks <;> intro tid htid <;> simp_all

theorem Inv.inductive : system.Inductive Inv where
  init := ⟨⟨rfl, rfl⟩, .nil, by simp [system]⟩
  step {s a s'} h hstep := by
    have hsubset := h.joined_subset
    obtain ⟨hbooks, hnodup, hended⟩ := h
    unfold Books at hbooks
    cases step_cases hstep with
    | spawn tid hpc hnew hs' =>
      subst hs'
      rw [hpc] at hbooks
      refine ⟨⟨by rw [hbooks.1], hbooks.2⟩, ?_, ?_⟩
      · exact hnodup.append (List.nodup_singleton tid) (by simpa using hnew)
      · intro t ht
        have hne : t ≠ tid := by
          rintro rfl
          exact hnew (hsubset ht)
        simpa [Function.update_of_ne hne] using hended t ht
    | failed e hs' =>
      subst hs'
      exact ⟨hbooks, hnodup, hended⟩
    | push tid hpc hs' =>
      subst hs'
      rw [hpc] at hbooks
      exact ⟨hbooks, hnodup, hended⟩
    | ret hpc hs' =>
      subst hs'
      rw [hpc] at hbooks
      exact ⟨by simp [Books, hbooks.1, hbooks.2], hnodup, hended⟩
    | unwind hpc hs' =>
      subst hs'
      rw [hpc] at hbooks
      exact ⟨hbooks.2, hnodup, hended⟩
    | join tid todo hpc hend hs' =>
      subst hs'
      rw [hpc] at hbooks
      refine ⟨by simp [Books, hbooks], hnodup, ?_⟩
      intro t ht
      rcases List.mem_append.1 ht with ht | ht
      · exact hended t ht
      · rw [List.mem_singleton.1 ht]
        exact hend
    | leave hpc hs' =>
      subst hs'
      rw [hpc] at hbooks
      exact ⟨by simpa [Books] using hbooks, hnodup, hended⟩
    | finish tid hs' =>
      subst hs'
      refine ⟨hbooks, hnodup, ?_⟩
      intro t ht
      show Function.update s.running tid false t = false
      by_cases hne : t = tid
      · rw [hne, Function.update_self]
      · rw [Function.update_of_ne hne]
        exact hended t ht

/-- **A scope is safe unless it was unwound out of** with threads started. -/
theorem Inv.safe_iff {s : State} (h : Inv s) :
    Safe s ↔ (s.pc = .left .unwound → s.started = []) := by
  have hbooks := h.books
  constructor
  · intro hsafe hpc
    rw [Books, hpc] at hbooks
    rw [List.eq_nil_iff_forall_not_mem]
    intro tid htid
    have hcount := (hsafe .unwound hpc tid htid).1
    rw [hbooks] at hcount
    cases hcount
  · rintro hnil exit hpc tid htid
    cases exit with
    | returned =>
      rw [Books, hpc] at hbooks
      have hjoined : tid ∈ s.joined := hbooks ▸ htid
      exact ⟨List.count_eq_one_of_mem (hbooks ▸ h.nodup) hjoined, h.ended tid hjoined⟩
    | unwound =>
      rw [hnil hpc] at htid
      cases htid

/-- **A step loses safety** exactly if it unwinds with threads started. -/
theorem safe_step {s s' : State} {a : Act} (h : Inv s) (hstep : system.step s a = some s') :
    Safe s' ↔ Safe s ∧ Allowed s a := by
  rw [(Inv.inductive.step h hstep).safe_iff, h.safe_iff]
  cases step_cases hstep with
  | spawn tid hpc hnew hs' => simp [hs', hpc, Allowed]
  | failed e hs' => simp [hs', Allowed]
  | push tid hpc hs' => simp [hs', hpc, Allowed]
  | ret hpc hs' => simp [hs', hpc, Allowed]
  | unwind hpc hs' => simp [hs', hpc, Allowed]
  | join tid todo hpc hend hs' => simp [hs', hpc, Allowed]
  | leave hpc hs' => simp [hs', hpc, Allowed]
  | finish tid hs' => simp [hs', Allowed]

/-- **A scope joins everything exactly in the runs** in which its body does not unwind after it
    has started a thread. -/
theorem safe_iff_meets {as : List Act} {s : State} (h : system.run as = some s) :
    Safe s ↔ system.Meets Allowed as :=
  Sts.iff_meets Inv.inductive (by simp [Safe, system]) safe_step h

/-- One thread, and one that could not be made, in a body that returns. -/
theorem safe_iff_meets_one : ∃ s, system.run
    [.spawn (.ok 7), .push, .spawn (.error Errno.EAGAIN), .ret, .finish 7, .join, .join] = some s ∧
    s.pc = .left .returned ∧ Safe s := by
  obtain ⟨s, hs, hpc⟩ : ∃ s, system.run
      [.spawn (.ok 7), .push, .spawn (.error Errno.EAGAIN), .ret, .finish 7, .join, .join] =
        some s ∧ s.pc = .left .returned := ⟨_, rfl, rfl⟩
  exact ⟨s, hs, hpc, (safe_iff_meets hs).2 (Sts.MeetsFrom.meets (by decide))⟩

/-- A body that unwinds leaves its thread running. -/
theorem unwound_not_safe : ¬ ∀ as s, system.run as = some s → Safe s := by
  intro h
  have hsafe := h [.spawn (.ok 7), .push, .unwind] _ rfl
  exact absurd (hsafe .unwound rfl 7 (by simp)).1 (by decide)

end Ekostd.Thread.Scope
