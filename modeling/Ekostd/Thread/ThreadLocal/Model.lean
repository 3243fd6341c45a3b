/-
  `thread.rs` — `ThreadLocal`, any number of them, on any number of threads.

  A call of `with` goes through `key`, in which the object's first uses race to
  create a key and to publish it, and then reads its thread's slot of that key.
  Every access of the word and every `pthread` call is a step.  While `init` or
  `f` runs, its thread may call `with` again, on other objects or, from `f`, on
  the same one; so a thread has a stack of calls.

  A key number is free again when the key was deleted.  For the books, a key
  says for whom it is live, a box in the heap whose it is, and three counters
  of what has happened are kept: the keys each object was used with, the runs
  of its initialiser, and the value that a thread has left in it last.
-/
import Ekostd.Lib.Sts

namespace Ekostd.Thread.ThreadLocal

/-- A `pthread_key_t`. -/
abbrev Key := ℕ

/-- The address of a box. -/
abbrev Ptr := ℕ

/-- Where a call of `with` is: in `key`, loading the word, creating a key, publishing it, or
    deleting it after another was published; then reading the slot of its key, in `init`, storing
    the box, or in `f`. -/
inductive Pc where
  | load
  | create
  | publish (created : Key)
  | delete (created theirs : Key)
  | get (key : Key)
  | init (key : Key)
  | set (key : Key) (boxed : Ptr)
  | run (key : Key) (ptr : Ptr)
  deriving DecidableEq

/-- A key: not live, or created by the thread `t` for the object `o`, and published in it. -/
inductive Status (ι ο : Type*) where
  | dead
  | created (t : ι) (o : ο)
  | published (o : ο)
  deriving DecidableEq

/-- A box, and whose it is. -/
structure Box (ι ο V : Type*) where
  value : V
  thread : ι
  obj : ο

variable {ι ο V : Type*}

/-- The words of the objects, the keys, the slots, the heap, the calls of the threads, innermost
    first; and the books. -/
structure State (ι ο V : Type*) where
  word : ο → ℕ
  key : Key → Status ι ο
  slot : ι → Key → Option Ptr
  heap : Ptr → Option (Box ι ο V)
  stack : ι → List (ο × Pc)
  used : ο → List Key
  inits : ι → ο → ℕ
  last : ι → ο → Option V

/-- A thread calls `with`; `pthread_key_create` answers; `init` returns and its value is boxed;
    `f` writes; or the call goes on, and from `f` leaves. -/
inductive Act (ι ο V : Type*) where
  | call (t : ι) (o : ο)
  | create (t : ι) (created : Option Key)
  | init (t : ι) (value : V) (boxed : Ptr)
  | write (t : ι) (value : V)
  | step (t : ι)

/-- Whether a closure of the caller is running. -/
def Pc.inClosure : Pc → Bool
  | init _ | run _ _ => true
  | _ => false

/-- Whether the initialiser is running. -/
def Pc.inInit : Pc → Bool
  | init _ => true
  | _ => false

variable [DecidableEq ι] [DecidableEq ο]

namespace State

/-- Whether `t` may call `with` on `o`: it is in no call or in a closure, and no initialiser of
    `o` is running on it. -/
def mayCall (s : State ι ο V) (t : ι) (o : ο) : Bool :=
  ((s.stack t).head?.all fun fr => fr.2.inClosure) &&
    (s.stack t).all fun fr => !(fr.2.inInit && fr.1 = o)

/-- The calls of `t` become `frames`. -/
def goto (s : State ι ο V) (t : ι) (frames : List (ο × Pc)) : State ι ο V :=
  { s with stack := Function.update s.stack t frames }

omit [DecidableEq ο] in
@[simp] theorem goto_stack_self (s : State ι ο V) (t : ι) (frames : List (ο × Pc)) :
    (s.goto t frames).stack t = frames := by
  simp [goto]

omit [DecidableEq ο] in
theorem goto_stack_of_ne (s : State ι ο V) {t u : ι} (h : u ≠ t) (frames : List (ο × Pc)) :
    (s.goto t frames).stack u = s.stack u := by
  simp [goto, h]

omit [DecidableEq ο] in
theorem forall_goto {s s₁ : State ι ο V} {t : ι} {frames : List (ο × Pc)}
    {P : ι → ο × Pc → Prop} (hstack : s₁.stack = s.stack) (hself : ∀ fr ∈ frames, P t fr)
    (hother : ∀ u ≠ t, ∀ fr ∈ s.stack u, P u fr) :
    ∀ u, ∀ fr ∈ (s₁.goto t frames).stack u, P u fr := by
  intro u fr hfr
  by_cases hut : u = t
  · subst hut
    rw [goto_stack_self] at hfr
    exact hself fr hfr
  · rw [goto_stack_of_ne s₁ hut, hstack] at hfr
    exact hother u hut fr hfr

/-- A key is created for `o`: its slots are null. -/
def create (s : State ι ο V) (t : ι) (o : ο) (k : Key) : State ι ο V :=
  { s with
    key := Function.update s.key k (.created t o)
    slot := fun u => Function.update (s.slot u) k none }

/-- The key `k` is published in `o`. -/
def publish (s : State ι ο V) (o : ο) (k : Key) : State ι ο V :=
  { s with
    word := Function.update s.word o (k + 1)
    key := Function.update s.key k (.published o) }

/-- The slot `k` of `t` is read for `o`. -/
def read (s : State ι ο V) (o : ο) (k : Key) : State ι ο V :=
  { s with used := Function.update s.used o (k :: s.used o) }

/-- The initialiser of `o` begins on `t`. -/
def beginInit (s : State ι ο V) (t : ι) (o : ο) : State ι ο V :=
  { s with
    inits := Function.update s.inits t (Function.update (s.inits t) o (s.inits t o + 1)) }

/-- The value of `t` in `o` becomes `v`, in the box at `p`. -/
def leave (s : State ι ο V) (t : ι) (o : ο) (p : Ptr) (v : V) : State ι ο V :=
  { s with
    heap := Function.update s.heap p (some ⟨v, t, o⟩)
    last := Function.update s.last t (Function.update (s.last t) o (some v)) }

/-- The box at `p` is stored in the slot `k` of `t`. -/
def store (s : State ι ο V) (t : ι) (k : Key) (p : Ptr) : State ι ο V :=
  { s with slot := Function.update s.slot t (Function.update (s.slot t) k (some p)) }

/-- The next access of a call, and in `f` its end. -/
def next (s : State ι ο V) (t : ι) (o : ο) (below : List (ο × Pc)) : Pc → Option (State ι ο V)
  | .load =>
    some (s.goto t ((o, if s.word o = 0 then .create else .get (s.word o - 1)) :: below))
  | .publish k =>
    if s.word o = 0 then some ((s.publish o k).goto t ((o, .get k) :: below))
    else some (s.goto t ((o, .delete k (s.word o - 1)) :: below))
  | .delete k theirs =>
    some ({ s with key := Function.update s.key k .dead }.goto t ((o, .get theirs) :: below))
  | .get k =>
    match s.slot t k with
    | some p => some ((s.read o k).goto t ((o, .run k p) :: below))
    | none => some (((s.read o k).beginInit t o).goto t ((o, .init k) :: below))
  | .set k p =>
    (s.heap p).map fun box =>
      ((s.leave t o p box.value).store t k p).goto t ((o, .run k p) :: below)
  | .run _ _ => some (s.goto t below)
  | .create | .init _ => none

/-- One step of one thread. -/
def step (s : State ι ο V) : Act ι ο V → Option (State ι ο V)
  | .call t o => if s.mayCall t o then some (s.goto t ((o, .load) :: s.stack t)) else none
  | .create t created =>
    match s.stack t with
    | (o, .create) :: below =>
      match created with
      -- `with` returns `None`.
      | none => some (s.goto t below)
      | some k =>
        if s.key k = .dead then some ((s.create t o k).goto t ((o, .publish k) :: below)) else none
    | _ => none
  | .init t value boxed =>
    match s.stack t with
    | (o, .init k) :: below =>
      if (s.heap boxed).isNone then
        some ({ s with heap := Function.update s.heap boxed (some ⟨value, t, o⟩) }.goto t
          ((o, .set k boxed) :: below))
      else none
    | _ => none
  | .write t value =>
    match s.stack t with
    | (o, .run _ p) :: _ => some (s.leave t o p value)
    | _ => none
  | .step t =>
    match s.stack t with
    | (o, pc) :: below => s.next t o below pc
    | [] => none

end State

/-- The threads `ι` with the objects `ο`. -/
def system (ι ο V : Type*) [DecidableEq ι] [DecidableEq ο] : Sts (State ι ο V) (Act ι ο V) where
  init := ⟨fun _ => 0, fun _ => .dead, fun _ _ => none, fun _ => none, fun _ => [], fun _ => [],
    fun _ _ => 0, fun _ _ => none⟩
  step := State.step

/-! ## What a step can do -/

/-- The steps, one constructor for each. -/
inductive Step (s s' : State ι ο V) : Prop
  | call (t : ι) (o : ο) : s.mayCall t o = true → s' = s.goto t ((o, .load) :: s.stack t) →
      Step s s'
  | noKey (t : ι) (o : ο) (below : List (ο × Pc)) : s.stack t = (o, .create) :: below →
      s' = s.goto t below → Step s s'
  | create (t : ι) (o : ο) (below : List (ο × Pc)) (k : Key) : s.stack t = (o, .create) :: below →
      s.key k = .dead → s' = (s.create t o k).goto t ((o, .publish k) :: below) → Step s s'
  | loadZero (t : ι) (o : ο) (below : List (ο × Pc)) : s.stack t = (o, .load) :: below →
      s.word o = 0 → s' = s.goto t ((o, .create) :: below) → Step s s'
  | load (t : ι) (o : ο) (below : List (ο × Pc)) (k : Key) : s.stack t = (o, .load) :: below →
      s.word o = k + 1 → s' = s.goto t ((o, .get k) :: below) → Step s s'
  | publish (t : ι) (o : ο) (below : List (ο × Pc)) (k : Key) :
      s.stack t = (o, .publish k) :: below → s.word o = 0 →
      s' = (s.publish o k).goto t ((o, .get k) :: below) → Step s s'
  | lose (t : ι) (o : ο) (below : List (ο × Pc)) (k theirs : Key) :
      s.stack t = (o, .publish k) :: below → s.word o = theirs + 1 →
      s' = s.goto t ((o, .delete k theirs) :: below) → Step s s'
  | delete (t : ι) (o : ο) (below : List (ο × Pc)) (k theirs : Key) :
      s.stack t = (o, .delete k theirs) :: below →
      s' = { s with key := Function.update s.key k .dead }.goto t ((o, .get theirs) :: below) →
      Step s s'
  | get (t : ι) (o : ο) (below : List (ο × Pc)) (k : Key) (p : Ptr) :
      s.stack t = (o, .get k) :: below → s.slot t k = some p →
      s' = (s.read o k).goto t ((o, .run k p) :: below) → Step s s'
  | getNull (t : ι) (o : ο) (below : List (ο × Pc)) (k : Key) :
      s.stack t = (o, .get k) :: below → s.slot t k = none →
      s' = ((s.read o k).beginInit t o).goto t ((o, .init k) :: below) → Step s s'
  | init (t : ι) (o : ο) (below : List (ο × Pc)) (k : Key) (v : V) (p : Ptr) :
      s.stack t = (o, .init k) :: below → s.heap p = none →
      s' = { s with heap := Function.update s.heap p (some ⟨v, t, o⟩) }.goto t
        ((o, .set k p) :: below) → Step s s'
  | set (t : ι) (o : ο) (below : List (ο × Pc)) (k : Key) (p : Ptr) (box : Box ι ο V) :
      s.stack t = (o, .set k p) :: below → s.heap p = some box →
      s' = ((s.leave t o p box.value).store t k p).goto t ((o, .run k p) :: below) → Step s s'
  | write (t : ι) (o : ο) (below : List (ο × Pc)) (k : Key) (p : Ptr) (v : V) :
      s.stack t = (o, .run k p) :: below → s' = s.leave t o p v → Step s s'
  | ret (t : ι) (o : ο) (below : List (ο × Pc)) (k : Key) (p : Ptr) :
      s.stack t = (o, .run k p) :: below → s' = s.goto t below → Step s s'

theorem step_cases {s s' : State ι ο V} {a : Act ι ο V} (h : (system ι ο V).step s a = some s') :
    Step s s' := by
  cases a with
  | call t o =>
    simp only [system, State.step, Option.ite_none_right_eq_some] at h
    exact .call t o h.1 (Option.some.inj h.2).symm
  | create t created =>
    simp only [system, State.step] at h
    split at h
    next o below hstack =>
      cases created with
      | none => exact .noKey t o below hstack (Option.some.inj h).symm
      | some k =>
        simp only [Option.ite_none_right_eq_some] at h
        exact .create t o below k hstack h.1 (Option.some.inj h.2).symm
    next => cases h
  | init t value boxed =>
    simp only [system, State.step] at h
    split at h
    next o k below hstack =>
      simp only [Option.ite_none_right_eq_some, Option.isNone_iff_eq_none] at h
      exact .init t o below k value boxed hstack h.1 (Option.some.inj h.2).symm
    next => cases h
  | write t value =>
    simp only [system, State.step] at h
    split at h
    next o k p below hstack => exact .write t o below k p value hstack (Option.some.inj h).symm
    next => cases h
  | step t =>
    simp only [system, State.step] at h
    split at h
    next o pc below hstack =>
      cases pc with
      | load =>
        cases hword : s.word o with
        | zero =>
          simp only [State.next, hword, if_true] at h
          exact .loadZero t o below hstack hword (Option.some.inj h).symm
        | succ k =>
          simp only [State.next, hword, Nat.succ_ne_zero, if_false, Nat.add_sub_cancel] at h
          exact .load t o below k hstack hword (Option.some.inj h).symm
      | create | init k => cases h
      | publish k =>
        cases hword : s.word o with
        | zero =>
          simp only [State.next, hword, if_true] at h
          exact .publish t o below k hstack hword (Option.some.inj h).symm
        | succ theirs =>
          simp only [State.next, hword, Nat.succ_ne_zero, if_false, Nat.add_sub_cancel] at h
          exact .lose t o below k theirs hstack hword (Option.some.inj h).symm
      | delete k theirs => exact .delete t o below k theirs hstack (Option.some.inj h).symm
      | get k =>
        cases hslot : s.slot t k with
        | none =>
          simp only [State.next, hslot] at h
          exact .getNull t o below k hstack hslot (Option.some.inj h).symm
        | some p =>
          simp only [State.next, hslot] at h
          exact .get t o below k p hstack hslot (Option.some.inj h).symm
      | set k p =>
        simp only [State.next, Option.map_eq_some_iff] at h
        obtain ⟨box, hbox, hs'⟩ := h
        exact .set t o below k p box hstack hbox hs'.symm
      | run k p => exact .ret t o below k p hstack (Option.some.inj h).symm
    next => cases h

end Ekostd.Thread.ThreadLocal
