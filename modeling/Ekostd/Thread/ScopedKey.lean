/-
  `thread.rs` — `ScopedKey`, in programs that nest its calls and unwind.

  A thread runs a program on a stack of what is to be done when a part of it
  has left: go on with the next part, drop `set`'s guard, or stop an unwind.
  Its slot is its own, and holds the pointer that is installed once anything
  has touched it.

  * `LocalKey.get`, `set`, `replace`: as in the source, on one thread's slot;
  * `State.step`: one step of one thread; `system`: any number of threads;
  * `innermost`: the value of the innermost `set` that is still running;
  * `key_is_scoped`: in every reachable state it is what is installed, and what `with`
    and `is_set` answer from; and when `set` leaves, what was installed before
    it is installed again.
-/
import Ekostd.Lib.Interleave

namespace Ekostd.Thread.ScopedKey

/-! ## The slot -/

namespace LocalKey

variable {C R : Type*} (init : C) (slot : Option C)

/-- `LocalKey::with` on one thread's slot, which is null until the first touch. -/
def withSlot (f : C → R × C) : R × Option C :=
  let (r, c) := f (slot.getD init)
  (r, some c)

/-- `LocalKey<Cell>::get`. -/
def get : C × Option C := withSlot init slot fun c => (c, c)

/-- `LocalKey<Cell>::set`. -/
def set (value : C) : Option C := (withSlot init slot fun _ => ((), value)).2

/-- `LocalKey<Cell>::replace`. -/
def replace (value : C) : C × Option C := withSlot init slot fun c => (c, value)

end LocalKey

/-! ## Programs -/

/-- Programs over values `V`: what `with`'s closure does may depend on the value, and what is done
    after `is_set` on its answer. -/
inductive Prog (V : Type*) where
  | skip
  | seq (p q : Prog V)
  | set (value : V) (f : Prog V)
  | withValue (f : V → Prog V)
  | isSet (f : Bool → Prog V)
  | raise
  | catchUnwind (p handler : Prog V)

/-- What unwinds. -/
inductive Unwind where
  | raised
  | panic (msg : String)
  deriving DecidableEq

/-- The message of `with`'s assertion. -/
def notSet : String := "cannot access a scoped thread local that has not been set"

/-- What a thread does next. -/
inductive Control (V : Type*) where
  | run (p : Prog V)
  | ret
  | unwind (u : Unwind)

/-- What is to be done when a part of a program has left; `value` is what the `set` of a guard has
    installed. -/
inductive Frame (V : Type*) where
  | seq (q : Prog V)
  | reset (value : V) (previous : Option V)
  | catchUnwind (handler : Prog V)

/-- A thread: what it does, its stack, and its slot, in which null is `none`. -/
structure State (V : Type*) where
  control : Control V
  frames : List (Frame V)
  slot : Option (Option V)

variable {V ι : Type*}

namespace State

/-- The value that is installed, if one is. -/
def installed (th : State V) : Option V := (LocalKey.get none th.slot).1

/-- One step. -/
def step (th : State V) : Option (State V) :=
  match th.control, th.frames with
  | .run .skip, _ => some { th with control := .ret }
  | .run (.seq p q), fs => some { th with control := .run p, frames := .seq q :: fs }
  | .run (.set value f), fs =>
    let (previous, slot) := LocalKey.replace none th.slot (some value)
    some ⟨.run f, .reset value previous :: fs, slot⟩
  | .run (.withValue f), fs =>
    let (p, slot) := LocalKey.get none th.slot
    match p with
    | none => some ⟨.unwind (.panic notSet), fs, slot⟩
    | some value => some ⟨.run (f value), fs, slot⟩
  | .run (.isSet f), fs =>
    let (p, slot) := LocalKey.get none th.slot
    some ⟨.run (f p.isSome), fs, slot⟩
  | .run .raise, _ => some { th with control := .unwind .raised }
  | .run (.catchUnwind p handler), fs =>
    some { th with control := .run p, frames := .catchUnwind handler :: fs }
  | .ret, .seq q :: fs => some { th with control := .run q, frames := fs }
  | .ret, .catchUnwind _ :: fs => some { th with frames := fs }
  | .unwind _, .seq _ :: fs => some { th with frames := fs }
  | .unwind _, .catchUnwind handler :: fs => some { th with control := .run handler, frames := fs }
  | .ret, .reset _ previous :: fs | .unwind _, .reset _ previous :: fs =>
    some { th with frames := fs, slot := LocalKey.set none th.slot previous }
  | .ret, [] | .unwind _, [] => none

end State

/-- The threads `ι`, each running its program. -/
def system [DecidableEq ι] (prog : ι → Prog V) : Sts (ι → State V) ι :=
  Sts.interleave State.step fun t => ⟨.run (prog t), [], none⟩

/-! ## What is installed -/

/-- The value of the innermost `set` on a stack. -/
def innermost : List (Frame V) → Option V
  | [] => none
  | .reset value _ :: _ => some value
  | .seq _ :: fs | .catchUnwind _ :: fs => innermost fs

/-- Every guard remembers the value of the `set` that is next below it. -/
def Linked : List (Frame V) → Prop
  | [] => True
  | .reset _ previous :: fs => previous = innermost fs ∧ Linked fs
  | .seq _ :: fs | .catchUnwind _ :: fs => Linked fs

/-- The invariant of a thread. -/
structure State.Inv (th : State V) : Prop where
  installed : th.installed = innermost th.frames
  linked : Linked th.frames

/-- **A step of a thread** keeps what is installed the value of the innermost `set`. -/
theorem State.Inv.step {th th' : State V} (h : th.Inv) (hstep : th.step = some th') : th'.Inv := by
  obtain ⟨control, frames, slot⟩ := th
  obtain ⟨hinstalled, hlinked⟩ := h
  cases control with
  | run p =>
    cases p with
    | skip | seq p q | raise | catchUnwind p handler =>
      cases hstep
      exact ⟨hinstalled, hlinked⟩
    | set value f =>
      cases hstep
      exact ⟨rfl, hinstalled, hlinked⟩
    | withValue f =>
      cases hget : (LocalKey.get none slot).1 with
      | none =>
        simp only [State.step, hget] at hstep
        cases hstep
        exact ⟨hinstalled, hlinked⟩
      | some value =>
        simp only [State.step, hget] at hstep
        cases hstep
        exact ⟨hinstalled, hlinked⟩
    | isSet f =>
      cases hstep
      exact ⟨hinstalled, hlinked⟩
  | ret =>
    cases frames with
    | nil => cases hstep
    | cons frame fs =>
      cases frame with
      | seq q | catchUnwind handler =>
        cases hstep
        exact ⟨hinstalled, hlinked⟩
      | reset value previous =>
        -- The guard installs what it remembers.
        cases hstep
        exact ⟨hlinked.1, hlinked.2⟩
  | unwind u =>
    cases frames with
    | nil => cases hstep
    | cons frame fs =>
      cases frame with
      | seq q | catchUnwind handler =>
        cases hstep
        exact ⟨hinstalled, hlinked⟩
      | reset value previous =>
        cases hstep
        exact ⟨hlinked.1, hlinked.2⟩

theorem inv_inductive [DecidableEq ι] (prog : ι → Prog V) :
    (system prog).Inductive fun s => ∀ t, (s t).Inv :=
  Sts.interleave_keeps (fun _ => ⟨rfl, trivial⟩) State.Inv.step

/-! ## Leaving -/

theorem State.step_withValue {th : State V} {f : V → Prog V}
    (h : th.control = .run (.withValue f)) :
    ∃ th', th.step = some th' ∧
      match th.installed with
      | some value => th'.control = .run (f value)
      | none => th'.control = .unwind (.panic notSet) := by
  obtain ⟨control, frames, slot⟩ := th
  obtain rfl : control = .run (.withValue f) := h
  cases hget : (LocalKey.get none slot).1 with
  | none =>
    refine ⟨⟨.unwind (.panic notSet), frames, (LocalKey.get none slot).2⟩, ?_, ?_⟩
    · simp only [State.step, hget]
    · rw [State.installed, hget]
  | some value =>
    refine ⟨⟨.run (f value), frames, (LocalKey.get none slot).2⟩, ?_, ?_⟩
    · simp only [State.step, hget]
    · rw [State.installed, hget]

theorem State.step_isSet {th : State V} {f : Bool → Prog V} (h : th.control = .run (.isSet f)) :
    ∃ th', th.step = some th' ∧ th'.control = .run (f th.installed.isSome) := by
  obtain ⟨control, frames, slot⟩ := th
  obtain rfl : control = .run (.isSet f) := h
  exact ⟨_, rfl, rfl⟩

/-- A step takes at most the top of the stack off, and puts at most one frame on it. -/
theorem State.step_frames {th th' : State V} (h : th.step = some th') {frame : Frame V}
    {fs : List (Frame V)} (hframes : th.frames = frame :: fs) :
    th'.frames = fs ∨ ∃ top, th'.frames = top ++ frame :: fs := by
  obtain ⟨control, frames, slot⟩ := th
  obtain rfl : frames = frame :: fs := hframes
  cases control with
  | run p =>
    right
    cases p with
    | skip | raise | isSet f =>
      cases h
      exact ⟨[], rfl⟩
    | seq p q | catchUnwind p handler | set value f =>
      cases h
      exact ⟨[_], rfl⟩
    | withValue f =>
      refine ⟨[], ?_⟩
      cases hget : (LocalKey.get none slot).1 <;> simp only [State.step, hget] at h <;>
        cases h <;> rfl
  | ret | unwind u =>
    left
    cases frame <;> cases h <;> rfl

variable [DecidableEq ι] {prog : ι → Prog V} {s s' : ι → State V} {t : ι} {as bs : List ι}

/-- The actions `bs` take `t` out of the call it enters with its step from `s`: it is deeper until
    the last of them, and then not. -/
def Leaves (prog : ι → Prog V) (s : ι → State V) (t : ι) (bs : List ι) (s' : ι → State V) : Prop :=
  (system prog).runFrom s (t :: bs) = some s' ∧ (s' t).frames.length ≤ (s t).frames.length ∧
    ∀ before after m, bs = before ++ after → after ≠ [] →
      (system prog).runFrom s (t :: before) = some m → (s t).frames.length < (m t).frames.length

/-- What is below a call stays as it is until the call has left. -/
theorem frames_of_deeper {fs : List (Frame V)} {frame : Frame V}
    (henter : ∀ m, (system prog).step s t = some m → (m t).frames = frame :: fs)
    (hdeeper : ∀ before after m, bs = before ++ after → after ≠ [] →
      (system prog).runFrom s (t :: before) = some m → fs.length < (m t).frames.length)
    (h : (system prog).runFrom s (t :: bs) = some s') : ∃ top, (s' t).frames = top ++ fs := by
  induction bs using List.reverseRecOn generalizing s' with
  | nil =>
    rw [Sts.runFrom_cons, Option.bind_eq_some_iff] at h
    obtain ⟨m, hm, hs'⟩ := h
    cases hs'
    exact ⟨[frame], henter _ hm⟩
  | append_singleton bs u ih =>
    rw [← List.cons_append, Sts.runFrom_append, Option.bind_eq_some_iff] at h
    obtain ⟨m, hm, hu⟩ := h
    rw [Sts.runFrom_cons, Option.bind_eq_some_iff] at hu
    obtain ⟨m', hstep, hs'⟩ := hu
    cases hs'
    have hlt := hdeeper bs [u] m rfl (List.cons_ne_nil u []) hm
    obtain ⟨top, htop⟩ := ih (fun before after m' hbs hafter => hdeeper before (after ++ [u]) m'
      (by rw [hbs, List.append_assoc]) (by simp)) hm
    by_cases hne : t = u
    · subst hne
      cases top with
      | nil =>
        rw [htop, List.nil_append] at hlt
        exact absurd hlt (Nat.lt_irrefl _)
      | cons g top =>
        rw [List.cons_append] at htop
        rcases State.step_frames (Sts.interleave_self hstep) htop with heq | ⟨top', heq⟩
        · exact ⟨top, heq⟩
        · exact ⟨top' ++ g :: top, by rw [heq, List.append_assoc, List.cons_append]⟩
    · rw [Sts.interleave_other hstep hne]
      exact ⟨top, htop⟩

/-- **When `set` leaves**, by return or by unwind, what was installed before it is installed
    again. -/
theorem installed_of_leaves (h : (system prog).run as = some s) {value : V} {f : Prog V}
    (hset : (s t).control = .run (.set value f)) (hleaves : Leaves prog s t bs s') :
    (s' t).installed = (s t).installed := by
  obtain ⟨hrun, hle, hdeeper⟩ := hleaves
  have henter : ∀ m, (system prog).step s t = some m →
      (m t).frames = .reset value (s t).installed :: (s t).frames := by
    intro m hm
    have hstep := Sts.interleave_self hm
    rw [State.step, hset] at hstep
    rw [← Option.some.inj hstep]
    rfl
  obtain ⟨top, htop⟩ := frames_of_deeper henter hdeeper hrun
  have hnil : top = [] := by
    rw [htop, List.length_append] at hle
    exact List.length_eq_zero_iff.1 (by omega)
  have hinv := (inv_inductive prog).run h t
  have hinv' : (s' t).Inv := by
    have hrun' : (system prog).run (as ++ t :: bs) = some s' := by
      rw [Sts.run_append, h]
      exact hrun
    exact (inv_inductive prog).run hrun' t
  rw [hinv.installed, hinv'.installed, htop, hnil, List.nil_append]

/-! ## Scoping -/

/-- What a thread can tell of the key is the innermost `set` that is running on it. -/
structure Scoped (prog : ι → Prog V) (s : ι → State V) (t : ι) : Prop where
  /-- It is what is installed. -/
  installed : (s t).installed = innermost (s t).frames
  /-- `with` runs its closure on the value, and panics exactly if there is none. -/
  withValue : ∀ f, (s t).control = .run (.withValue f) →
    ∃ s', (system prog).step s t = some s' ∧
      match innermost (s t).frames with
      | some value => (s' t).control = .run (f value)
      | none => (s' t).control = .unwind (.panic notSet)
  /-- `is_set` answers whether there is one. -/
  isSet : ∀ f, (s t).control = .run (.isSet f) →
    ∃ s', (system prog).step s t = some s' ∧
      (s' t).control = .run (f (innermost (s t).frames).isSome)
  /-- `set` leaves what it has found. -/
  restores : ∀ value f bs s', (s t).control = .run (.set value f) → Leaves prog s t bs s' →
    (s' t).installed = (s t).installed

/-- **`ScopedKey` is properly scoped**, in every program, on any number of threads. -/
theorem key_is_scoped (h : (system prog).run as = some s) (t : ι) : Scoped prog s t := by
  have hinstalled := ((inv_inductive prog).run h t).installed
  refine ⟨hinstalled, ?_, ?_, fun value f bs s' => installed_of_leaves h⟩
  · intro f hcontrol
    rw [← hinstalled]
    exact Sts.interleave_exists (State.step_withValue hcontrol)
  · intro f hcontrol
    rw [← hinstalled]
    exact Sts.interleave_exists (State.step_isSet hcontrol)

/-- After an inner `set` was unwound out of, `with` sees the value of the outer one. -/
theorem key_is_scoped_nested :
    let prog : Fin 2 → Prog ℕ := fun _ =>
      .set 1 (.seq (.catchUnwind (.set 2 .raise) .skip) (.withValue fun _ => .skip))
    ∃ s, (system prog).run [0, 0, 1, 0, 0, 1, 0, 0, 0, 0, 0] = some s ∧
      (s 0).installed = some 1 := by
  intro prog
  obtain ⟨s, hs, hinner⟩ : ∃ s, (system prog).run [0, 0, 1, 0, 0, 1, 0, 0, 0, 0, 0] = some s ∧
      innermost (s 0).frames = some 1 := ⟨_, rfl, rfl⟩
  exact ⟨s, hs, (key_is_scoped hs 0).installed.trans hinner⟩

end Ekostd.Thread.ScopedKey
