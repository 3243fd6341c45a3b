/-
  The bounded first-in first-out queue, as a sequence of values and a cursor.

  What was ever put in never changes; taking a value out moves the cursor.  So
  the values taken out followed by the values still in are, in every state,
  the values put in (`out_append_queue`), whatever the order of the actions.
-/
import Ekostd.Lib.Sts

/-- The values put in so far, of which the first `taken` have been taken out again. -/
structure Fifo (T : Type*) where
  sent : List T
  taken : ℕ
  taken_le : taken ≤ sent.length

namespace Fifo

variable {T : Type*}

/-- The values taken out. -/
def out (f : Fifo T) : List T := f.sent.take f.taken

/-- The values still in. -/
def queue (f : Fifo T) : List T := f.sent.drop f.taken

/-- Nothing put in. -/
def empty : Fifo T := ⟨[], 0, le_rfl⟩

/-- Put `v` in. -/
def push (f : Fifo T) (v : T) : Fifo T :=
  ⟨f.sent ++ [v], f.taken, f.taken_le.trans (by simp)⟩

/-- Take the first value out. -/
def pop (f : Fifo T) (h : f.taken < f.sent.length) : Fifo T := ⟨f.sent, f.taken + 1, h⟩

@[simp] theorem sent_push (f : Fifo T) (v : T) : (f.push v).sent = f.sent ++ [v] := rfl

@[simp] theorem out_push (f : Fifo T) (v : T) : (f.push v).out = f.out := by
  simp [out, push, List.take_append_of_le_length f.taken_le]

@[simp] theorem queue_push (f : Fifo T) (v : T) : (f.push v).queue = f.queue ++ [v] := by
  simp [queue, push, List.drop_append_of_le_length f.taken_le]

/-- **Nothing is lost, duplicated or reordered.** -/
theorem out_append_queue (f : Fifo T) : f.out ++ f.queue = f.sent := List.take_append_drop ..

theorem queue_pop {f : Fifo T} {v : T} {q : List T} (hq : f.queue = v :: q) :
    ∃ h, (f.pop h).out = f.out ++ [v] ∧ (f.pop h).queue = q := by
  have h : f.taken < f.sent.length := by
    have := congrArg List.length hq
    simp [queue] at this
    omega
  have hv : f.sent[f.taken] :: f.sent.drop (f.taken + 1) = v :: q := by
    rw [← hq, queue, List.drop_eq_getElem_cons h]
  obtain ⟨hv, hq'⟩ := List.cons.inj hv
  exact ⟨h, by simp [out, pop, List.take_add_one, List.getElem?_eq_getElem h, hv],
    by simpa [queue, pop] using hq'⟩

/-- Put a value in, or take one out. -/
inductive Op (T : Type*) where
  | push (v : T)
  | pop

/-- The queue that holds at most `capacity` values. -/
def system (T : Type*) (capacity : ℕ) : Sts (Fifo T) (Op T) where
  init := empty
  step f
    | .push v => if f.queue.length < capacity then some (f.push v) else none
    | .pop => if h : f.taken < f.sent.length then some (f.pop h) else none

theorem step_push {capacity : ℕ} {f : Fifo T} (h : f.queue.length < capacity) (v : T) :
    (system T capacity).step f (.push v) = some (f.push v) := by
  simp [system, h]

theorem step_pop {capacity : ℕ} {f : Fifo T} (h : f.taken < f.sent.length) :
    (system T capacity).step f .pop = some (f.pop h) := by
  simp [system, h]

/-- **The bound is kept.** -/
theorem bounded (capacity : ℕ) :
    (system T capacity).Inductive fun f => f.queue.length ≤ capacity where
  init := by simp [system, queue, empty]
  step {f a f'} hf ha := by
    cases a with
    | push v =>
      simp only [system] at ha
      split_ifs at ha with hlt
      cases ha
      simp only [queue_push, List.length_append, List.length_singleton]
      omega
    | pop =>
      simp only [system] at ha
      split_ifs at ha with hlt
      cases ha
      simp only [queue, pop, List.length_drop] at hf ⊢
      omega

end Fifo
