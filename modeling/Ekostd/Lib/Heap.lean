/-
  A heap of cells, each allocated once and freed once at most.

  A cell that is not live can be neither read, written nor freed: what tries to
  is a fault, and has no heap after it.  The number of a cell is never used
  again.

  * `Heap.ledger`: a cell has been freed exactly once if it was allocated and is
    no more;
  * `alloc`, `free`, `store`, and what they leave of the other cells.
-/
import Mathlib.Tactic

/-- The live cells, the number of the next, and those that were freed. -/
structure Heap (α : Type*) where
  cells : ℕ → Option α
  next : ℕ
  freed : List ℕ
  fresh : ∀ i, next ≤ i → cells i = none
  ledger : ∀ i, freed.count i = if i < next ∧ cells i = none then 1 else 0

namespace Heap

variable {α : Type*} {h h' : Heap α} {i j : ℕ} {a b : α}

theorem empty_ledger : ∀ i, ([] : List ℕ).count i =
    if i < 0 ∧ (none : Option α) = none then 1 else 0 := by
  simp

theorem empty_fresh : ∀ i, 0 ≤ i → (fun _ => none : ℕ → Option α) i = none := by
  simp

/-- Nothing has been allocated. -/
def empty : Heap α where
  cells _ := none
  next := 0
  freed := []
  fresh := empty_fresh
  ledger := empty_ledger

theorem lt_of_live (h : Heap α) {i : ℕ} {a : α} (hi : h.cells i = some a) : i < h.next := by
  by_contra hnext
  rw [h.fresh i (not_lt.1 hnext)] at hi
  cases hi

theorem alloc_fresh (h : Heap α) (a : α) :
    ∀ i, h.next + 1 ≤ i → Function.update h.cells h.next (some a) i = none := by
  intro i hi
  rw [Function.update_of_ne (by omega)]
  exact h.fresh i (by omega)

theorem alloc_ledger (h : Heap α) (a : α) : ∀ i, h.freed.count i =
    if i < h.next + 1 ∧ Function.update h.cells h.next (some a) i = none then 1 else 0 := by
  intro i
  rw [h.ledger]
  by_cases hi : i = h.next
  · subst hi
    simp
  · rw [Function.update_of_ne hi]
    have hlt : i < h.next ↔ i < h.next + 1 := by omega
    simp only [hlt]

/-- A new cell; its number is `next`. -/
def alloc (h : Heap α) (a : α) : Heap α where
  cells := Function.update h.cells h.next (some a)
  next := h.next + 1
  freed := h.freed
  fresh := h.alloc_fresh a
  ledger := h.alloc_ledger a

theorem without_fresh (h : Heap α) (i : ℕ) :
    ∀ j, h.next ≤ j → Function.update h.cells i none j = none := by
  intro j hj
  by_cases hji : j = i
  · subst hji
    exact Function.update_self j _ _
  · rw [Function.update_of_ne hji]
    exact h.fresh j hj

theorem without_ledger (h : Heap α) {i : ℕ} {a : α} (hi : h.cells i = some a) :
    ∀ j, (h.freed ++ [i]).count j =
      if j < h.next ∧ Function.update h.cells i none j = none then 1 else 0 := by
  intro j
  rw [List.count_append, h.ledger]
  by_cases hji : j = i
  · subst hji
    simp [hi, h.lt_of_live hi]
  · simp [hji, Ne.symm hji]

/-- The heap without a live cell. -/
def without (h : Heap α) (i : ℕ) (a : α) (hi : h.cells i = some a) : Heap α where
  cells := Function.update h.cells i none
  next := h.next
  freed := h.freed ++ [i]
  fresh := h.without_fresh i
  ledger := h.without_ledger hi

/-- What is in a cell, and the heap after it is freed. -/
def free (h : Heap α) (i : ℕ) : Option (α × Heap α) :=
  match hi : h.cells i with
  | none => none
  | some a => some (a, h.without i a hi)

theorem store_fresh (h : Heap α) {i : ℕ} {b : α} (a : α) (hi : h.cells i = some b) :
    ∀ j, h.next ≤ j → Function.update h.cells i (some a) j = none := by
  intro j hj
  have hji : j ≠ i := by
    rintro rfl
    exact absurd (h.lt_of_live hi) (not_lt.2 hj)
  rw [Function.update_of_ne hji]
  exact h.fresh j hj

theorem store_ledger (h : Heap α) {i : ℕ} {b : α} (a : α) (hi : h.cells i = some b) :
    ∀ j, h.freed.count j =
      if j < h.next ∧ Function.update h.cells i (some a) j = none then 1 else 0 := by
  intro j
  rw [h.ledger]
  by_cases hji : j = i
  · subst hji
    simp [hi]
  · rw [Function.update_of_ne hji]

/-- A live cell is written. -/
def store (h : Heap α) (i : ℕ) (a : α) : Option (Heap α) :=
  match hi : h.cells i with
  | none => none
  | some _ => some ⟨Function.update h.cells i (some a), h.next, h.freed, h.store_fresh a hi,
      h.store_ledger a hi⟩

/-! ## What an operation leaves -/

@[simp] theorem alloc_next (h : Heap α) (a : α) : (h.alloc a).next = h.next + 1 := rfl

theorem alloc_cells (h : Heap α) (a : α) (i : ℕ) :
    (h.alloc a).cells i = if i = h.next then some a else h.cells i :=
  Function.update_apply h.cells h.next (some a) i

theorem alloc_live (a : α) (hi : h.cells i = some b) : (h.alloc a).cells i = some b := by
  rw [alloc_cells, if_neg (h.lt_of_live hi).ne, hi]

theorem free_eq_some :
    h.free i = some (a, h') ↔ ∃ hi : h.cells i = some a, h' = h.without i a hi := by
  unfold free
  split
  · next hi => simp [hi]
  · next b hi =>
    constructor
    · intro heq
      cases heq
      exact ⟨hi, rfl⟩
    · rintro ⟨hi', rfl⟩
      cases hi.symm.trans hi'
      rfl

theorem free_live (hi : h.cells i = some a) : h.free i = some (a, h.without i a hi) :=
  free_eq_some.2 ⟨hi, rfl⟩

@[simp] theorem without_next (hi : h.cells i = some a) : (h.without i a hi).next = h.next := rfl

theorem without_cells (hi : h.cells i = some a) (j : ℕ) :
    (h.without i a hi).cells j = if j = i then none else h.cells j :=
  Function.update_apply h.cells i none j

theorem store_eq_some (hs : h.store i a = some h') : h'.next = h.next ∧
    (∃ b, h.cells i = some b) ∧ ∀ j, h'.cells j = if j = i then some a else h.cells j := by
  unfold store at hs
  split at hs
  · cases hs
  · next b hi =>
    cases hs
    exact ⟨rfl, ⟨b, hi⟩, fun j => Function.update_apply h.cells i (some a) j⟩

theorem store_live (hi : h.cells i = some b) (a : α) : ∃ h', h.store i a = some h' := by
  unfold store
  split
  · next hno => cases hno.symm.trans hi
  · exact ⟨_, rfl⟩

/-- **What is no more** was freed, once. -/
theorem count_freed (hi : i < h.next) (hno : h.cells i = none) : h.freed.count i = 1 := by
  rw [h.ledger, if_pos ⟨hi, hno⟩]

end Heap
