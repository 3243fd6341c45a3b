/-
  A heap that is cut up among owners.

  The part of an owner is its cells, with what is in them.  Every live cell is
  in the part of one owner.

  * `Heap.Cut`: the heap is these parts;
  * `Cut.alloc`, `Cut.free`, `Cut.store`: one owner gets, frees or writes a cell of
    its own, and the others keep theirs.
-/
import Ekostd.Lib.Heap
import Ekostd.Lib.Parts

namespace Heap

variable {α ι : Type*} {h : Heap α} {parts : ι → ℕ → Option α} {o : ι} {i : ℕ} {a b : α}

/-- Every live cell is in the part of one owner. -/
abbrev Cut (h : Heap α) (parts : ι → ℕ → Option α) : Prop := Parts.Cut h.cells parts

variable [DecidableEq ι] {part : ℕ → Option α}

/-- **An owner allocates.** -/
theorem Cut.alloc (hc : h.Cut (Function.update parts o part)) (a : α) :
    (h.alloc a).Cut (Function.update parts o (Function.update part h.next (some a))) :=
  hc.set (.inr (h.fresh _ le_rfl)) (h.alloc_cells a)

/-- **An owner frees a cell of its own.** -/
theorem Cut.free (hc : h.Cut (Function.update parts o part)) (ho : part i = some a) :
    ∃ h', h.free i = some (a, h') ∧ h'.next = h.next ∧
      h'.Cut (Function.update parts o (Function.update part i none)) := by
  have hlive : h.cells i = some a := hc.live (o := o) (by rw [Function.update_self, ho])
  exact ⟨_, free_live hlive, rfl, hc.set (.inl (by simp [ho])) (without_cells hlive)⟩

/-- **An owner writes a cell of its own.** -/
theorem Cut.store (hc : h.Cut (Function.update parts o part)) (ho : part i = some b) (a : α) :
    ∃ h', h.store i a = some h' ∧ h'.next = h.next ∧
      h'.Cut (Function.update parts o (Function.update part i (some a))) := by
  have hlive : h.cells i = some b := hc.live (o := o) (by rw [Function.update_self, ho])
  obtain ⟨h', hs⟩ := store_live hlive a
  obtain ⟨hnext, -, hcells⟩ := store_eq_some hs
  exact ⟨h', hs, hnext, hc.set (.inl (by simp [ho])) hcells⟩

end Heap
