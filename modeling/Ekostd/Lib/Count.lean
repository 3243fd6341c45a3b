/-
  Counting the agents of a finite family that are in a given state.
-/
import Mathlib.Data.Fintype.Card
import Mathlib.Data.Finset.Card
import Mathlib.Tactic

namespace Sts

variable {ι α : Type*} [Fintype ι]

/-- The number of agents whose state satisfies `p`. -/
def count (p : α → Prop) [DecidablePred p] (f : ι → α) : ℕ :=
  (Finset.univ.filter fun i => p (f i)).card

variable {p q : α → Prop} [DecidablePred p] [DecidablePred q] {f g : ι → α}

theorem count_eq_zero : count p f = 0 ↔ ∀ i, ¬ p (f i) := by
  simp [count, Finset.filter_eq_empty_iff]

theorem count_pos : 0 < count p f ↔ ∃ i, p (f i) := by
  simp [count, Finset.card_pos, Finset.Nonempty]

theorem count_mono (h : ∀ i, p (f i) → q (g i)) : count p f ≤ count q g :=
  Finset.card_le_card fun i => by simpa using h i

theorem count_congr (h : ∀ i, p (f i) ↔ q (g i)) : count p f = count q g :=
  le_antisymm (count_mono fun i => (h i).1) (count_mono fun i => (h i).2)

/-- Agents in one of two states that exclude each other. -/
theorem count_or {r : α → Prop} [DecidablePred r] (h : ∀ i, r (f i) ↔ p (f i) ∨ q (f i))
    (hpq : ∀ i, p (f i) → ¬ q (f i)) : count r f = count p f + count q f := by
  classical
  simp only [count]
  rw [← Finset.card_union_of_disjoint
    (Finset.disjoint_filter.2 fun i _ hp => hpq i hp), ← Finset.filter_or]
  exact congrArg Finset.card (Finset.filter_congr fun i _ => h i)

/-- **Moving one agent** changes a count by what that agent contributes before and after. -/
theorem count_update [DecidableEq ι] (p : α → Prop) [DecidablePred p] (f : ι → α) (i : ι) (a : α) :
    count p (Function.update f i a) + (if p (f i) then 1 else 0) =
      count p f + if p a then 1 else 0 := by
  have key : ∀ g : ι → α, count p g =
      ((Finset.univ.erase i).filter fun j => p (g j)).card + if p (g i) then 1 else 0 := by
    intro g
    rw [count, ← Finset.insert_erase (Finset.mem_univ i), Finset.filter_insert]
    split_ifs with h
    · rw [Finset.card_insert_of_notMem (by simp)]
      simp
    · simp
  have hrest : ((Finset.univ.erase i).filter fun j => p (Function.update f i a j)) =
      (Finset.univ.erase i).filter fun j => p (f j) :=
    Finset.filter_congr fun j hj => by
      rw [Function.update_of_ne (Finset.ne_of_mem_erase hj)]
  rw [key (Function.update f i a), key f, hrest, Function.update_self]
  omega

end Sts
