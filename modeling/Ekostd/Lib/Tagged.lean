/-
  Lists whose entries are tagged with who made them.

  * `List.of`: the entries of one of them, in order;
  * `length_eq_of_of_eq`: these lists determine how many entries there are.
-/
import Mathlib.Tactic

namespace List

variable {ι α : Type*} [DecidableEq ι] {t u : ι} {xs ys : List (ι × α)}

/-- The entries of `t`. -/
def of (t : ι) (xs : List (ι × α)) : List α := (xs.filter fun e => e.1 = t).map Prod.snd

@[simp] theorem of_nil : of t ([] : List (ι × α)) = [] := rfl

@[simp] theorem of_snoc_self (xs : List (ι × α)) (a : α) :
    of t (xs ++ [(t, a)]) = of t xs ++ [a] := by
  simp [of]

theorem of_snoc_of_ne (h : t ≠ u) (xs : List (ι × α)) (a : α) :
    of t (xs ++ [(u, a)]) = of t xs := by
  simp [of, h.symm]

theorem mem_of {a : α} : a ∈ of t xs ↔ (t, a) ∈ xs := by
  simp [of]

theorem count_of [DecidableEq α] (xs : List (ι × α)) (a : α) :
    (of t xs).count a = xs.count (t, a) := by
  induction xs with
  | nil => rfl
  | cons e xs ih =>
    obtain ⟨u, b⟩ := e
    have hcons : of t ((u, b) :: xs) = if u = t then b :: of t xs else of t xs := by
      by_cases hu : u = t <;> simp [of, hu]
    rw [hcons, count_cons, ← ih]
    by_cases hu : u = t
    · simp [hu, count_cons]
    · simp [hu]

/-- **Who has made what in which order** is all there is, up to the order of different ones. -/
theorem length_eq_of_of_eq [DecidableEq α] (h : ∀ t, of t xs = of t ys) :
    xs.length = ys.length := by
  refine (perm_iff_count.2 fun e => ?_).length_eq
  rw [← count_of, ← count_of, h e.1]

end List
