/-
  Slices taken by index, and searches from the right.

  * `List.slice`: a range of a list, refused where it is out of range;
  * `List.rposition`: where the last element that satisfies a test is;
  * `rposition_eq_some`, `rposition_eq_none`: what it says of the list.
-/
import Mathlib.Tactic

/-- An index past the end, or a range that ends before it starts. -/
inductive OutOfRange where
  | mk
  deriving DecidableEq

@[simp] theorem Except.ok_bind {ε α β : Type _} (a : α) (f : α → Except ε β) :
    (Except.ok a >>= f) = f a := rfl

@[simp] theorem Except.pure_eq {ε α : Type _} (a : α) : (pure a : Except ε α) = .ok a := rfl

namespace List

variable {α : Type*} {xs ys zs : List α} {x : α} {i j : ℕ}

/-- The elements from `i` up to `j`, if that is a range of the list. -/
def slice (xs : List α) (i j : ℕ) : Except OutOfRange (List α) :=
  if i ≤ j ∧ j ≤ xs.length then .ok ((xs.take j).drop i) else .error .mk

theorem slice_eq (hi : i ≤ j) (hj : j ≤ xs.length) : xs.slice i j = .ok ((xs.take j).drop i) :=
  if_pos ⟨hi, hj⟩

theorem slice_eq_ok {ys : List α} (h : xs.slice i j = .ok ys) :
    i ≤ j ∧ j ≤ xs.length ∧ ys = (xs.take j).drop i := by
  unfold slice at h
  split_ifs at h with hr
  cases h
  exact ⟨hr.1, hr.2, rfl⟩

theorem slice_append_right (xs ys : List α) :
    (xs ++ ys).slice xs.length (xs ++ ys).length = .ok ys := by
  rw [slice_eq (by simp) (Nat.le_refl _), take_length, drop_left]

/-- Where the last element that satisfies `p` is. -/
def rposition (p : α → Bool) : List α → Option ℕ
  | [] => none
  | x :: xs =>
    match rposition p xs with
    | some i => some (i + 1)
    | none => if p x then some 0 else none

variable {p : α → Bool}

theorem rposition_eq_none : rposition p xs = none ↔ ∀ x ∈ xs, p x = false := by
  induction xs with
  | nil => simp [rposition]
  | cons x xs ih =>
    rw [rposition, forall_mem_cons, ← ih]
    cases hxs : rposition p xs with
    | some i => simp
    | none => simp

/-- **The last element that satisfies the test** is followed by none. -/
theorem rposition_append (hx : p x = true) (hzs : ∀ z ∈ zs, p z = false) :
    rposition p (ys ++ x :: zs) = some ys.length := by
  induction ys with
  | nil => simp [rposition, rposition_eq_none.2 hzs, hx]
  | cons y ys ih => simp [rposition, ih]

theorem rposition_eq_some (h : rposition p xs = some i) :
    ∃ ys x zs, xs = ys ++ x :: zs ∧ ys.length = i ∧ p x = true ∧ ∀ z ∈ zs, p z = false := by
  induction xs generalizing i with
  | nil => cases h
  | cons x xs ih =>
    rw [rposition] at h
    cases hxs : rposition p xs with
    | some k =>
      rw [hxs] at h
      obtain ⟨ys, y, zs, rfl, hlen, hy, hzs⟩ := ih hxs
      cases h
      exact ⟨x :: ys, y, zs, rfl, by simp [hlen], hy, hzs⟩
    | none =>
      rw [hxs] at h
      by_cases hx : p x = true
      · simp only [hx, if_true, Option.some.injEq] at h
        exact ⟨[], x, xs, rfl, h, hx, rposition_eq_none.1 hxs⟩
      · simp [hx] at h

theorem rposition_lt (h : rposition p xs = some i) : i < xs.length := by
  obtain ⟨ys, x, zs, rfl, rfl, -, -⟩ := rposition_eq_some h
  rw [length_append, length_cons]
  omega

end List
