/-
  Contents as tapes: how long, and what is in each place.

  What is written past the end of a list leaves a gap, which is filled with a
  value of the caller's choice; a tape has that value in every place past its
  end.

  * `overwrite`: a list of which a part is written over;
  * `Tape`, `Tape.write`, `Tape.read`: the same place by place;
  * `of_overwrite`, `read_of`: the one is the other;
  * `write_write`, `overwrite_overwrite`: what is written piece by piece.
-/
import Mathlib.Tactic

/-- `xs` over what is at `off`; what is missing before it is `z`. -/
def overwrite {α : Type*} (z : α) (data : List α) (off : ℕ) (xs : List α) : List α :=
  if xs = [] then data
  else data.take off ++ List.replicate (off - data.length) z ++ xs ++
    data.drop (off + xs.length)

/-- How long a content is, and what is in its places. -/
@[ext] structure Tape (α : Type*) where
  len : ℕ
  get : ℕ → α

namespace Tape

variable {α : Type*} {z : α} {data xs ys : List α} {off : ℕ} {t : Tape α}

/-- The places of a list. -/
def of (z : α) (data : List α) : Tape α := ⟨data.length, fun j => data.getD j z⟩

/-- `xs` is written to the places from `off` on. -/
def write (z : α) (t : Tape α) (off : ℕ) (xs : List α) : Tape α :=
  ⟨if xs = [] then t.len else max t.len (off + xs.length),
    fun j => if off ≤ j ∧ j < off + xs.length then xs.getD (j - off) z else t.get j⟩

/-- What is in the places from `off` on, `n` of them if there are so many. -/
def read (t : Tape α) (off n : ℕ) : List α :=
  (List.range (min n (t.len - off))).map fun k => t.get (off + k)

@[simp] theorem write_nil (t : Tape α) (off : ℕ) : t.write z off [] = t := by
  ext j
  · rfl
  · show (if off ≤ j ∧ j < off + 0 then _ else t.get j) = t.get j
    rw [if_neg (by omega)]

theorem of_injective (z : α) : Function.Injective (of z) := by
  intro xs ys h
  have hlen : xs.length = ys.length := congrArg len h
  refine List.ext_getElem hlen fun j hx hy => ?_
  have hget := congrFun (congrArg get h) j
  simpa [of, hx, hy] using hget

theorem length_overwrite (h : xs ≠ []) :
    (overwrite z data off xs).length = max data.length (off + xs.length) := by
  rw [overwrite, if_neg h]
  simp only [List.length_append, List.length_take, List.length_replicate, List.length_drop]
  omega

theorem getD_overwrite (h : xs ≠ []) (j : ℕ) : (overwrite z data off xs).getD j z =
    if off ≤ j ∧ j < off + xs.length then xs.getD (j - off) z else data.getD j z := by
  have hmin : min off data.length + (off - data.length) = off := by omega
  rw [overwrite, if_neg h]
  simp only [List.getD_eq_getElem?_getD, List.getElem?_append, List.length_append, List.length_take,
    List.length_replicate, List.getElem?_take, List.getElem?_replicate, List.getElem?_drop, hmin]
  by_cases hlow : j < off
  · rw [if_pos (show j < off + xs.length by omega), if_pos hlow,
      if_neg (show ¬(off ≤ j ∧ _) by omega)]
    by_cases hdata : j < data.length
    · rw [if_pos (by omega), if_pos hlow]
    · rw [if_neg (by omega), if_pos (by omega), List.getElem?_eq_none (by omega)]
      rfl
  · by_cases hin : j < off + xs.length
    · rw [if_pos hin, if_neg hlow, if_pos ⟨by omega, hin⟩]
    · rw [if_neg hin, if_neg (show ¬(off ≤ j ∧ j < off + xs.length) by omega),
        show off + xs.length + (j - (off + xs.length)) = j by omega]

/-- **Writing over a list** is writing to its places. -/
theorem of_overwrite (z : α) (data : List α) (off : ℕ) (xs : List α) :
    of z (overwrite z data off xs) = (of z data).write z off xs := by
  by_cases h : xs = []
  · subst h
    rw [write_nil, overwrite, if_pos rfl]
  · ext j
    · simp only [of, write, length_overwrite h, if_neg h]
    · simp only [of, write, getD_overwrite h]

/-- **Reading places** is reading a part of the list. -/
theorem read_of (z : α) (data : List α) (off n : ℕ) :
    (of z data).read off n = (data.drop off).take n := by
  refine List.ext_getElem (by simp [read, of]) fun j hj hj' => ?_
  simp only [List.length_take, List.length_drop] at hj'
  simp [read, of, show off + j < data.length by omega]

/-- **Pieces that follow each other** are written as one. -/
theorem write_write (t : Tape α) (off : ℕ) (xs ys : List α) :
    (t.write z off xs).write z (off + xs.length) ys = t.write z off (xs ++ ys) := by
  by_cases hys : ys = []
  · subst hys
    rw [write_nil, List.append_nil]
  · ext j
    · by_cases hxs : xs = []
      · subst hxs
        simp [write, hys]
      · have hne : xs ++ ys ≠ [] := by simp [hxs]
        simp only [write, if_neg hys, if_neg hxs, if_neg hne, List.length_append]
        omega
    · simp only [write, List.length_append, List.getD_eq_getElem?_getD, List.getElem?_append]
      by_cases hy : off + xs.length ≤ j ∧ j < off + xs.length + ys.length
      · rw [if_pos hy, if_pos (by omega), if_neg (by omega)]
        congr 2
        omega
      · rw [if_neg hy]
        by_cases hx : off ≤ j ∧ j < off + xs.length
        · rw [if_pos hx, if_pos (by omega), if_pos (by omega)]
        · rw [if_neg hx, if_neg (by omega)]

theorem overwrite_overwrite (z : α) (data : List α) (off : ℕ) (xs ys : List α) :
    overwrite z (overwrite z data off xs) (off + xs.length) ys =
      overwrite z data off (xs ++ ys) := by
  refine of_injective z ?_
  rw [of_overwrite, of_overwrite, of_overwrite, write_write]

end Tape
