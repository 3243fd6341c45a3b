/-
  The pieces of a list between separators, the empty ones dropped.
-/
import Mathlib.Tactic

namespace List

variable {α : Type*} [DecidableEq α]

/-- The pieces of `xs` between occurrences of `sep`, the empty ones dropped. -/
def pieces (sep : α) (xs : List α) : List (List α) :=
  (xs.splitOn sep).filter fun p => !p.isEmpty

variable {sep : α} {xs ys : List α}

@[simp] theorem pieces_nil : pieces sep [] = [] := by simp [pieces]

/-- **A separator separates.** -/
theorem pieces_append (xs ys : List α) :
    pieces sep (xs ++ sep :: ys) = pieces sep xs ++ pieces sep ys := by
  simp [pieces, splitOn_append_cons_self]

theorem pieces_of_notMem (h : sep ∉ xs) (hne : xs ≠ []) : pieces sep xs = [xs] := by
  simp [pieces, splitOn_eq_singleton h, hne]

theorem pieces_snoc_sep (xs : List α) : pieces sep (xs ++ [sep]) = pieces sep xs := by
  rw [pieces_append, pieces_nil, append_nil]

@[simp] theorem pieces_cons_sep (xs : List α) : pieces sep (sep :: xs) = pieces sep xs := by
  rw [← nil_append (sep :: xs), pieces_append, pieces_nil, nil_append]

theorem pieces_append_of_ended (h : xs = [] ∨ xs.getLast? = some sep) (ys : List α) :
    pieces sep (xs ++ ys) = pieces sep xs ++ pieces sep ys := by
  rcases h with rfl | h
  · simp
  · obtain ⟨zs, rfl⟩ := getLast?_eq_some_iff.1 h
    rw [pieces_snoc_sep, append_assoc, singleton_append, pieces_append]

theorem pieces_dropWhile (xs : List α) : pieces sep (xs.dropWhile (· = sep)) = pieces sep xs := by
  induction xs with
  | nil => rfl
  | cons x xs ih =>
    by_cases hx : x = sep
    · simpa [hx] using ih
    · simp [hx]

/-- **The first piece ends at the first separator.** -/
theorem pieces_split {x : α} (hx : x ≠ sep) (xs : List α) :
    pieces sep (x :: xs) =
      (x :: xs).take ((x :: xs).idxOf sep) :: pieces sep ((x :: xs).drop ((x :: xs).idxOf sep)) := by
  by_cases hmem : sep ∈ x :: xs
  · obtain ⟨ys, zs, heq, hys⟩ := eq_append_cons_of_mem hmem
    have hidx : (x :: xs).idxOf sep = ys.length := by
      rw [heq, idxOf_append_of_notMem hys, idxOf_cons_self, Nat.add_zero]
    have hne : ys ≠ [] := by
      rintro rfl
      exact hx (cons.inj heq).1
    rw [hidx, heq, take_left, drop_left, pieces_append, pieces_of_notMem hys hne, pieces_cons_sep]
    rfl
  · rw [idxOf_eq_length hmem, take_length, drop_length, pieces_of_notMem hmem (cons_ne_nil x xs),
      pieces_nil]

theorem exists_ended (sep : α) (xs : List α) :
    ∃ ys zs, xs = ys ++ zs ∧ (ys = [] ∨ ys.getLast? = some sep) ∧ sep ∉ zs := by
  induction xs using List.reverseRecOn with
  | nil => exact ⟨[], [], rfl, .inl rfl, not_mem_nil⟩
  | append_singleton xs x ih =>
    obtain ⟨ys, zs, rfl, hys, hzs⟩ := ih
    by_cases hx : x = sep
    · refine ⟨ys ++ zs ++ [x], [], by simp, .inr ?_, not_mem_nil⟩
      rw [hx, getLast?_concat]
    · refine ⟨ys, zs ++ [x], append_assoc ys zs [x], hys, ?_⟩
      rw [mem_append, mem_singleton]
      rintro (h | h)
      · exact hzs h
      · exact hx h.symm

/-- **What is appended to a piece makes it longer**, if it is not a separator. -/
theorem cut_of_pieces (hne : xs ≠ []) (h : pieces sep xs <+: pieces sep (xs ++ ys)) :
    ys = [] ∨ ys.head? = some sep ∨ xs.getLast? = some sep := by
  obtain ⟨as, bs, rfl, has, hbs⟩ := exists_ended sep xs
  rcases bs with _ | ⟨b, bs⟩
  · rw [append_nil] at hne ⊢
    exact .inr (.inr (has.resolve_left hne))
  · have hb : b ≠ sep := fun hb => hbs (hb ▸ mem_cons_self)
    rw [append_assoc, pieces_append_of_ended has, pieces_append_of_ended has,
      prefix_append_right_inj, pieces_of_notMem hbs (cons_ne_nil b bs), cons_append,
      pieces_split hb, ← cons_append, idxOf_append_of_notMem hbs, take_length_add_append,
      cons_prefix_cons] at h
    have hnil : ys.take (ys.idxOf sep) = [] := by
      rw [← append_right_eq_self]
      exact h.1.symm
    rcases ys with _ | ⟨y, ys⟩
    · exact .inl rfl
    · refine .inr (.inl ?_)
      by_contra hy
      rw [head?_cons, Option.some.injEq] at hy
      rw [idxOf_cons_ne _ hy] at hnil
      cases hnil

theorem length_pieces_append_le (h : sep ∉ ys) (xs : List α) :
    (pieces sep (xs ++ ys)).length ≤ (pieces sep xs).length + 1 := by
  by_cases hmem : sep ∈ xs
  · obtain ⟨as, bs, rfl, -⟩ := eq_append_cons_of_mem hmem
    have hrest := length_pieces_append_le h bs
    rw [append_assoc, cons_append, pieces_append, pieces_append, length_append, length_append]
    omega
  · by_cases hne : xs ++ ys = []
    · rw [hne, pieces_nil]
      exact Nat.zero_le _
    · rw [pieces_of_notMem (by simp [hmem, h]) hne, length_singleton]
      exact Nat.le_add_left 1 _
termination_by xs.length

theorem sep_notMem_of_mem_splitOn {p : List α} (h : p ∈ xs.splitOn sep) : sep ∉ p := by
  induction xs generalizing p with
  | nil =>
    rw [splitOn_nil, mem_singleton] at h
    simp [h]
  | cons x xs ih =>
    obtain ⟨q, qs, hq⟩ := exists_cons_of_ne_nil (splitOn_ne_nil sep xs)
    rw [splitOn_cons_eq_if_modifyHead, hq] at h
    rw [hq] at ih
    by_cases hx : x = sep
    · simp only [hx, beq_self_eq_true, if_true] at h
      rcases mem_cons.1 h with rfl | h
      · exact not_mem_nil
      · exact ih h
    · simp only [beq_iff_eq, hx, if_false, modifyHead_cons] at h
      rcases mem_cons.1 h with rfl | h
      · rw [mem_cons, not_or]
        exact ⟨Ne.symm hx, ih mem_cons_self⟩
      · exact ih (mem_cons_of_mem q h)

theorem of_mem_pieces {p : List α} (h : p ∈ pieces sep xs) : p ≠ [] ∧ sep ∉ p := by
  rw [pieces, mem_filter] at h
  exact ⟨by simpa using h.2, sep_notMem_of_mem_splitOn h.1⟩

omit [DecidableEq α] in
theorem mem_intercalate {s p : List α} {ls : List (List α)} {a : α} (h : p ∈ ls) (ha : a ∈ p) :
    a ∈ s.intercalate ls := by
  induction ls with
  | nil => cases h
  | cons l ls ih =>
    cases ls with
    | nil =>
      rw [mem_singleton] at h
      rwa [intercalate_singleton, ← h]
    | cons m ms =>
      rw [intercalate_cons_cons, mem_append, mem_append]
      rcases mem_cons.1 h with rfl | h
      · exact .inl (.inl ha)
      · exact .inr (ih h)

theorem mem_of_mem_pieces {p : List α} {a : α} (h : p ∈ pieces sep xs) (ha : a ∈ p) : a ∈ xs := by
  rw [pieces, mem_filter] at h
  have hmem := mem_intercalate (s := [sep]) h.1 ha
  rwa [intercalate_splitOn] at hmem

theorem pieces_ne_nil {a : α} (ha : a ∈ xs) (hsep : a ≠ sep) : pieces sep xs ≠ [] := by
  induction xs with
  | nil => cases ha
  | cons x xs ih =>
    by_cases hx : x = sep
    · have hxs : a ∈ xs := by
        rcases mem_cons.1 ha with rfl | hxs
        · exact absurd hx hsep
        · exact hxs
      rw [hx, ← nil_append (sep :: xs), pieces_append]
      simpa using ih hxs
    · obtain ⟨p, ps, hp⟩ := exists_cons_of_ne_nil (splitOn_ne_nil sep xs)
      have hne : (x == sep) = false := by simpa using hx
      simp [pieces, splitOn_cons_eq_if_modifyHead, hne, hp]

end List
