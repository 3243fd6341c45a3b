/-
  Lines, and calls that hand them out one at a time.

  * `List.lines`: what is between separators, and what is after the last one if
    there is anything; `List.complete`: up to the last separator; `List.unlines`;
  * `Hands`: what an answer takes off the elements that are to come;
  * `LineReader`: calls that each take a line off, or fail and take nothing;
  * `LineReader.answer_eq`, `LineReader.handed_eq`: what repeated calls return.
-/
import Mathlib.Data.List.DropRight
import Mathlib.Tactic

namespace List

variable {α : Type*} [DecidableEq α] {nl : α} {xs ys : List α}

/-- What is between separators, and what is after the last one if there is anything. -/
def lines (nl : α) (xs : List α) : List (List α) :=
  let ps := xs.splitOn nl
  if ps.getLast? = some [] then ps.dropLast else ps

@[simp] theorem lines_nil : lines nl [] = [] := by simp [lines]

/-- **A line ends at the first separator.** -/
theorem lines_append (h : nl ∉ xs) (ys : List α) :
    lines nl (xs ++ nl :: ys) = xs :: lines nl ys := by
  have hne : ys.splitOn nl ≠ [] := splitOn_ne_nil nl ys
  unfold lines
  rw [splitOn_append_cons_self_of_not_mem h]
  simp only [getLast?_cons, dropLast_cons_of_ne_nil hne]
  obtain ⟨p, hp⟩ := Option.isSome_iff_exists.1 (getLast?_isSome.2 hne)
  simp only [hp, Option.getD_some, Option.some.injEq]
  split_ifs <;> rfl

theorem lines_of_notMem (h : nl ∉ xs) (hne : xs ≠ []) : lines nl xs = [xs] := by
  simp [lines, splitOn_eq_singleton h, hne]

theorem length_splitOn (xs : List α) : (xs.splitOn nl).length = xs.count nl + 1 := by
  induction xs with
  | nil => simp
  | cons x xs ih =>
    rw [splitOn_cons_eq_if_modifyHead, count_cons]
    split_ifs with h
    · rw [length_cons, ih]
    · rw [length_modifyHead, ih]

/-- **The lines and the number of separators make up the list.** -/
theorem eq_of_lines (h : lines nl xs = lines nl ys) (hcount : xs.count nl = ys.count nl) :
    xs = ys := by
  have hlen : (xs.splitOn nl).length = (ys.splitOn nl).length := by
    rw [length_splitOn, length_splitOn, hcount]
  have hsplit : xs.splitOn nl = ys.splitOn nl := by
    have hpos : 0 < (xs.splitOn nl).length := length_pos_iff.2 (splitOn_ne_nil nl xs)
    simp only [lines] at h
    split_ifs at h with hx hy hy
    · rw [← dropLast_append_getLast? [] hx, ← dropLast_append_getLast? [] hy, h]
    · have := congrArg length h
      rw [length_dropLast] at this
      omega
    · have := congrArg length h
      rw [length_dropLast] at this
      omega
    · exact h
  have hjoin : [nl].intercalate (xs.splitOn nl) = [nl].intercalate (ys.splitOn nl) := by rw [hsplit]
  rwa [intercalate_splitOn, intercalate_splitOn] at hjoin

/-! ## Up to the last separator -/

/-- What is up to the last separator. -/
def complete (nl : α) (xs : List α) : List α := xs.rdropWhile (· ≠ nl)

@[simp] theorem complete_nil : complete nl ([] : List α) = [] := rdropWhile_nil _

@[simp] theorem complete_snoc_sep (xs : List α) : complete nl (xs ++ [nl]) = xs ++ [nl] :=
  rdropWhile_concat_neg _ _ _ (by simp)

theorem complete_snoc {x : α} (hx : x ≠ nl) (xs : List α) :
    complete nl (xs ++ [x]) = complete nl xs :=
  rdropWhile_concat_pos _ _ _ (by simpa using hx)

theorem complete_append (xs ys : List α) :
    complete nl (xs ++ nl :: ys) = xs ++ nl :: complete nl ys := by
  induction ys using reverseRecOn with
  | nil => rw [complete_snoc_sep, complete_nil]
  | append_singleton ys y ih =>
    rw [← cons_append, ← append_assoc]
    by_cases hy : y = nl
    · subst hy
      rw [complete_snoc_sep, complete_snoc_sep, append_assoc, cons_append]
    · rw [complete_snoc hy, complete_snoc hy, ih]

theorem complete_of_notMem (h : nl ∉ xs) : complete nl xs = [] := by
  rw [complete, rdropWhile_eq_nil_iff]
  intro x hx
  simpa using fun heq : x = nl => h (heq ▸ hx)

theorem complete_eq_self : complete nl xs = xs ↔ xs = [] ∨ xs.getLast? = some nl := by
  rw [complete, rdropWhile_eq_self_iff]
  by_cases hxs : xs = []
  · simp [hxs]
  · simp [hxs, getLast?_eq_some_getLast hxs]

theorem count_complete (xs : List α) : (complete nl xs).count nl = xs.count nl := by
  induction xs using reverseRecOn with
  | nil => rw [complete_nil]
  | append_singleton xs x ih =>
    by_cases hx : x = nl
    · rw [hx, complete_snoc_sep]
    · rw [complete_snoc hx, ih, count_append, count_singleton, if_neg (by simpa using hx),
        Nat.add_zero]

theorem length_complete_le (xs : List α) : (complete nl xs).length ≤ xs.length :=
  List.IsPrefix.length_le ( rdropWhile_prefix _ _)

/-! ## Lines put together -/

/-- Lines, each with a separator after it. -/
def unlines (nl : α) (ls : List (List α)) : List α := ls.flatMap (· ++ [nl])

omit [DecidableEq α] in
@[simp] theorem unlines_nil : unlines nl ([] : List (List α)) = [] := rfl

omit [DecidableEq α] in
@[simp] theorem unlines_cons (l : List α) (ls : List (List α)) :
    unlines nl (l :: ls) = l ++ nl :: unlines nl ls := by
  simp [unlines]

omit [DecidableEq α] in
theorem unlines_snoc (ls : List (List α)) (l : List α) :
    unlines nl (ls ++ [l]) = unlines nl ls ++ l ++ [nl] := by
  simp [unlines]

/-- **Lines come apart as they were put together.** -/
theorem lines_unlines_append {ls : List (List α)} (h : ∀ l ∈ ls, nl ∉ l) (xs : List α) :
    lines nl (unlines nl ls ++ xs) = ls ++ lines nl xs := by
  induction ls with
  | nil => rfl
  | cons l ls ih =>
    rw [unlines_cons, append_assoc, cons_append, lines_append (h l mem_cons_self),
      ih fun m hm => h m (mem_cons_of_mem l hm), cons_append]

theorem lines_unlines {ls : List (List α)} (h : ∀ l ∈ ls, nl ∉ l) :
    lines nl (unlines nl ls) = ls := by
  simpa using lines_unlines_append h []

theorem lines_append_of_notMem (h : nl ∉ xs) (hne : xs ≠ []) (ys : List α) :
    ∃ l ls, lines nl (xs ++ ys) = l :: ls ∧ xs <+: l := by
  by_cases hys : nl ∈ ys
  · obtain ⟨as, bs, rfl, has⟩ := eq_append_cons_of_mem hys
    refine ⟨xs ++ as, lines nl bs, ?_, prefix_append xs as⟩
    rw [← append_assoc, lines_append (by simp [h, has])]
  · exact ⟨xs ++ ys, [], lines_of_notMem (by simp [h, hys]) (by simp [hne]), prefix_append xs ys⟩

/-! ## Finding a separator -/

theorem notMem_of_findIdx?_eq_none (h : xs.findIdx? (· = nl) = none) : nl ∉ xs := by
  intro hmem
  simpa using findIdx?_eq_none_iff.1 h nl hmem

theorem eq_of_findIdx?_eq_some {n : ℕ} (h : xs.findIdx? (· = nl) = some n) :
    nl ∉ xs.take n ∧ xs = xs.take n ++ nl :: xs.drop (n + 1) := by
  obtain ⟨hn, heq, hbefore⟩ := findIdx?_eq_some_iff_getElem.1 h
  constructor
  · intro hmem
    obtain ⟨i, hi, hget⟩ := mem_take_iff_getElem.1 hmem
    have hlt : i < n := by omega
    simpa [hget] using hbefore i hlt
  · have hnl : xs[n] = nl := by simpa using heq
    rw [← hnl, getElem_cons_drop hn, take_append_drop]

end List

/-! ## Repeated calls -/

namespace Calls

variable {σ ε β : Type*} (call : σ → Except ε (Option β) × σ)

/-- The state after `n` calls. -/
def stateAfter : ℕ → σ → σ
  | 0, s => s
  | n + 1, s => stateAfter n (call s).2

/-- The answer of a call after `n` others. -/
def answer (n : ℕ) (s : σ) : Except ε (Option β) := (call (stateAfter call n s)).1

/-- What `n` calls return with `Ok(Some(_))`, in order. -/
def handed : ℕ → σ → List β
  | 0, _ => []
  | n + 1, s =>
    match call s with
    | (.ok (some b), s') => b :: handed n s'
    | (_, s') => handed n s'

/-- What `n` calls return with `Err(_)`, in order. -/
def reported : ℕ → σ → List ε
  | 0, _ => []
  | n + 1, s =>
    match call s with
    | (.error e, s') => e :: reported n s'
    | (_, s') => reported n s'

theorem stateAfter_succ (n : ℕ) (s : σ) :
    stateAfter call (n + 1) s = (call (stateAfter call n s)).2 := by
  induction n generalizing s with
  | zero => rfl
  | succ n ih => exact ih (call s).2

/-- **One more call** hands out what it returns. -/
theorem handed_succ_of_some {n : ℕ} {s s' : σ} {b : β}
    (h : call (stateAfter call n s) = (.ok (some b), s')) :
    handed call (n + 1) s = handed call n s ++ [b] := by
  induction n generalizing s with
  | zero => simp [handed, show call s = _ from h]
  | succ n ih =>
    rcases hcall : call s with ⟨e | b' | b', s₁⟩ <;>
      rw [stateAfter, hcall] at h <;>
      rw [handed, handed, hcall] <;>
      simp only [ih h, List.cons_append]

/-- Calls from either state return the same with `Ok(Some(_))`, and then nothing more. -/
def SameHanded (s t : σ) : Prop :=
  ∃ L, (∃ N, ∀ n ≥ N, handed call n s = L) ∧ ∃ N, ∀ n ≥ N, handed call n t = L

end Calls

/-! ## Line readers -/

/-- What an answer takes off the elements `xs` to come: a line and its separator, or all that is
    left if it has none; nothing is answered at the end only. -/
def Hands {α : Type*} (nl : α) (xs : List α) : Option (List α) → List α → Prop
  | some line, ys => nl ∉ line ∧ (xs = line ++ nl :: ys ∨ xs = line ∧ line ≠ [] ∧ ys = [])
  | none, ys => xs = [] ∧ ys = []

/-- What an answer takes off the elements `xs` to come and the failures `es` pending: a line, or the
    first of the failures. -/
def Takes {α β ε : Type*} (nl : α) (decode : List α → β) (xs : List α) (es : List ε) :
    Except ε (Option β) → List α → List ε → Prop
  | .ok a, ys, es' => es' = es ∧ ∃ line, a = line.map decode ∧ Hands nl xs line ys
  | .error e, ys, es' => es = e :: es' ∧ ys = xs

/-- Calls that take one line after the other, or fail and take none. -/
structure LineReader {σ ε α β : Type*} (nl : α) (decode : List α → β)
    (call : σ → Except ε (Option β) × σ) where
  inv : σ → Prop
  come : σ → List α
  pend : σ → List ε
  call_spec : ∀ {s a s'}, inv s → call s = (a, s') →
    inv s' ∧ Takes nl decode (come s) (pend s) a (come s') (pend s')

namespace LineReader

open List Calls

variable {σ ε α β : Type*} [DecidableEq α] {nl : α} {decode : List α → β}
  {call : σ → Except ε (Option β) × σ} {s t : σ}

theorem lines_of_hands {xs ys : List α} {line : Option (List α)} (h : Hands nl xs line ys) :
    line = (lines nl xs).head? ∧ lines nl ys = (lines nl xs).tail := by
  cases line with
  | none =>
    obtain ⟨rfl, rfl⟩ := h
    simp
  | some line =>
    obtain ⟨hnl, rfl | ⟨rfl, hne, rfl⟩⟩ := h
    · simp [lines_append hnl]
    · simp [lines_of_notMem hnl hne]

variable (R : LineReader nl decode call)
include R

omit [DecidableEq α] in
theorem call_inv {a : Except ε (Option β)} {s' : σ} (h : R.inv s) (hcall : call s = (a, s')) :
    R.inv s' :=
  (R.call_spec h hcall).1

omit [DecidableEq α] in
theorem call_ok {a : Option β} {s' : σ} (h : R.inv s) (hcall : call s = (.ok a, s')) :
    R.pend s' = R.pend s ∧ ∃ line, a = line.map decode ∧ Hands nl (R.come s) line (R.come s') :=
  (R.call_spec h hcall).2

omit [DecidableEq α] in
theorem call_error {e : ε} {s' : σ} (h : R.inv s) (hcall : call s = (.error e, s')) :
    R.pend s = e :: R.pend s' ∧ R.come s' = R.come s :=
  (R.call_spec h hcall).2

/-- **Every answer is the next line**, if nothing fails. -/
theorem answer_eq (h : R.inv s) (hpend : R.pend s = []) (n : ℕ) :
    answer call n s = .ok ((lines nl (R.come s))[n]?.map decode) := by
  induction n generalizing s with
  | zero =>
    rcases hcall : call s with ⟨e | a, s'⟩
    · simp [(R.call_error h hcall).1] at hpend
    · obtain ⟨-, line, rfl, hands⟩ := R.call_ok h hcall
      rw [answer, stateAfter, hcall, (lines_of_hands hands).1, head?_eq_getElem?]
  | succ n ih =>
    rcases hcall : call s with ⟨e | a, s'⟩
    · simp [(R.call_error h hcall).1] at hpend
    · obtain ⟨hpend', line, -, hands⟩ := R.call_ok h hcall
      have hnext := ih (R.call_inv h hcall) (hpend'.trans hpend)
      rw [(lines_of_hands hands).2, getElem?_tail] at hnext
      rw [answer, stateAfter, hcall]
      exact hnext

omit [DecidableEq α] in
/-- **Every failure is reported**, in order. -/
theorem reported_append (h : R.inv s) (n : ℕ) :
    reported call n s ++ R.pend (stateAfter call n s) = R.pend s := by
  induction n generalizing s with
  | zero => rfl
  | succ n ih =>
    rcases hcall : call s with ⟨e | a, s'⟩
    · have hnext := ih (R.call_inv h hcall)
      simp [reported, stateAfter, hcall, hnext, (R.call_error h hcall).1]
    · have hnext := ih (R.call_inv h hcall)
      simp [reported, stateAfter, hcall, hnext, (R.call_ok h hcall).1]

theorem handed_nil (h : R.inv s) (hnil : lines nl (R.come s) = []) (n : ℕ) :
    handed call n s = [] := by
  induction n generalizing s with
  | zero => rfl
  | succ n ih =>
    rcases hcall : call s with ⟨e | a, s'⟩
    · have hcome := (R.call_error h hcall).2
      simp only [handed, hcall]
      exact ih (R.call_inv h hcall) (by rw [hcome, hnil])
    · obtain ⟨-, line, rfl, hands⟩ := R.call_ok h hcall
      obtain ⟨rfl, htail⟩ := lines_of_hands hands
      rw [hnil] at htail
      simp only [handed, hcall, hnil, head?_nil, Option.map_none]
      exact ih (R.call_inv h hcall) htail

/-- **All lines are handed out**, if the calls go on. -/
theorem handed_eq (h : R.inv s) {n : ℕ}
    (hn : (lines nl (R.come s)).length + (R.pend s).length ≤ n) :
    handed call n s = (lines nl (R.come s)).map decode := by
  by_cases hnil : lines nl (R.come s) = []
  · rw [R.handed_nil h hnil, hnil, map_nil]
  induction n generalizing s with
  | zero => exact absurd (length_eq_zero_iff.1 (by omega)) hnil
  | succ n ih =>
    rcases hcall : call s with ⟨e | a, s'⟩
    · obtain ⟨hpend, hcome⟩ := R.call_error h hcall
      rw [hpend, length_cons] at hn
      simp only [handed, hcall]
      rw [ih (R.call_inv h hcall) (by rw [hcome]; omega) (by rwa [hcome]), hcome]
    · obtain ⟨hpend, line, rfl, hands⟩ := R.call_ok h hcall
      obtain ⟨rfl, htail⟩ := lines_of_hands hands
      obtain ⟨l, ls, hls⟩ := exists_cons_of_ne_nil hnil
      rw [hls, tail_cons] at htail
      rw [hls, length_cons] at hn
      have hnext : handed call n s' = ls.map decode := by
        by_cases hnil' : lines nl (R.come s') = []
        · rw [R.handed_nil (R.call_inv h hcall) hnil', ← htail, hnil', map_nil]
        · rw [ih (R.call_inv h hcall) (by rw [htail, hpend]; omega) hnil', htail]
      simp only [handed, hcall, hls, head?_cons, Option.map_some, hnext, map_cons]

/-- **What is handed out, compared.** -/
theorem sameHanded_iff (hs : R.inv s) (ht : R.inv t) :
    SameHanded call s t ↔
      (lines nl (R.come s)).map decode = (lines nl (R.come t)).map decode := by
  constructor
  · rintro ⟨L, ⟨N, hN⟩, M, hM⟩
    have hsL := hN (N + ((lines nl (R.come s)).length + (R.pend s).length)) (by omega)
    have htL := hM (M + ((lines nl (R.come t)).length + (R.pend t).length)) (by omega)
    rw [R.handed_eq hs (by omega)] at hsL
    rw [R.handed_eq ht (by omega)] at htL
    rw [hsL, htL]
  · intro h
    refine ⟨_, ⟨_, fun n => R.handed_eq hs⟩, ?_⟩
    rw [h]
    exact ⟨_, fun n => R.handed_eq ht⟩

end LineReader
