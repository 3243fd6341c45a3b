/-
  `write(2)` on one descriptor — loops that write all of what they are given.

  A descriptor is the answers that `write` will give on it, in order, and the
  calls that have been made.  What a loop does with a zero and with an error is
  its own: it ends, or makes the call again with what is left.

  * `Loop.run`: a loop, up to where it returns or waits for an answer;
  * `run_made`: the calls it makes, each with what the ones before have left;
  * `run_eq_none_iff`: which answers it waits for more after;
  * `Loop.Ends`, `not_ends_iff`: the schedules of answers that it ends under, and
    `Loop.Ends.of_zero`, a loop that a zero ends.
-/
import Ekostd.Lib.PosixFs

namespace PosixWrite

open PosixFs

/-- What one `write` answers: how many bytes it accepts, or an error. -/
abbrev Answer := Except Errno ℕ

/-- How many bytes an answer accepts; of fewer than that, all. -/
def count : Answer → ℕ
  | .ok n => n
  | .error _ => 0

/-- A call of `write`: what it is given, and what it answers. -/
structure Call where
  bytes : Bytes
  answer : Answer

/-- What a call accepts. -/
def Call.accepted (c : Call) : Bytes := c.bytes.take (count c.answer)

/-- What calls accept. -/
def accepted (calls : List Call) : Bytes := calls.flatMap Call.accepted

/-- Every call is given what the ones before it have left of `bytes`. -/
def Consecutive (bytes : Bytes) (calls : List Call) : Prop :=
  ∀ pre c post, calls = pre ++ c :: post → accepted pre ++ c.bytes = bytes

/-- A descriptor: the answers it will give, and the calls that have been made. -/
structure Fd where
  answers : List Answer
  calls : List Call

/-- A loop that returns a `ρ`: where nothing is left; on a zero and on an error, unless it goes on
    after it. -/
structure Loop (ρ : Type*) where
  done : ρ
  zero : Option ρ
  fail : Errno → Option ρ

variable {ρ : Type*} {L : Loop ρ} {bytes : Bytes} {as : List Answer} {calls : List Call} {r : ρ}
  {fd : Fd} {a : Answer}

/-- What the loop returns on an answer. -/
def Loop.verdict (L : Loop ρ) : Answer → Option ρ
  | .ok 0 => L.zero
  | .ok (_ + 1) => none
  | .error e => L.fail e

/-- The loop; `none` if it waits for another answer. -/
def Loop.run (L : Loop ρ) : Bytes → List Answer → List Call → Option (ρ × Fd)
  | [], as, calls => some (L.done, ⟨as, calls⟩)
  | _ :: _, [], _ => none
  | b :: bs, a :: as, calls =>
    match L.verdict a with
    | some r => some (r, ⟨as, calls ++ [⟨b :: bs, a⟩]⟩)
    | none => L.run ((b :: bs).drop (count a)) as (calls ++ [⟨b :: bs, a⟩])

/-- The loop on a descriptor. -/
def Loop.on (L : Loop ρ) (bytes : Bytes) (fd : Fd) : Option (ρ × Fd) :=
  L.run bytes fd.answers fd.calls

@[simp] theorem accepted_nil : accepted [] = [] := rfl

@[simp] theorem accepted_cons (c : Call) (calls : List Call) :
    accepted (c :: calls) = c.accepted ++ accepted calls := rfl

@[simp] theorem accepted_append (xs ys : List Call) :
    accepted (xs ++ ys) = accepted xs ++ accepted ys :=
  List.flatMap_append

/-! ## The calls of a loop -/

theorem consecutive_nil : Consecutive bytes [] := by
  intro pre c post h
  simp at h

theorem consecutive_cons {made : List Call} (h : Consecutive (bytes.drop (count a)) made) :
    Consecutive bytes (⟨bytes, a⟩ :: made) := by
  rintro (_ | ⟨d, pre⟩) c post heq
  · cases heq
    rfl
  · cases heq
    rw [accepted_cons, List.append_assoc, h pre c post rfl]
    exact List.take_append_drop _ bytes

/-- **Nothing is skipped or repeated**: what is accepted is a first part of `bytes`. -/
theorem Consecutive.accepted_isPrefix {made : List Call} (h : Consecutive bytes made) :
    accepted made <+: bytes := by
  rcases List.eq_nil_or_concat made with rfl | ⟨pre, c, rfl⟩
  · exact List.nil_prefix
  · rw [List.concat_eq_append] at h ⊢
    rw [← h pre c [] rfl, accepted_append, accepted_cons, accepted_nil, List.append_nil]
    exact (List.prefix_append_right_inj _).2 (List.take_prefix _ _)

/-- The calls `made` of a loop that has returned `r`. -/
structure Loop.Made (L : Loop ρ) (bytes : Bytes) (r : ρ) (made : List Call) : Prop where
  consecutive : Consecutive bytes made
  /-- It has written all, or the last answer has ended it. -/
  ended : (r = L.done ∧ accepted made = bytes ∧ ∀ c ∈ made, L.verdict c.answer = none) ∨
    ∃ pre c, made = pre ++ [c] ∧ L.verdict c.answer = some r ∧ c.bytes ≠ []

theorem Loop.run_made (h : L.run bytes as calls = some (r, fd)) :
    ∃ made, fd.calls = calls ++ made ∧ as = made.map Call.answer ++ fd.answers ∧
      L.Made bytes r made := by
  induction as generalizing bytes calls with
  | nil =>
    cases bytes with
    | nil =>
      cases h
      exact ⟨[], by simp, rfl, consecutive_nil, .inl ⟨rfl, rfl, by simp⟩⟩
    | cons b bs => cases h
  | cons a as ih =>
    cases bytes with
    | nil =>
      cases h
      exact ⟨[], by simp, rfl, consecutive_nil, .inl ⟨rfl, rfl, by simp⟩⟩
    | cons b bs =>
      rw [Loop.run] at h
      cases hv : L.verdict a with
      | some r' =>
        rw [hv] at h
        cases h
        exact ⟨[⟨b :: bs, a⟩], rfl, rfl, consecutive_cons consecutive_nil,
          .inr ⟨[], _, rfl, hv, by simp⟩⟩
      | none =>
        rw [hv] at h
        obtain ⟨made, hcalls, has, hmade⟩ := ih h
        refine ⟨⟨b :: bs, a⟩ :: made, by rw [hcalls]; simp, by rw [has]; rfl,
          consecutive_cons hmade.consecutive, ?_⟩
        rcases hmade.ended with ⟨hr, hacc, hall⟩ | ⟨pre, c, rfl, hc, hne⟩
        · refine .inl ⟨hr, ?_, by simpa [hv] using hall⟩
          rw [accepted_cons, hacc]
          exact List.take_append_drop _ _
        · exact .inr ⟨_ :: pre, c, rfl, hc, hne⟩

/-! ## Where a loop ends -/

/-- **A loop waits for another answer** exactly if none so far has ended it and all of them together
    accept less than there is. -/
theorem Loop.run_eq_none_iff : L.run bytes as calls = none ↔
    (∀ a ∈ as, L.verdict a = none) ∧ (as.map count).sum < bytes.length := by
  induction as generalizing bytes calls with
  | nil => cases bytes <;> simp [Loop.run]
  | cons a as ih =>
    cases bytes with
    | nil => simp [Loop.run]
    | cons b bs =>
      rw [Loop.run]
      cases hv : L.verdict a with
      | some r => simp [hv]
      | none =>
        simp only [ih, List.forall_mem_cons, hv, true_and, List.map_cons, List.sum_cons,
          List.length_drop]
        exact and_congr_right fun _ => by omega

/-- The loop returns under the schedule `w`, and has passed consecutive pieces of `bytes`. -/
def Loop.Ends (L : Loop ρ) (bytes : Bytes) (w : ℕ → Answer) : Prop :=
  ∃ n r fd, L.run bytes ((List.range n).map w) [] = some (r, fd) ∧ Consecutive bytes fd.calls

theorem sum_count (w : ℕ → Answer) (n : ℕ) :
    (((List.range n).map w).map count).sum = ∑ i ∈ Finset.range n, count (w i) := by
  induction n with
  | zero => rfl
  | succ n ih => simp [List.range_succ, Finset.sum_range_succ, ← ih]

/-- Numbers whose sums are bounded are zero in the end. -/
theorem eventually_zero {f : ℕ → ℕ} {b : ℕ} (h : ∀ n, ∑ i ∈ Finset.range n, f i < b) :
    ∃ N, ∀ n, N ≤ n → f n = 0 := by
  have hbdd : BddAbove (Set.range fun n => ∑ i ∈ Finset.range n, f i) :=
    ⟨b, by rintro _ ⟨n, rfl⟩; exact (h n).le⟩
  obtain ⟨N, hN⟩ := Nat.sSup_mem (Set.range_nonempty _) hbdd
  refine ⟨N, fun n hn => ?_⟩
  have hmax : ∑ i ∈ Finset.range (n + 1), f i ≤ ∑ i ∈ Finset.range N, f i :=
    (le_csSup hbdd ⟨n + 1, rfl⟩).trans hN.symm.le
  have hmono : ∑ i ∈ Finset.range N, f i ≤ ∑ i ∈ Finset.range n, f i :=
    Finset.sum_le_sum_of_subset (Finset.range_subset_range.2 hn)
  rw [Finset.sum_range_succ] at hmax
  omega

/-- **A loop does not end** exactly if no answer ends it, and from some one on they accept nothing
    of what is left. -/
theorem Loop.not_ends_iff {w : ℕ → Answer} : ¬ L.Ends bytes w ↔
    (∀ n, L.verdict (w n) = none) ∧
    ∃ N, ∑ i ∈ Finset.range N, count (w i) < bytes.length ∧ ∀ n, N ≤ n → count (w n) = 0 := by
  have hends : ¬ L.Ends bytes w ↔ ∀ n, L.run bytes ((List.range n).map w) [] = none := by
    constructor
    · intro h n
      by_contra hrun
      obtain ⟨⟨r, fd⟩, hr⟩ := Option.ne_none_iff_exists'.1 hrun
      obtain ⟨made, hcalls, -, hmade⟩ := Loop.run_made hr
      exact h ⟨n, r, fd, hr, by simpa [hcalls] using hmade.consecutive⟩
    · rintro h ⟨n, r, fd, hr, -⟩
      cases (h n).symm.trans hr
  simp only [hends, Loop.run_eq_none_iff, sum_count, List.forall_mem_map, List.mem_range]
  constructor
  · intro h
    obtain ⟨N, hN⟩ := eventually_zero fun n => (h n).2
    exact ⟨fun n => (h (n + 1)).1 n n.lt_succ_self, N, (h N).2, hN⟩
  · rintro ⟨hverdict, N, hsum, hN⟩ n
    refine ⟨fun i _ => hverdict i, lt_of_le_of_lt ?_ hsum⟩
    rcases le_total n N with hn | hn
    · exact Finset.sum_le_sum_of_subset (Finset.range_subset_range.2 hn)
    · exact (Finset.sum_subset (Finset.range_subset_range.2 hn) fun i _ hi =>
        hN i (by simpa using hi)).ge

/-- **A loop that a zero ends**, and every error but an interruption, ends unless it is interrupted
    for ever. -/
theorem Loop.Ends.of_zero (hzero : L.zero ≠ none)
    (hfail : ∀ e, L.fail e = none → e = Errno.EINTR) {w : ℕ → Answer}
    (hw : ∀ N, ∃ n, N ≤ n ∧ w n ≠ .error Errno.EINTR) (bytes : Bytes) : L.Ends bytes w := by
  by_contra h
  obtain ⟨hverdict, N, -, hN⟩ := Loop.not_ends_iff.1 h
  obtain ⟨n, hn, hne⟩ := hw N
  have hgoes := hverdict n
  have hcount := hN n hn
  cases ha : w n with
  | error e =>
    rw [ha] at hgoes
    exact hne (by rw [ha, hfail e hgoes])
  | ok k =>
    rw [ha] at hgoes hcount
    obtain rfl : k = 0 := hcount
    exact hzero hgoes

end PosixWrite
