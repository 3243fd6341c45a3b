/-
  `read(2)` on one descriptor — the ways a stream is delivered.

  A descriptor is the answers that `read` will give on it, in order; when there
  are no more of them it answers zero for ever.

  * `delivered`: the stream; `failing`: the failures that are not interruptions;
  * `Delivers`: no answer is longer than what was asked for, and nothing comes
    after a zero;
  * `unfailing`: the same stream without the failures;
  * `deliver`: the reads of a content, by a schedule of short counts and errors.
-/
import Ekostd.Lib.PosixFs
import Ekostd.Lib.Lines

namespace PosixRead

open PosixFs List

/-- `\n`. -/
def newline : UInt8 := 10

/-- What one `read` answers: the bytes that arrived, or an error. -/
abbrev Answer := Except Errno Bytes

/-- `read`. -/
def read : List Answer → Answer × List Answer
  | [] => (.ok [], [])
  | a :: fd => (a, fd)

/-- The stream. -/
def delivered : List Answer → Bytes
  | [] => []
  | .ok c :: fd => c ++ delivered fd
  | .error _ :: fd => delivered fd

/-- The errors that are not interruptions. -/
def failing : List Answer → List Errno
  | [] => []
  | .ok _ :: fd => failing fd
  | .error e :: fd => if e = Errno.EINTR then failing fd else e :: failing fd

/-- The same descriptor without the failures. -/
def unfailing : List Answer → List Answer
  | [] => []
  | .ok c :: fd => .ok c :: unfailing fd
  | .error e :: fd => if e = Errno.EINTR then .error e :: unfailing fd else unfailing fd

/-- A stream is delivered, `size` bytes being asked for at a time. -/
structure Delivers (size : ℕ) (fd : List Answer) : Prop where
  sized : ∀ c, Except.ok c ∈ fd → c.length ≤ size
  ended : fd.Pairwise fun x y => x = .ok [] → ∀ c, y = .ok c → c = []

/-- A way to deliver a stream. -/
def Delivery (size : ℕ) := {fd : List Answer // Delivers size fd}

variable {size : ℕ} {fd rest : List Answer} {a : Answer}

theorem Delivers.tail (h : Delivers size (a :: fd)) : Delivers size fd :=
  ⟨fun c hc => h.sized c (mem_cons_of_mem a hc), h.ended.of_cons⟩

theorem eq_of_read (h : read fd = (a, rest)) :
    fd = a :: rest ∨ fd = [] ∧ a = .ok [] ∧ rest = [] := by
  cases fd with
  | nil =>
    cases h
    exact .inr ⟨rfl, rfl, rfl⟩
  | cons b fd =>
    cases h
    exact .inl rfl

theorem Delivers.read_length (h : Delivers size fd) {c : Bytes}
    (hc : (PosixRead.read fd).1 = .ok c) : c.length ≤ size := by
  cases fd with
  | nil =>
    cases hc
    exact Nat.zero_le size
  | cons a fd => exact h.sized c (hc ▸ mem_cons_self)

theorem unfailing_sublist (fd : List Answer) : unfailing fd <+ fd := by
  induction fd with
  | nil => exact .slnil
  | cons a fd ih =>
    cases a with
    | ok c => exact ih.cons_cons _
    | error e =>
      unfold unfailing
      split_ifs
      · exact ih.cons_cons _
      · exact ih.cons _

theorem Delivers.unfailing (h : Delivers size fd) : Delivers size (unfailing fd) :=
  ⟨fun c hc => h.sized c ((unfailing_sublist fd).mem hc), h.ended.sublist (unfailing_sublist fd)⟩

/-- The same stream without the failing reads. -/
def Delivery.unfailing (d : Delivery size) : Delivery size := ⟨_, d.2.unfailing⟩

@[simp] theorem delivered_unfailing (fd : List Answer) :
    delivered (unfailing fd) = delivered fd := by
  induction fd with
  | nil => rfl
  | cons a fd ih =>
    cases a with
    | ok c => simp [PosixRead.unfailing, delivered, ih]
    | error e =>
      unfold PosixRead.unfailing
      split_ifs <;> simpa [delivered] using ih

@[simp] theorem failing_unfailing (fd : List Answer) : failing (unfailing fd) = [] := by
  induction fd with
  | nil => rfl
  | cons a fd ih =>
    cases a with
    | ok c => simpa [PosixRead.unfailing, failing] using ih
    | error e =>
      unfold PosixRead.unfailing
      split_ifs with h
      · simpa [failing, h] using ih
      · exact ih

theorem delivered_append (fd rest : List Answer) :
    delivered (fd ++ rest) = delivered fd ++ delivered rest := by
  induction fd with
  | nil => rfl
  | cons a fd ih => cases a <;> simp [delivered, ih]

theorem failing_append (fd rest : List Answer) :
    failing (fd ++ rest) = failing fd ++ failing rest := by
  induction fd with
  | nil => rfl
  | cons a fd ih =>
    cases a with
    | ok c => exact ih
    | error e =>
      rw [cons_append, failing, failing]
      split_ifs <;> simp [ih]

theorem eq_nil_of_delivered_nil (h : delivered fd = []) {c : Bytes} (hc : .ok c ∈ fd) : c = [] := by
  induction fd with
  | nil => cases hc
  | cons a fd ih =>
    cases a with
    | ok d =>
      obtain ⟨hd, hrest⟩ := append_eq_nil_iff.1 h
      rcases mem_cons.1 hc with heq | hc
      · exact (Except.ok.inj heq).trans hd
      · exact ih hrest hc
    | error e => exact ih h (by simpa using hc)

/-- **Nothing comes after a zero.** -/
theorem Delivers.delivered_nil (h : Delivers size (.ok [] :: fd)) : delivered fd = [] := by
  have hall := fun a ha c => (pairwise_cons.1 h.ended).1 a ha rfl c
  clear h
  induction fd with
  | nil => rfl
  | cons a fd ih =>
    have hrest := ih fun b hb => hall b (mem_cons_of_mem a hb)
    cases a with
    | ok c => rw [delivered, hall _ mem_cons_self c rfl, hrest, append_nil]
    | error e => exact hrest

/-! ## Reading a content -/

/-- `n` reads that get `size` bytes each, as long as there are any. -/
def undisturbed (size : ℕ) : ℕ → Bytes → List Answer
  | 0, _ => []
  | n + 1, content => .ok (content.take size) :: undisturbed size n (content.drop size)

/-- The reads of `content`, of which `os` says what fails, and how many bytes arrive of those that
    are asked for; the reads that come after it get all of these. -/
def deliver (size : ℕ) (content : Bytes) : List (Except Errno ℕ+) → List Answer
  | [] => undisturbed size content.length content
  | .error e :: os => .error e :: deliver size content os
  | .ok k :: os => .ok (content.take (min k size)) :: deliver size (content.drop (min k size)) os

theorem delivered_undisturbed (hsize : 0 < size) {n : ℕ} {content : Bytes}
    (h : content.length ≤ n) : delivered (undisturbed size n content) = content := by
  induction n generalizing content with
  | zero =>
    obtain rfl := eq_nil_of_length_eq_zero (Nat.le_zero.1 h)
    rfl
  | succ n ih =>
    have hrest : (content.drop size).length ≤ n := by
      rw [length_drop]
      omega
    rw [undisturbed, delivered, ih hrest, take_append_drop]

/-- **The content is delivered**, whatever the schedule. -/
theorem delivered_deliver (hsize : 0 < size) (content : Bytes) (os : List (Except Errno ℕ+)) :
    delivered (deliver size content os) = content := by
  induction os generalizing content with
  | nil => exact delivered_undisturbed hsize le_rfl
  | cons o os ih =>
    cases o with
    | error e => exact ih content
    | ok k => rw [deliver, delivered, ih, take_append_drop]

/-- Answers that begin a content at most, each with what is there. -/
theorem delivers_cons {content : Bytes} {k : ℕ} (hk : 0 < k) (hsize : k ≤ size)
    (h : Delivers size fd) (hrest : delivered fd = content.drop k) :
    Delivers size (.ok (content.take k) :: fd) := by
  refine ⟨?_, pairwise_cons.2 ⟨fun y hy hnil c hc => ?_, h.ended⟩⟩
  · rintro c (_ | ⟨_, hc⟩)
    · exact (length_take_le k content).trans hsize
    · exact h.sized c hc
  · -- nothing is left of a content of which nothing is taken
    obtain rfl : content = [] := by
      simpa [take_eq_nil_iff, hk.ne'] using Except.ok.inj hnil
    subst hc
    rw [drop_nil] at hrest
    exact eq_nil_of_delivered_nil hrest hy

theorem delivers_undisturbed (hsize : 0 < size) {n : ℕ} {content : Bytes}
    (h : content.length ≤ n) : Delivers size (undisturbed size n content) := by
  induction n generalizing content with
  | zero => exact ⟨by rintro c ⟨⟩, .nil⟩
  | succ n ih =>
    have hrest : (content.drop size).length ≤ n := by
      rw [length_drop]
      omega
    exact delivers_cons hsize le_rfl (ih hrest) (delivered_undisturbed hsize hrest)

theorem delivers_deliver (hsize : 0 < size) (content : Bytes) (os : List (Except Errno ℕ+)) :
    Delivers size (deliver size content os) := by
  induction os generalizing content with
  | nil => exact delivers_undisturbed hsize le_rfl
  | cons o os ih =>
    cases o with
    | error e =>
      refine ⟨fun c hc => (ih content).sized c (by simpa [deliver] using hc), ?_⟩
      exact pairwise_cons.2 ⟨by simp, (ih content).ended⟩
    | ok k =>
      exact delivers_cons (lt_min k.pos hsize) (min_le_right _ _) (ih _)
        (delivered_deliver hsize _ os)

end PosixRead
