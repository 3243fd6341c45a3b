/-
  Whether a stop is reported, by the one handle of a process.

  * `StopsReported`: no delivery is missed and none is invented;
  * `Books`: the bytes taken and those in the pipe are among the ones delivered,
    in their order;
  * `stops_reported`: after one install, for every pipe that holds a byte, stops
    are reported.
-/
import Ekostd.Signal.Model

namespace Ekostd.Signals

open PosixFs

variable {ι : Type*} [DecidableEq ι] {capacity : ℕ} {s s' : State ι} {a : Action ι}
  {as : List (Action ι)} {signals : List Signal} {signal : Signal} {t : ι} {h : ℕ}
  {log : List (Event ι)}

/-! ## What is observed -/

/-- The signals delivered, the first one first. -/
def delivered : List (Event ι) → List Signal
  | [] => []
  | .noted signal :: log => delivered log ++ [signal]
  | _ :: log => delivered log

/-- The bytes taken out of pipes, the first one first. -/
def consumed : List (Event ι) → Bytes
  | [] => []
  | .got _ _ read :: log => consumed log ++ taken read
  | _ :: log => consumed log

/-- Whether a signal was delivered since the last `read`. -/
def pending : List (Event ι) → Bool
  | [] => false
  | .noted _ :: _ => true
  | .got .. :: _ => false
  | _ :: log => pending log

/-- How many calls of `recv` have found a signal. -/
def found : List (Event ι) → ℕ
  | [] => 0
  | .got _ _ read :: log =>
    match recv read with
    | .ok (some _) => found log + 1
    | _ => found log
  | _ :: log => found log

/-- **No stop is missed and none is invented**, as observed in the state `s`. -/
structure StopsReported (capacity : ℕ) (s : State ι) : Prop where
  /-- The next `recv` after a delivery reports a signal. -/
  next : ∀ t h read pre, .got t h read :: pre <:+ s.log → pending pre = true →
    ∃ x, recv read = .ok (some x)
  /-- A `recv` reports nothing if there is nothing in the pipe, and otherwise the first signal
      of those that were delivered and that no `recv` has taken. -/
  read : ∀ t h s', (machine capacity).step s (.read t h) = some s' → ∃ read answer,
    s'.log = .got t h read :: s.log ∧ recv read = .ok answer ∧
      (answer = none ↔ s.pipes h = []) ∧
      ∀ x, answer = some x → ∃ rest, s.pipes h = x.byte :: rest ∧
        (consumed s.log ++ x.byte :: rest).Sublist ((delivered s.log).map Signal.byte)
  /-- There are no more reports than deliveries. -/
  count : found s.log ≤ (delivered s.log).length
  /-- A call returns what it makes of its own `read`, whatever happens until then. -/
  returned : ∀ t answer pre, .answered t answer :: pre <:+ s.log →
    ∃ read, lastRead t pre = some read ∧ answer = recv read

/-! ## The books -/

/-- The books of the first pipe. -/
structure Books (s : State ι) : Prop where
  sub : (consumed s.log ++ s.pipes 0).Sublist ((delivered s.log).map Signal.byte)
  pending : pending s.log = true → s.pipes 0 ≠ []
  next : ∀ t h read pre, .got t h read :: pre <:+ s.log → Signals.pending pre = true →
    ∃ x, recv read = .ok (some x)
  count : found s.log ≤ (consumed s.log).length

theorem recv_readPipe {pipe : Bytes} (hp : ∀ b ∈ pipe, ∃ x : Signal, b = x.byte) :
    (pipe = [] ∧ recv (readPipe pipe).1 = .ok none) ∨
      ∃ x rest, pipe = Signal.byte x :: rest ∧ recv (readPipe pipe).1 = .ok (some x) := by
  cases pipe with
  | nil => exact .inl ⟨rfl, rfl⟩
  | cons b rest =>
    obtain ⟨x, rfl⟩ := hp b List.mem_cons_self
    exact .inr ⟨x, rest, rfl, recv_readPipe_cons x rest⟩

theorem taken_pos {pipe : Bytes} (hp : pipe ≠ []) : 0 < (taken (readPipe pipe).1).length := by
  have hpos := List.length_pos_iff.2 hp
  unfold readPipe
  rw [if_neg hp, taken, List.length_take, chunk]
  omega

theorem books_step (hcap : 0 < capacity) (hs : Inv s) (hb : s.installed.length ≤ 1 → Books s)
    (ha : (machine capacity).step s a = some s') (hone : s'.installed.length ≤ 1) : Books s' := by
  cases a with
  | install signals =>
    obtain rfl := Option.some.inj ha
    have hb := hb (by simp [install] at hone; simp [hone])
    refine ⟨hb.sub, hb.pending, ?_, hb.count⟩
    intro t h read pre hpre
    exact hb.next t h read pre (suffix_of_ne hpre (by simp))
  | deliver signal =>
    obtain ⟨hn, rfl⟩ := step_deliver ha
    obtain ⟨hne, hw⟩ := hs.writeEnd hn
    rw [note_eq hw] at hone ⊢
    have hb := hb hone
    have hzero : s.installed.length - 1 = 0 := by
      dsimp only at hone
      omega
    rw [hzero]
    refine ⟨?_, ?_, ?_, hb.count⟩
    · dsimp only [consumed, delivered]
      rw [Function.update_self, List.map_append, List.map_singleton]
      split_ifs
      · rw [← List.append_assoc]
        exact hb.sub.append (List.Sublist.refl _)
      · exact hb.sub.trans (List.sublist_append_left _ _)
    · intro _
      dsimp only
      rw [Function.update_self]
      split_ifs with hroom
      · simp
      · exact List.ne_nil_of_length_pos (by omega)
    · intro t h read pre hpre
      exact hb.next t h read pre (suffix_of_ne hpre (by simp))
  | read t h =>
    obtain ⟨hlt, hnone, rfl⟩ := step_read ha
    have hb := hb hone
    obtain rfl : h = 0 := by
      dsimp only at hone
      omega
    have htaken := taken_readPipe (s.pipes 0)
    refine ⟨?_, ?_, ?_, ?_⟩
    · dsimp only [consumed, delivered]
      rw [Function.update_self, List.append_assoc, htaken]
      exact hb.sub
    · intro hpending
      cases hpending
    · intro u k read pre hpre hpending
      rcases List.suffix_cons_iff.1 hpre with hpre | hpre
      · obtain ⟨hev, rfl⟩ := List.cons.inj hpre
        cases hev
        rcases recv_readPipe (hs.known 0) with ⟨hnil, -⟩ | ⟨x, rest, -, hrecv⟩
        · exact absurd hnil (hb.pending hpending)
        · exact ⟨x, hrecv⟩
      · exact hb.next u k read pre hpre hpending
    · have hcount := hb.count
      dsimp only [found, consumed]
      rw [List.length_append]
      rcases recv_readPipe (hs.known 0) with ⟨-, hrecv⟩ | ⟨x, rest, hp, hrecv⟩
      · rw [hrecv]
        exact hcount.trans (Nat.le_add_right _ _)
      · have hpos : 0 < (taken (readPipe (s.pipes 0)).1).length :=
          taken_pos (by rw [hp]; exact List.cons_ne_nil _ _)
        rw [hrecv]
        dsimp only
        omega
  | ret t =>
    obtain ⟨read, hread, rfl⟩ := step_ret ha
    have hb := hb hone
    refine ⟨hb.sub, hb.pending, ?_, hb.count⟩
    intro t h read pre hpre
    exact hb.next t h read pre (suffix_of_ne hpre (by simp))

theorem returned_inductive (capacity : ℕ) : (machine (ι := ι) capacity).Inductive fun s =>
    Inv s ∧ ∀ t answer pre, .answered t answer :: pre <:+ s.log →
      ∃ read, lastRead t pre = some read ∧ answer = recv read := by
  refine (inv_inductive capacity).and ?_ ?_
  · intro t answer pre hpre
    cases List.suffix_nil.1 hpre
  · intro s a s' hs hret ha t answer pre hpre
    cases a with
    | install signals =>
      obtain rfl := Option.some.inj ha
      exact hret t answer pre (suffix_of_ne hpre (by simp))
    | deliver signal =>
      obtain ⟨-, rfl⟩ := step_deliver ha
      exact hret t answer pre (suffix_of_ne hpre (by simp))
    | read u h =>
      obtain ⟨-, -, rfl⟩ := step_read ha
      exact hret t answer pre (suffix_of_ne hpre (by simp))
    | ret u =>
      obtain ⟨read, hread, rfl⟩ := step_ret ha
      rcases List.suffix_cons_iff.1 hpre with hpre | hpre
      · obtain ⟨hev, rfl⟩ := List.cons.inj hpre
        cases hev
        exact ⟨read, hs.reading t read hread, rfl⟩
      · exact hret t answer pre hpre

theorem books_inductive (hcap : 0 < capacity) : (machine (ι := ι) capacity).Inductive fun s =>
    Inv s ∧ (s.installed.length ≤ 1 → Books s) := by
  refine (inv_inductive capacity).and ?_ (books_step hcap)
  intro _
  refine ⟨List.Sublist.refl _, ?_, ?_, Nat.le_refl 0⟩
  · intro hpending
    cases hpending
  · intro t h read pre hpre
    cases List.suffix_nil.1 hpre

/-- **A stop is neither missed nor invented**: after one install, whatever the set of signals, the
    room in the pipe, the deliveries and the threads that call `recv` meanwhile. -/
theorem stops_reported (hcap : 0 < capacity) (hr : (machine capacity).run as = some s)
    (hs : s.installed = [signals]) : StopsReported capacity s := by
  have hone : s.installed.length ≤ 1 := by rw [hs, List.length_singleton]
  obtain ⟨hinv, hbooks⟩ := (books_inductive hcap).run hr
  have hb := hbooks hone
  have hlen := hb.sub.length_le
  rw [List.length_append, List.length_map] at hlen
  refine ⟨hb.next, ?_, by have hcount := hb.count; omega, ((returned_inductive capacity).run hr).2⟩
  intro t h s' ha
  obtain ⟨hlt, -, rfl⟩ := step_read ha
  obtain rfl : h = 0 := by omega
  rcases recv_readPipe (hinv.known 0) with ⟨hp, hrecv⟩ | ⟨x, rest, hp, hrecv⟩
  · refine ⟨_, none, rfl, hrecv, iff_of_true rfl hp, ?_⟩
    intro x hx
    cases hx
  · refine ⟨_, some x, rfl, hrecv, ?_, ?_⟩
    · rw [hp]
      exact iff_of_false (Option.some_ne_none x) (List.cons_ne_nil _ _)
    · rintro _ ⟨⟩
      exact ⟨rest, hp, hp ▸ hb.sub⟩

/-- Two deliveries to a pipe of one byte, and a call of `recv`. -/
theorem stops_reported_full : ∃ s, (machine 1).run
    [.install [.term, .int], .deliver .term, .deliver .int, .read 0 0, .ret 0] = some s ∧
      StopsReported (ι := ℕ) 1 s := by
  obtain ⟨s, hr, hs⟩ : ∃ s, (machine (ι := ℕ) 1).run
      [.install [.term, .int], .deliver .term, .deliver .int, .read 0 0, .ret 0] = some s ∧
        s.installed = [[.term, .int]] := ⟨_, rfl, rfl⟩
  exact ⟨s, hr, stops_reported Nat.one_pos hr hs⟩

end Ekostd.Signals
