/-
  The three loops that write all of what they are given: `File::write_all`,
  `Stream::write_all` of `socket.rs` and `write_fd` of `print.rs`.

  They differ in what they make of a zero.  The socket reports it and `write_fd`
  gives up; `File::write_all` makes the call again with the same bytes, and so
  for ever if the answer stays a zero.
-/
import Ekostd.Lib.PosixWrite
import Ekostd.File.Error
import Ekostd.Print.Model

namespace Ekostd

open PosixFs PosixWrite

/-- `File::write_all`. -/
def File.writeAll : Loop (Except File.Error Unit) where
  done := .ok ()
  zero := none
  fail e := if e = Errno.EINTR then none else some (.error (.fromErrno e "write"))

/-- `socket::Stream::write_all`. -/
def Socket.Stream.writeAll : Loop (Except Errno Unit) where
  done := .ok ()
  zero := some (.error Errno.EPIPE)
  fail e := if e = Errno.EINTR then none else some (.error e)

/-- `write_fd`. -/
def Print.writeFdLoop : Loop Unit where
  done := ()
  zero := some ()
  fail e := if e = Errno.EINTR then none else some ()

/-- The write loops return, and have passed consecutive pieces from the first byte on. -/
structure WriteLoopsEnd (bytes : Bytes) (w : ℕ → Answer) : Prop where
  file : File.writeAll.Ends bytes w
  socket : Socket.Stream.writeAll.Ends bytes w
  print : Print.writeFdLoop.Ends bytes w

/-- From some call on, with bytes left and no other error before, every answer is a zero or an
    interruption. -/
def Stalls (bytes : Bytes) (w : ℕ → Answer) : Prop :=
  ∃ N, (∀ n, n < N → ∀ e, w n = .error e → e = Errno.EINTR) ∧
    ∑ i ∈ Finset.range N, count (w i) < bytes.length ∧
    ∀ n, N ≤ n → w n = .ok 0 ∨ w n = .error Errno.EINTR

theorem File.writeAll_verdict {a : Answer} :
    File.writeAll.verdict a = none ↔ ∀ e, a = .error e → e = Errno.EINTR := by
  cases a with
  | error e => simp [Loop.verdict, File.writeAll]
  | ok n => cases n <;> simp [Loop.verdict, File.writeAll]

/-- **What `File::write_all` says**: all is written, or which error has ended it. -/
theorem File.writeAll_made {bytes : Bytes} {r : Except File.Error Unit} {made : List Call}
    (h : File.writeAll.Made bytes r made) : (r = .ok () ∧ accepted made = bytes) ∨
      ∃ e, r = .error (.fromErrno e "write") ∧ accepted made <+: bytes := by
  rcases h.ended with ⟨hr, hall, -⟩ | ⟨pre, c, -, hc, -⟩
  · exact .inl ⟨hr, hall⟩
  · refine .inr ?_
    cases ha : c.answer with
    | error e =>
      rw [ha] at hc
      simp only [Loop.verdict, File.writeAll] at hc
      split_ifs at hc
      cases hc
      exact ⟨e, rfl, h.consecutive.accepted_isPrefix⟩
    | ok n =>
      rw [ha] at hc
      cases n <;> cases hc

/-- **`File::write_all`** returns unless it stalls. -/
theorem File.writeAll_ends_iff (bytes : Bytes) (w : ℕ → Answer) :
    File.writeAll.Ends bytes w ↔ ¬ Stalls bytes w := by
  rw [← not_iff_not, not_not, Loop.not_ends_iff]
  simp only [File.writeAll_verdict]
  constructor
  · rintro ⟨hcalm, N, hsum, hN⟩
    refine ⟨N, fun n _ => hcalm n, hsum, fun n hn => ?_⟩
    have hzero := hN n hn
    cases ha : w n with
    | error e => exact .inr (congrArg _ (hcalm n e ha))
    | ok k =>
      rw [ha] at hzero
      exact .inl (congrArg _ hzero)
  · rintro ⟨N, hbefore, hsum, hafter⟩
    refine ⟨fun n e he => ?_, N, hsum, fun n hn => ?_⟩
    · rcases lt_or_ge n N with hn | hn
      · exact hbefore n hn e he
      · rcases hafter n hn with hz | hi
        · cases he.symm.trans hz
        · exact Except.error.inj (he.symm.trans hi)
    · rcases hafter n hn with hz | hi
      · rw [hz, count]
      · rw [hi, count]

theorem Socket.Stream.writeAll_ends {w : ℕ → Answer}
    (hw : ∀ N, ∃ n, N ≤ n ∧ w n ≠ .error Errno.EINTR) (bytes : Bytes) :
    Socket.Stream.writeAll.Ends bytes w :=
  .of_zero (by simp [Socket.Stream.writeAll]) (by simp [Socket.Stream.writeAll]) hw bytes

theorem Print.writeFdLoop_ends {w : ℕ → Answer}
    (hw : ∀ N, ∃ n, N ≤ n ∧ w n ≠ .error Errno.EINTR) (bytes : Bytes) :
    Print.writeFdLoop.Ends bytes w :=
  .of_zero (by simp [Print.writeFdLoop]) (by simp [Print.writeFdLoop]) hw bytes

/-- **When the write loops end**: the socket's and `write_fd` always, `File::write_all` and so all
    three exactly if the answers do not stall. -/
theorem write_loops_end_iff (bytes : Bytes) {w : ℕ → Answer}
    (hw : ∀ N, ∃ n, N ≤ n ∧ w n ≠ .error Errno.EINTR) :
    Socket.Stream.writeAll.Ends bytes w ∧ Print.writeFdLoop.Ends bytes w ∧
      (WriteLoopsEnd bytes w ↔ ¬ Stalls bytes w) := by
  have hsocket := Socket.Stream.writeAll_ends hw bytes
  have hprint := Print.writeFdLoop_ends hw bytes
  refine ⟨hsocket, hprint, fun h => (File.writeAll_ends_iff bytes w).1 h.file, fun h => ?_⟩
  exact ⟨(File.writeAll_ends_iff bytes w).2 h, hsocket, hprint⟩

/-- Two bytes, of which one is accepted at a time. -/
theorem write_loops_end_single :
    Socket.Stream.writeAll.Ends [104, 105] (fun _ => .ok 1) ∧
    Print.writeFdLoop.Ends [104, 105] (fun _ => .ok 1) ∧
      (WriteLoopsEnd [104, 105] (fun _ => .ok 1) ↔ ¬ Stalls [104, 105] fun _ => .ok 1) :=
  write_loops_end_iff [104, 105] fun N => ⟨N, le_rfl, by simp⟩

/-- One byte, and zeros: `File::write_all` does not return. -/
theorem write_all_zeros : (∀ N, ∃ n, N ≤ n ∧ (fun _ => .ok 0 : ℕ → Answer) n ≠ .error Errno.EINTR) ∧
    ¬ WriteLoopsEnd [104] fun _ => .ok 0 :=
  ⟨fun N => ⟨N, le_rfl, by simp⟩, fun h => (File.writeAll_ends_iff _ _).1 h.file
    ⟨0, by simp, by simp, fun _ _ => .inl rfl⟩⟩

end Ekostd
