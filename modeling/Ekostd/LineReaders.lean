/-
  The two line readers, `Lines::next_line` of a connection and
  `Stdin::read_line`, on a stream that arrives in pieces.

  * `line_readers_chunking`: where no read fails, both answer the lines of the
    stream, however it is delivered;
  * `failed_reads_lose_line`: where reads fail, `read_line` still hands out every
    line; `next_line` does exactly if none fails in the middle of one, because
    what it has gathered of a line is in a local that an early return drops.
-/
import Ekostd.File.Stdin
import Ekostd.Lib.Utf8
import Ekostd.Socket.Lines

namespace Ekostd

open PosixFs PosixRead List Calls Utf8 Socket File

variable {fd : List Answer}

/-! ## From the start -/

theorem lines_inv (hfd : Delivers 8192 fd) {β : Type} (decode : Bytes → β) :
    (Lines.reader decode).inv (Stream.lines, fd) :=
  ⟨Stream.lines_wellFormed, hfd⟩

theorem lines_come {β : Type} (decode : Bytes → β) (fd : List Answer) :
    (Lines.reader decode).come (Stream.lines, fd) = kept [] fd := by
  simp only [Lines.reader, Lines.held, Stream.lines, take_zero, drop_nil]

theorem stdin_inv (hfd : Delivers 8192 fd) {β : Type} (decode : Bytes → β) :
    (Stdin.reader decode).inv (stdin, fd) :=
  ⟨hfd, by simp [stdin]⟩

theorem stdin_come {β : Type} (decode : Bytes → β) (fd : List Answer) :
    (Stdin.reader decode).come (stdin, fd) = delivered fd := by
  simp [Stdin.reader, stdin, Stdin.held]

theorem failsBetweenLines_of_failing_nil (h : failing fd = []) : FailsBetweenLines [] fd := by
  rintro before e rest rfl he -
  rw [failing_append] at h
  simp [failing, he] at h

/-! ## The answers -/

/-- **Both readers answer the lines of the stream**, each decoded as a whole, and then nothing,
    however it is delivered. -/
theorem line_readers_chunking (d : Delivery 8192) (hd : failing d.1 = []) (n : ℕ) :
    answer (Lines.nextLine fromUtf8Lossy) n (Stream.lines, d.1) =
      .ok ((lines newline (delivered d.1))[n]?.map fromUtf8Lossy) ∧
    answer (Stdin.readLine fromUtf8Lossy) n (stdin, d.1) =
      .ok ((lines newline (delivered d.1))[n]?.map fromUtf8Lossy) := by
  have hkept : kept [] d.1 = delivered d.1 := by
    have hbetween := failsBetweenLines_of_failing_nil hd
    rwa [← kept_eq_append_iff d.2, nil_append] at hbetween
  constructor
  · rw [(Lines.reader fromUtf8Lossy).answer_eq (lines_inv d.2 _) hd, lines_come, hkept]
  · have hpend : (Stdin.reader fromUtf8Lossy).pend (stdin, d.1) = [] := by
      simp [Stdin.reader, hd]
    rw [(Stdin.reader fromUtf8Lossy).answer_eq (stdin_inv d.2 _) hpend, stdin_come]

/-- `a`, an interruption, then `b` with the rest of a stream. -/
theorem line_readers_chunking_interrupted :
    let fd : List Answer := [.ok [97], .error Errno.EINTR, .ok [98, newline, 99]]
    answer (Lines.nextLine fromUtf8Lossy) 1 (Stream.lines, fd) = .ok (some (fromUtf8Lossy [99])) ∧
    answer (Stdin.readLine fromUtf8Lossy) 1 (stdin, fd) = .ok (some (fromUtf8Lossy [99])) :=
  line_readers_chunking
    ⟨[.ok [97], .error Errno.EINTR, .ok [98, newline, 99]], ⟨by simp, by simp⟩⟩ rfl 1

/-! ## Reads that fail -/

theorem stdin_sameHanded (d : Delivery 8192) {β : Type} (decode : Bytes → β) :
    SameHanded (Stdin.readLine decode) (stdin, d.1) (stdin, d.unfailing.1) := by
  rw [(Stdin.reader decode).sameHanded_iff (stdin_inv d.2 _) (stdin_inv d.unfailing.2 _),
    stdin_come, stdin_come]
  simp [Delivery.unfailing]

theorem lines_sameHanded_iff (d : Delivery 8192) {β : Type} (decode : Bytes → β) :
    SameHanded (Lines.nextLine decode) (Stream.lines, d.1) (Stream.lines, d.unfailing.1) ↔
      (lines newline (kept [] d.1)).map decode = (lines newline (delivered d.1)).map decode := by
  have hunfailing : kept [] d.unfailing.1 = delivered d.unfailing.1 := by
    have hbetween : FailsBetweenLines [] d.unfailing.1 :=
      failsBetweenLines_of_failing_nil (failing_unfailing d.1)
    rwa [← kept_eq_append_iff d.unfailing.2, nil_append] at hbetween
  rw [(Lines.reader decode).sameHanded_iff (lines_inv d.2 _) (lines_inv d.unfailing.2 _),
    lines_come, lines_come, hunfailing]
  simp [Delivery.unfailing]

/-- **When a failed read loses nothing of a line.**  Each is reported once, and in order. -/
theorem failed_reads_lose_line (d : Delivery 8192) :
    (∀ n, reported (Lines.nextLine fromUtf8Lossy) n (Stream.lines, d.1) <+: failing d.1 ∧
      reported (Stdin.readLine fromUtf8Lossy) n (stdin, d.1) <+:
        (failing d.1).map fun e => Error.fromErrno e "read") ∧
    SameHanded (Stdin.readLine fromUtf8Lossy) (stdin, d.1) (stdin, d.unfailing.1) ∧
    (FailsBetweenLines [] d.1 →
      SameHanded (Lines.nextLine fromUtf8Lossy) (Stream.lines, d.1)
        (Stream.lines, d.unfailing.1)) ∧
    ((∀ (β : Type) (decode : Bytes → β),
      SameHanded (Lines.nextLine decode) (Stream.lines, d.1) (Stream.lines, d.unfailing.1)) ↔
        FailsBetweenLines [] d.1) := by
  have hkept := kept_eq_append_iff d.2 []
  rw [nil_append] at hkept
  have hsame : FailsBetweenLines [] d.1 → ∀ (β : Type) (decode : Bytes → β),
      SameHanded (Lines.nextLine decode) (Stream.lines, d.1) (Stream.lines, d.unfailing.1) := by
    intro h β decode
    rw [lines_sameHanded_iff, hkept.2 h]
  refine ⟨fun n => ⟨⟨_, (Lines.reader _).reported_append (lines_inv d.2 _) n⟩,
    ⟨_, (Stdin.reader _).reported_append (stdin_inv d.2 _) n⟩⟩, stdin_sameHanded d _,
    fun h => hsame h String fromUtf8Lossy, ?_, hsame⟩
  intro h
  -- The bytes themselves tell the lines apart, and what is lost has no newline in it.
  have hlines := (lines_sameHanded_iff d id).1 (h Bytes id)
  rw [map_id, map_id] at hlines
  exact hkept.1 (eq_of_lines hlines (by simpa using count_kept [] d.1))

/-- `ab`, a read that fails with `EAGAIN`, then `c` and a newline: the line is `c`. -/
theorem failed_read_in_line_loses_it :
    ¬ ∀ d : Delivery 8192,
      SameHanded (Lines.nextLine fromUtf8Lossy) (Stream.lines, d.1) (Stream.lines, d.unfailing.1) ∧
      SameHanded (Stdin.readLine fromUtf8Lossy) (stdin, d.1) (stdin, d.unfailing.1) := by
  intro h
  have hsame := (lines_sameHanded_iff _ _).1
    (h ⟨[.ok [97, 98], .error Errno.EAGAIN, .ok [99, newline]], ⟨by simp, by simp⟩⟩).1
  have hc : fromUtf8Lossy [99] = "c" := congrArg String.ofList (decodeLossy_encode ['c'])
  have habc : fromUtf8Lossy [97, 98, 99] = "abc" :=
    congrArg String.ofList (decodeLossy_encode ['a', 'b', 'c'])
  have hlines : [fromUtf8Lossy [99]] = [fromUtf8Lossy [97, 98, 99]] := hsame
  rw [hc, habc] at hlines
  exact absurd hlines (by decide)

end Ekostd
