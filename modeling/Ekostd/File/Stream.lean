/-
  `file.rs` — `Stream`, standard output and standard error as a writer.

  What is written goes through `write_fd`, which gives up on an error and does
  not say so, and `Stream` answers `Ok` whatever has become of it.

  * `fed_accepted`: what the descriptor accepts of a sequence of writes is less
    than all of it as soon as one answer is a zero or a failure;
  * `stream_ok_iff_takes`: so an `Ok`, of a `write_all` or of the `flush` of a
    `BufWriter` around the stream, means written exactly if no answer is.
-/
import Ekostd.File.BufWriter
import Ekostd.WriteLoops

namespace Ekostd.File

open PosixFs PosixWrite

namespace Stream

/-- `Stream::write_all`. -/
def writeAll (bytes : Bytes) (fd : Fd) : Option (Except Error Unit × Fd) :=
  (Print.writeFdLoop.on bytes fd).map fun (_, fd) => (.ok (), fd)

/-- `Stream::flush`. -/
def flush (fd : Fd) : Option (Except Error Unit × Fd) := some (.ok (), fd)

/-- `Stream` as a `fmt::Write`. -/
def writer : Writer Fd where
  writeStr s fd := (Print.writeFdLoop.on s fd).map fun (_, fd) => (.ok (), fd)

/-- A call on a stream. -/
inductive Op where
  | writeAll (bytes : Bytes)
  | writeStr (s : Bytes)
  | flush

/-- The bytes that a call hands over. -/
def Op.bytes : Op → Bytes
  | writeAll bytes => bytes
  | writeStr s => s
  | flush => []

/-- A call, and whether it answers `Ok`. -/
def op (fd : Fd) : Op → Option (Bool × Fd)
  | .writeAll bytes => (writeAll bytes fd).map fun (r, fd) => (r.isOk, fd)
  | .writeStr s => (writer.writeStr s fd).map fun (r, fd) => (r.isOk, fd)
  | .flush => (flush fd).map fun (r, fd) => (r.isOk, fd)

/-- Calls on a descriptor. -/
def system (answers : List Answer) : Sts Fd Op where
  init := ⟨answers, []⟩
  step fd o := (op fd o).map Prod.snd

end Stream

/-- `write` accepts something, or is to be called again. -/
def Takes (a : Answer) : Prop := a ≠ .ok 0 ∧ ∀ e, a = .error e → e = Errno.EINTR

variable {as : List Answer} {bytes : Bytes} {calls made : List Call} {fd : Fd} {r : Unit}

theorem writeFdLoop_verdict {a : Answer} : Print.writeFdLoop.verdict a = none ↔ Takes a := by
  cases a with
  | error e => simp [Loop.verdict, Print.writeFdLoop, Takes]
  | ok n => cases n <;> simp [Loop.verdict, Print.writeFdLoop, Takes]

theorem count_of_not_takes {a : Answer} (h : ¬ Takes a) : count a = 0 := by
  cases a with
  | error e => rfl
  | ok n =>
    cases n with
    | zero => rfl
    | succ n => exact absurd ⟨by simp, by simp⟩ h

/-- What the descriptor has accepted of `bytes`: all, or less as an answer has not taken any. -/
structure Accepted (bytes : Bytes) (made : List Call) : Prop where
  all : (∀ c ∈ made, Takes c.answer) → accepted made = bytes
  less : (∃ c ∈ made, ¬ Takes c.answer) → (accepted made).length < bytes.length

theorem Accepted.le (h : Accepted bytes made) : (accepted made).length ≤ bytes.length := by
  by_cases htakes : ∀ c ∈ made, Takes c.answer
  · rw [h.all htakes]
  · exact (h.less (by simpa using htakes)).le

theorem Accepted.append {bytes' : Bytes} {made' : List Call} (h : Accepted bytes made)
    (h' : Accepted bytes' made') : Accepted (bytes ++ bytes') (made ++ made') := by
  constructor
  · intro htakes
    rw [accepted_append, h.all fun c hc => htakes c (List.mem_append_left _ hc),
      h'.all fun c hc => htakes c (List.mem_append_right _ hc)]
  · rintro ⟨c, hc, hno⟩
    have hle := h.le
    have hle' := h'.le
    rw [accepted_append, List.length_append, List.length_append]
    rcases List.mem_append.1 hc with hc | hc
    · have := h.less ⟨c, hc, hno⟩
      omega
    · have := h'.less ⟨c, hc, hno⟩
      omega

theorem Accepted.iff (h : Accepted bytes made) :
    accepted made = bytes ↔ ∀ c ∈ made, Takes c.answer := by
  refine ⟨fun heq => ?_, h.all⟩
  by_contra hno
  have hless := h.less (by simpa using hno)
  rw [heq] at hless
  exact lt_irrefl _ hless

/-- **What `write_fd` gets written.** -/
theorem writeFd_accepted (h : Print.writeFdLoop.Made bytes r made) : Accepted bytes made := by
  rcases h.ended with ⟨-, hall, hnone⟩ | ⟨pre, c, rfl, hc, hne⟩
  · refine ⟨fun _ => hall, ?_⟩
    rintro ⟨c, hc, hno⟩
    exact absurd (writeFdLoop_verdict.1 (hnone c hc)) hno
  · have hno : ¬ Takes c.answer := fun htakes => by
      cases hc.symm.trans (writeFdLoop_verdict.2 htakes)
    refine ⟨fun htakes => absurd (htakes c (by simp)) hno, fun _ => ?_⟩
    have hbytes := h.consecutive pre c [] rfl
    have hnone : c.accepted = [] := by rw [Call.accepted, count_of_not_takes hno, List.take_zero]
    have hpos : 0 < c.bytes.length := List.length_pos_iff.2 hne
    simp only [← hbytes, accepted_append, accepted_cons, accepted_nil, hnone, List.append_nil,
      List.length_append]
    omega

/-- **What the descriptor accepts** of a sequence of writes. -/
theorem fed_accepted {ss : List Bytes} (h : Stream.writer.fed ⟨as, calls⟩ ss = some fd) :
    ∃ made, fd.calls = calls ++ made ∧ as = made.map Call.answer ++ fd.answers ∧
      Accepted ss.flatten made := by
  induction ss generalizing as calls with
  | nil =>
    cases h
    exact ⟨[], by simp, rfl, by simp, by simp⟩
  | cons s ss ih =>
    obtain ⟨⟨as₁, calls₁⟩, h₁, hrest⟩ := Option.bind_eq_some_iff.1 h
    obtain ⟨⟨r, fd₁⟩, hw, hfd⟩ := Option.map_eq_some_iff.1 h₁
    obtain ⟨⟨r', fd₂⟩, hrun, heq⟩ := Option.map_eq_some_iff.1 hw
    cases heq
    cases hfd
    obtain ⟨made, hcalls, has, hmade⟩ := Loop.run_made hrun
    obtain ⟨made', hcalls', has', hacc⟩ := ih hrest
    dsimp only at hcalls has
    refine ⟨made ++ made', by rw [hcalls', hcalls, List.append_assoc], ?_, ?_⟩
    · rw [has, has', List.map_append, List.append_assoc]
    · rw [List.flatten_cons]
      exact (writeFd_accepted hmade).append hacc

theorem Stream.op_eq (fd : Fd) (o : Stream.Op) :
    Stream.op fd o = (Stream.writer.writeStr o.bytes fd).map fun x => (true, x.2) := by
  cases o with
  | writeAll bytes => simp [Stream.op, Stream.writeAll, Stream.writer, Stream.Op.bytes]; rfl
  | writeStr s => simp [Stream.op, Stream.writer, Stream.Op.bytes]; rfl
  | flush =>
    cases fd
    simp [Stream.op, Stream.flush, Stream.writer, Stream.Op.bytes, Loop.on, Loop.run]
    rfl

theorem Stream.run_eq_fed (as : List Answer) (ops : List Stream.Op) :
    (Stream.system as).run ops = Stream.writer.fed ⟨as, []⟩ (ops.map Stream.Op.bytes) := by
  have hstep : ∀ fd o, (Stream.system as).step fd o =
      (Stream.writer.writeStr (Stream.Op.bytes o) fd).map Prod.snd := by
    intro fd o
    simp only [Stream.system, Stream.op_eq, Option.map_map]
    rfl
  rw [Sts.run, Sts.runFrom, Writer.fed, List.foldlM_map]
  exact congrArg (fun f => ops.foldlM f _) (funext₂ hstep)

/-- What the descriptor has accepted when all of its answers have been given. -/
theorem accepted_eq_iff {ss : List Bytes} (h : Stream.writer.fed ⟨as, []⟩ ss = some ⟨[], calls⟩) :
    accepted calls = ss.flatten ↔ ∀ a ∈ as, Takes a := by
  obtain ⟨made, hcalls, has, hacc⟩ := fed_accepted h
  dsimp only at hcalls has
  rw [hcalls, has, List.nil_append, List.append_nil, hacc.iff, List.forall_mem_map]

/-- **When `Ok` means written**: after calls on a stream, and after the flush of a `BufWriter`
    around one, exactly if every answer that `write` has given took something or was an
    interruption; after `File::write_all` always. -/
theorem stream_ok_iff_takes (as : List Answer) :
    (∀ ops o fd ok calls, (Stream.system as).run ops = some fd →
      Stream.op fd o = some (ok, ⟨[], calls⟩) →
      ((ok = true → accepted calls = (ops ++ [o]).flatMap Stream.Op.bytes) ↔
        ∀ a ∈ as, Takes a)) ∧
    (∀ ops b r b' calls, (BufWriter.system Stream.writer ⟨as, []⟩).run ops = some b →
      b.flush Stream.writer = some (r, b') → b'.inner = some ⟨[], calls⟩ →
      ((r = .ok () → accepted calls = BufWriter.given ops) ↔ ∀ a ∈ as, Takes a)) ∧
    ∀ bytes fd, writeAll.run bytes as [] = some (.ok (), fd) → accepted fd.calls = bytes := by
  refine ⟨fun ops o fd ok calls hr ho => ?_, fun ops b r b' calls hr hb hin => ?_,
    fun bytes fd h => ?_⟩
  · have hrun : (Stream.system as).run (ops ++ [o]) = some ⟨[], calls⟩ :=
      Sts.run_snoc_eq_some.2 ⟨fd, hr, by simp [Stream.system, ho]⟩
    have hok : ok = true := by
      rw [Stream.op_eq] at ho
      obtain ⟨x, -, heq⟩ := Option.map_eq_some_iff.1 ho
      exact (Prod.mk.inj heq).1.symm
    rw [Stream.run_eq_fed] at hrun
    rw [List.flatMap_def, ← accepted_eq_iff hrun]
    exact ⟨fun h => h hok, fun h _ => h⟩
  · obtain ⟨fd, ss, hfeeds⟩ := BufWriter.feeds hr
    obtain ⟨fd', ss', hin', hfed, hall⟩ := hfeeds.flush hb
    obtain rfl : fd' = ⟨[], calls⟩ := Option.some.inj (hin'.symm.trans hin)
    have hok : r = .ok () := by
      rcases BufWriter.flush_cases hfeeds.inner hb with ⟨-, hr, -⟩ | ⟨fd', hw, -⟩
      · exact hr
      · obtain ⟨x, -, heq⟩ := Option.map_eq_some_iff.1 hw
        cases heq
        rfl
    rw [← hall, ← accepted_eq_iff hfed]
    exact ⟨fun h => h hok, fun h _ => h⟩
  · obtain ⟨made, hcalls, -, hmade⟩ := Loop.run_made h
    rw [hcalls, List.nil_append]
    rcases writeAll_made hmade with ⟨-, hall⟩ | ⟨e, he, -⟩
    · exact hall
    · cases he

/-- A short count, an interruption, and the rest. -/
theorem stream_ok_iff_takes_short :
    (accepted [⟨[104, 105], .ok 1⟩, ⟨[105], .error Errno.EINTR⟩, ⟨[105], .ok 1⟩] = [104, 105] ↔
      ∀ a ∈ [.ok 1, .error Errno.EINTR, .ok 1], Takes a) ∧
    writeAll.run [104, 105] [.ok 1, .error Errno.EINTR, .ok 1] [] = some (.ok (), ⟨[],
      [⟨[104, 105], .ok 1⟩, ⟨[105], .error Errno.EINTR⟩, ⟨[105], .ok 1⟩]⟩) := by
  have h := stream_ok_iff_takes [.ok 1, .error Errno.EINTR, .ok 1]
  have hstream := h.1 [] (.writeAll [104, 105]) _ _ _ rfl rfl
  exact ⟨⟨fun hacc => hstream.1 fun _ => hacc, fun htakes => hstream.2 htakes rfl⟩, rfl⟩

/-- `ENOSPC`: both answer `Ok`, and nothing has been written. -/
theorem stream_ok_lost : (∃ fd, (Stream.system [.error Errno.ENOSPC]).run [] = some fd ∧
      Stream.op fd (.writeAll [104]) = some (true, ⟨[], [⟨[104], .error Errno.ENOSPC⟩]⟩)) ∧
    (∃ b b', (BufWriter.system Stream.writer ⟨[.error Errno.ENOSPC], []⟩).run [.writeStr [104]] =
        some b ∧ b.flush Stream.writer = some (.ok (), b') ∧
      b'.inner = some ⟨[], [⟨[104], .error Errno.ENOSPC⟩]⟩) ∧
    accepted [⟨[104], .error Errno.ENOSPC⟩] ≠ [104] :=
  ⟨⟨_, rfl, rfl⟩, ⟨_, _, rfl, rfl, rfl⟩, by decide⟩

end Ekostd.File
