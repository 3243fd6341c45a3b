/-
  `socket.rs` — lines from one end of a connection to the other.

  One end writes messages, a line each, with `write_all`; the other asks for
  lines with `next_line` until there are none.  Between them is the socket,
  which holds so many bytes at once, takes and hands out as many as it likes at
  a time, and interrupts either end as often as it likes.

  * `Lines.scan`, `Lines.answered`: a call of `next_line` between its reads, and
    `loop_cons`, which says so;
  * `Exchange`, `Exchange.system`: the two ends and what is on its way;
  * `Exchange.Inv`: what was sent is what was handed out, what is on its way and
    what is still to be written;
  * `lines_arrive`: both ends come to an end, and the lines are the messages.
-/
import Ekostd.Socket.Lines
import Ekostd.WriteLoops

namespace Ekostd.Socket

open PosixFs PosixRead List Calls

variable {β : Type*} {decode : Bytes → β} {capacity : ℕ}

/-! ## The ends, one answer at a time -/

/-- The buffer after what it held was gathered. -/
def Lines.emptied (self : Lines) : Lines := { self with start := 0, filled := 0 }

@[simp] theorem Lines.held_emptied (self : Lines) : self.emptied.held = [] := by
  simp [Lines.held, Lines.emptied]

section
variable (decode : Bytes → β)

/-- The line that is complete in the buffer, with `line` before it. -/
def Lines.scan (self : Lines) (line : Bytes) : Option (β × Lines) :=
  (self.held.findIdx? (· = newline)).map fun n =>
    (decode (line ++ self.held.take n), { self with start := self.start + n + 1 })

/-- A call of `next_line` at its read: it goes on with what it has gathered, or has returned. -/
inductive Turn (β : Type*) where
  | goes (self : Lines) (line : Bytes)
  | returned (r : Except Errno (Option β)) (self : Lines)

/-- What `next_line` makes of what its read answers, when no line was complete. -/
def Lines.answered (self : Lines) (line : Bytes) (a : Answer) : Turn β :=
  let line := line ++ self.held
  match a with
  | .error e =>
    if e = Errno.EINTR then .goes self.emptied line else .returned (.error e) self.emptied
  | .ok [] => .returned (.ok (if line.isEmpty then none else some (decode line))) self.emptied
  | .ok (b :: c) => .goes ⟨b :: c ++ self.buf.drop (b :: c).length, (b :: c).length, 0⟩ line

theorem Lines.loop_read {self : Lines} (hfind : self.held.findIdx? (· = newline) = none)
    (line : Bytes) (fd : List Answer) :
    Lines.nextLine.loop decode self line fd =
      match Stream.read fd with
      | (.error e, fd) => (.error e, self.emptied, fd)
      | (.ok [], fd) => (.ok (if (line ++ self.held).isEmpty then none
          else some (decode (line ++ self.held))), self.emptied, fd)
      | (.ok (b :: c), fd) =>
        Lines.nextLine.loop decode ⟨b :: c ++ self.buf.drop (b :: c).length, (b :: c).length, 0⟩
          (line ++ self.held) fd := by
  rw [Lines.nextLine.loop, hfind]
  dsimp only
  split <;> next h => rw [h] <;> rfl

/-- **`next_line`, one answer at a time.** -/
theorem Lines.loop_cons (self : Lines) (line : Bytes) (a : Answer) (fd : List Answer) :
    Lines.nextLine.loop decode self line (a :: fd) =
      match self.scan decode line with
      | some (x, self') => (.ok (some x), self', a :: fd)
      | none => match self.answered decode line a with
        | .goes self' line' => Lines.nextLine.loop decode self' line' fd
        | .returned r self' => (r, self', fd) := by
  cases hfind : self.held.findIdx? (· = newline) with
  | some n =>
    rw [Lines.nextLine.loop, Lines.scan, hfind]
    rfl
  | none =>
    rw [Lines.loop_read decode hfind, Lines.scan, hfind]
    rcases a with e | ⟨_ | ⟨b, c⟩⟩
    · by_cases he : e = Errno.EINTR
      · -- An interrupted read is made again, with the buffer empty.
        have hempty : self.emptied.held.findIdx? (· = newline) = none := by simp
        have hagain := Lines.loop_read decode hempty (line ++ self.held) fd
        simp only [Lines.held_emptied, append_nil] at hagain
        simp only [Stream.read, he, if_true, Option.map_none, Lines.answered]
        exact hagain.symm
      · simp [Stream.read, PosixRead.read, he, Lines.answered, Lines.emptied]
    · simp [Stream.read, PosixRead.read, Lines.answered, Lines.emptied]
    · simp [Stream.read, PosixRead.read, Lines.answered]

end

/-! ## The two ends -/

/-- The two ends of a connection, and the bytes on their way. -/
structure Exchange (β : Type*) where
  /-- The messages that `write_all` was not called for. -/
  todo : List Bytes
  /-- What the call that is being made has left. -/
  left : Bytes
  /-- The error that ended the writing. -/
  failed : Option Errno
  closed : Bool
  wire : Bytes
  reader : Lines
  /-- What the call of `next_line` has gathered. -/
  line : Bytes
  got : List β
  /-- `next_line` has answered that there are no more lines. -/
  ended : Bool

namespace Exchange

/-- The writing end begins a message, gets an answer, or closes; the reading end finds a line in its
    buffer, or gets an answer. -/
inductive Act where
  | begin
  | write (a : PosixWrite.Answer)
  | close
  | scan
  | read (a : Answer)

/-- The action is an interruption. -/
def Act.interrupts : Act → Bool
  | .write (.error e) | .read (.error e) => e = Errno.EINTR
  | _ => false

/-- The answers that the socket can give to the reading end; no read fails. -/
def Delivered (s : Exchange β) : Answer → Bool
  | .error e => e = Errno.EINTR
  | .ok [] => s.closed && s.wire.isEmpty
  | .ok c => c.isPrefixOf s.wire && c.length ≤ 8192

/-- One action of one end, with a socket that holds `capacity` bytes. -/
def step (decode : Bytes → β) (capacity : ℕ) (s : Exchange β) : Act → Option (Exchange β)
  | .begin =>
    match s.left, s.todo with
    | [], m :: todo =>
      if s.failed = none then some { s with left := m ++ [newline], todo := todo } else none
    | _, _ => none
  | .write a =>
    if s.left ≠ [] ∧ PosixWrite.count a ≤ s.left.length ∧
        s.wire.length + PosixWrite.count a ≤ capacity then
      match Stream.writeAll.verdict a with
      | some (.error e) => some { s with left := [], failed := some e }
      | some (.ok ()) => none
      | none => some { s with
          left := s.left.drop (PosixWrite.count a)
          wire := s.wire ++ s.left.take (PosixWrite.count a) }
    else none
  | .close =>
    if s.left = [] ∧ (s.todo = [] ∨ s.failed ≠ none) ∧ s.closed = false then
      some { s with closed := true }
    else none
  | .scan =>
    (s.reader.scan decode s.line).map fun (x, reader) =>
      { s with reader := reader, line := [], got := s.got ++ [x] }
  | .read a =>
    if s.ended = false ∧ (s.reader.scan decode s.line).isNone ∧ s.Delivered a then
      let wire := s.wire.drop (match a with | .ok c => c.length | .error _ => 0)
      match s.reader.answered decode s.line a with
      | .goes reader line => some { s with reader := reader, line := line, wire := wire }
      | .returned (.ok (some x)) reader =>
        some { s with reader := reader, line := [], got := s.got ++ [x], wire := wire }
      | .returned _ reader =>
        some { s with reader := reader, line := [], ended := true, wire := wire }
    else none

/-- The exchange of `messages`. -/
def system (decode : Bytes → β) (capacity : ℕ) (messages : List Bytes) : Sts (Exchange β) Act where
  init := ⟨messages, [], none, false, [], Stream.lines, [], [], false⟩
  step := step decode capacity

variable {messages : List Bytes} {s s' : Exchange β} {a : Act}

/-! ## What a step can do -/

/-- The bytes that were sent and not handed out. -/
def pending (s : Exchange β) : Bytes := s.line ++ s.reader.held ++ s.wire

/-- The steps, one constructor for each. -/
inductive Step (decode : Bytes → β) (capacity : ℕ) (s : Exchange β) : Act → Exchange β → Prop
  | begin (m : Bytes) (todo : List Bytes) : s.left = [] → s.todo = m :: todo → s.failed = none →
      Step decode capacity s .begin { s with left := m ++ [newline], todo := todo }
  /-- The socket takes some, or none as it is interrupted. -/
  | write (a : PosixWrite.Answer) : s.left ≠ [] → PosixWrite.count a ≤ s.left.length →
      s.wire.length + PosixWrite.count a ≤ capacity → Stream.writeAll.verdict a = none →
      Step decode capacity s (.write a) { s with
        left := s.left.drop (PosixWrite.count a)
        wire := s.wire ++ s.left.take (PosixWrite.count a) }
  | fail (a : PosixWrite.Answer) (e : Errno) : s.left ≠ [] →
      Stream.writeAll.verdict a = some (.error e) →
      Step decode capacity s (.write a) { s with left := [], failed := some e }
  | close : s.left = [] → s.todo = [] ∨ s.failed ≠ none → s.closed = false →
      Step decode capacity s .close { s with closed := true }
  | scan (line rest : Bytes) (reader : Lines) : newline ∉ line →
      s.reader.held = line ++ newline :: rest → reader.held = rest → reader.WellFormed →
      s.reader.scan decode s.line = some (decode (s.line ++ line), reader) →
      Step decode capacity s .scan
        { s with reader := reader, line := [], got := s.got ++ [decode (s.line ++ line)] }
  | interrupt : s.ended = false → s.reader.scan decode s.line = none →
      newline ∉ s.reader.held →
      Step decode capacity s (.read (.error Errno.EINTR))
        { s with reader := s.reader.emptied, line := s.line ++ s.reader.held }
  | fill (b : UInt8) (c : Bytes) : s.ended = false → s.reader.scan decode s.line = none →
      newline ∉ s.reader.held → b :: c <+: s.wire → (b :: c).length ≤ 8192 →
      Step decode capacity s (.read (.ok (b :: c))) { s with
        reader := ⟨b :: c ++ s.reader.buf.drop (b :: c).length, (b :: c).length, 0⟩
        line := s.line ++ s.reader.held
        wire := s.wire.drop (b :: c).length }
  | last : s.ended = false → s.reader.scan decode s.line = none → newline ∉ s.reader.held →
      s.closed → s.wire = [] → s.line ++ s.reader.held ≠ [] →
      Step decode capacity s (.read (.ok [])) { s with
        reader := s.reader.emptied
        line := []
        got := s.got ++ [decode (s.line ++ s.reader.held)] }
  | eof : s.ended = false → s.reader.scan decode s.line = none →
      s.closed → s.wire = [] → s.line ++ s.reader.held = [] →
      Step decode capacity s (.read (.ok []))
        { s with reader := s.reader.emptied, line := [], ended := true }

theorem pos_or_interrupts {a : PosixWrite.Answer} (h : Stream.writeAll.verdict a = none) :
    0 < PosixWrite.count a ∨ (Act.write a).interrupts := by
  rcases a with e | _ | n
  · exact .inr (by simpa [PosixWrite.Loop.verdict, Stream.writeAll, Act.interrupts] using h)
  · simp [PosixWrite.Loop.verdict, Stream.writeAll] at h
  · exact .inl (Nat.succ_pos n)

theorem notMem_of_scan {self : Lines} {line : Bytes} (h : self.scan decode line = none) :
    newline ∉ self.held :=
  notMem_of_findIdx?_eq_none (Option.map_eq_none_iff.1 h)

/-- **Every step is one of these.** -/
theorem step_cases (hself : s.reader.WellFormed) (h : step decode capacity s a = some s') :
    Step decode capacity s a s' := by
  cases a with
  | begin =>
    simp only [step] at h
    split at h
    · next m todo hleft htodo =>
      split_ifs at h with hfailed
      cases h
      exact .begin m todo hleft htodo hfailed
    · cases h
  | write a =>
    simp only [step] at h
    split_ifs at h with hc
    split at h
    · next e hv =>
      cases h
      exact .fail a e hc.1 hv
    · cases h
    · next hv =>
      cases h
      exact .write a hc.1 hc.2.1 hc.2.2 hv
  | close =>
    simp only [step] at h
    split_ifs at h with hc
    cases h
    exact .close hc.1 hc.2.1 hc.2.2
  | scan =>
    obtain ⟨⟨x, reader⟩, hscan, rfl⟩ := Option.map_eq_some_iff.1 h
    obtain ⟨n, hfind, heq⟩ := Option.map_eq_some_iff.1 hscan
    obtain ⟨rfl, rfl⟩ := Prod.mk.inj heq
    obtain ⟨hnl, hheld⟩ := eq_of_findIdx?_eq_some hfind
    refine .scan _ _ _ hnl hheld (s.reader.held_drop n) ⟨hself.size, ?_, hself.filled_le⟩ hscan
    obtain ⟨hlt, -⟩ := findIdx?_eq_some_iff_getElem.1 hfind
    rw [Lines.held, length_drop, length_take, hself.size] at hlt
    show s.reader.start + n + 1 ≤ s.reader.filled
    omega
  | read a =>
    simp only [step] at h
    split_ifs at h with hc
    obtain ⟨hended, hscan, hdelivered⟩ := hc
    rw [Option.isNone_iff_eq_none] at hscan
    have hnl := notMem_of_scan hscan
    rcases a with e | ⟨_ | ⟨b, c⟩⟩
    · obtain rfl : e = Errno.EINTR := by simpa [Delivered] using hdelivered
      simp only [Lines.answered, if_true, drop_zero] at h
      cases h
      exact .interrupt hended hscan hnl
    · obtain ⟨hclosed, hwire⟩ : s.closed = true ∧ s.wire = [] := by
        simpa [Delivered] using hdelivered
      simp only [Lines.answered] at h
      by_cases hline : s.line ++ s.reader.held = []
      · simp only [hline, isEmpty_nil, if_true, length_nil, drop_zero] at h
        cases h
        exact .eof hended hscan hclosed hwire hline
      · simp only [List.isEmpty_iff, hline, if_false, length_nil, drop_zero] at h
        cases h
        exact .last hended hscan hnl hclosed hwire hline
    · obtain ⟨hpre, hlen⟩ : b :: c <+: s.wire ∧ (b :: c).length ≤ 8192 := by
        simpa [Delivered, isPrefixOf_iff_prefix] using hdelivered
      simp only [Lines.answered] at h
      cases h
      exact .fill b c hended hscan hnl hpre hlen

/-! ## What is where -/

/-- What was sent is what was handed out, what is on its way, what is left, and what was not begun
    or is lost. -/
structure Flow (decode : Bytes → β) (messages : List Bytes) (s : Exchange β) (whole : List Bytes)
    (part : Option Bytes) (lost : Bytes) : Prop where
  got : s.got = (whole ++ part.toList).map decode
  sent : unlines newline messages =
    unlines newline whole ++ (part.getD [] ++ s.pending ++ s.left ++ lost)
  whole : ∀ m ∈ whole, newline ∉ m
  /-- A part of a message comes last. -/
  part : ∀ p ∈ part, p ≠ [] ∧ newline ∉ p ∧ s.closed ∧ s.pending = []
  lost : s.failed = none → lost = unlines newline s.todo

/-- What holds all along. -/
structure Inv (decode : Bytes → β) (messages : List Bytes) (s : Exchange β) : Prop where
  reader : s.reader.WellFormed
  line : newline ∉ s.line
  failed : s.failed ≠ none → s.left = []
  closed : s.closed → s.left = [] ∧ (s.todo = [] ∨ s.failed ≠ none)
  ended : s.ended → s.closed ∧ s.pending = []
  flow : ∃ whole part lost, Flow decode messages s whole part lost

theorem Flow.part_eq_none {whole : List Bytes} {part : Option Bytes} {lost : Bytes}
    (h : Flow decode messages s whole part lost) (hs : s.closed = false ∨ s.pending ≠ []) :
    part = none := by
  cases part with
  | none => rfl
  | some p =>
    obtain ⟨-, -, hclosed, hpending⟩ := h.part p rfl
    rcases hs with hs | hs
    · cases hclosed.symm.trans hs
    · exact absurd hpending hs

theorem Inv.init (decode : Bytes → β) (capacity : ℕ) (messages : List Bytes) :
    Inv decode messages (system decode capacity messages).init where
  reader := Stream.lines_wellFormed
  line := not_mem_nil
  failed h := absurd rfl h
  closed h := by cases h
  ended h := by cases h
  flow := by
    have hheld : Stream.lines.held = [] := by
      simp only [Lines.held, Stream.lines, take_zero, drop_nil]
    have hpending : (system decode capacity messages).init.pending = [] := by
      show [] ++ Stream.lines.held ++ [] = []
      rw [hheld]
      rfl
    refine ⟨[], none, unlines newline messages, rfl, ?_, fun m hm => absurd hm not_mem_nil,
      (fun p hp => by cases hp), fun _ => rfl⟩
    rw [hpending]
    rfl

theorem Inv.not_closed (hI : Inv decode messages s) (h : s.left ≠ []) : s.closed = false := by
  cases hc : s.closed with
  | false => rfl
  | true => exact absurd (hI.closed hc).1 h

theorem Inv.not_failed (hI : Inv decode messages s) (h : s.left ≠ []) : s.failed = none := by
  by_contra hf
  exact h (hI.failed hf)

/-- **What one step preserves.** -/
theorem Inv.keep (hI : Inv decode messages s) (h : Step decode capacity s a s') :
    Inv decode messages s' := by
  obtain ⟨whole, part, lost, hf⟩ := hI.flow
  cases h with
  | begin m todo hleft htodo hfailed =>
    have hopen : s.closed = false := by
      cases hc : s.closed with
      | false => rfl
      | true => simpa [htodo, hfailed] using (hI.closed hc).2
    refine ⟨hI.reader, hI.line, fun hne => absurd hfailed hne, fun hc => ?_, fun he => ?_,
      whole, part, unlines newline todo, hf.got, ?_, hf.whole, hf.part, fun _ => rfl⟩
    · cases hopen.symm.trans hc
    · cases hopen.symm.trans (hI.ended he).1
    · rw [hf.sent, hf.lost hfailed, hleft, htodo, unlines_cons]
      simp [pending]
  | write a hleft hcount hroom hverdict =>
    have hopen := hI.not_closed hleft
    obtain rfl := hf.part_eq_none (.inl hopen)
    refine ⟨hI.reader, hI.line, fun hne => absurd (hI.not_failed hleft) hne, fun hc => ?_,
      fun he => ?_, whole, none, lost, hf.got, ?_, hf.whole, nofun, hf.lost⟩
    · cases hopen.symm.trans hc
    · cases hopen.symm.trans (hI.ended he).1
    · rw [hf.sent, ← take_append_drop (PosixWrite.count a) s.left]
      simp [pending]
  | fail a e hleft hverdict =>
    have hopen := hI.not_closed hleft
    refine ⟨hI.reader, hI.line, fun _ => rfl, fun hc => ?_, fun he => ?_,
      whole, part, s.left ++ lost, hf.got, ?_, hf.whole, hf.part, nofun⟩
    · cases hopen.symm.trans hc
    · cases hopen.symm.trans (hI.ended he).1
    · rw [hf.sent]
      simp [pending]
  | close hleft htodo hclosed =>
    refine ⟨hI.reader, hI.line, hI.failed, fun _ => ⟨hleft, htodo⟩, fun he => ?_,
      whole, part, lost, hf.got, hf.sent, hf.whole, fun p hp => ?_, hf.lost⟩
    · exact ⟨rfl, (hI.ended he).2⟩
    · obtain ⟨hne, hnl, -, hpending⟩ := hf.part p hp
      exact ⟨hne, hnl, rfl, hpending⟩
  | scan line rest reader hline hheld hrest hreader hscan =>
    have hpending : s.pending ≠ [] := by simp [pending, hheld]
    obtain rfl := hf.part_eq_none (.inr hpending)
    refine ⟨hreader, not_mem_nil, hI.failed, hI.closed, fun he => ?_,
      whole ++ [s.line ++ line], none, lost, ?_, ?_, fun m hm => ?_, nofun, hf.lost⟩
    · exact absurd (hI.ended he).2 hpending
    · rw [hf.got]
      simp
    · rw [hf.sent, unlines_snoc]
      simp [pending, hheld, hrest]
    · rcases mem_append.1 hm with hm | hm
      · exact hf.whole m hm
      · rw [mem_singleton.1 hm]
        simp [hI.line, hline]
  | interrupt hended hscan hnl =>
    have hpending : ({ s with reader := s.reader.emptied, line := s.line ++ s.reader.held } :
        Exchange β).pending = s.pending := by simp [pending]
    refine ⟨⟨hI.reader.size, le_rfl, Nat.zero_le _⟩, by simp [hI.line, hnl], hI.failed, hI.closed,
      fun he => ?_, whole, part, lost, hf.got, ?_, hf.whole, ?_, hf.lost⟩
    · cases hended.symm.trans he
    · rw [hpending]
      exact hf.sent
    · rw [hpending]
      exact hf.part
  | fill b c hended hscan hnl hpre hlen =>
    have hpending : ({ s with
        reader := ⟨b :: c ++ s.reader.buf.drop (b :: c).length, (b :: c).length, 0⟩
        line := s.line ++ s.reader.held
        wire := s.wire.drop (b :: c).length } : Exchange β).pending = s.pending := by
      obtain ⟨more, hmore⟩ := hpre
      have hheld := Lines.held_filled (b :: c) s.reader.buf
      simp only [pending, hheld, ← hmore, drop_left]
      simp
    refine ⟨hI.reader.filled hlen, by simp [hI.line, hnl], hI.failed, hI.closed,
      fun he => ?_, whole, part, lost, hf.got, ?_, hf.whole, ?_, hf.lost⟩
    · cases hended.symm.trans he
    · rw [hpending]
      exact hf.sent
    · rw [hpending]
      exact hf.part
  | last hended hscan hnl hclosed hwire hline =>
    have hpending : s.pending = s.line ++ s.reader.held := by simp [pending, hwire]
    obtain rfl := hf.part_eq_none (.inr (by rw [hpending]; exact hline))
    have hnone : ({ s with
        reader := s.reader.emptied, line := [],
        got := s.got ++ [decode (s.line ++ s.reader.held)] } : Exchange β).pending = [] := by
      simp [pending, hwire]
    refine ⟨⟨hI.reader.size, le_rfl, Nat.zero_le _⟩, not_mem_nil, hI.failed, hI.closed,
      fun he => ?_, whole, some (s.line ++ s.reader.held), lost, ?_, ?_, hf.whole, ?_, hf.lost⟩
    · cases hended.symm.trans he
    · rw [hf.got]
      simp
    · rw [hf.sent, hnone, hpending]
      simp
    · rintro p ⟨⟩
      exact ⟨hline, by simp [hI.line, hnl], hclosed, hnone⟩
  | eof hended hscan hclosed hwire hline =>
    obtain ⟨hl, hh⟩ := append_eq_nil_iff.1 hline
    have hpending : s.pending = [] := by simp [pending, hwire, hl, hh]
    have hnone : ({ s with reader := s.reader.emptied, line := [], ended := true } :
        Exchange β).pending = [] := by simp [pending, hwire]
    refine ⟨⟨hI.reader.size, le_rfl, Nat.zero_le _⟩, not_mem_nil, hI.failed, hI.closed,
      fun _ => ⟨hclosed, hnone⟩, whole, part, lost, hf.got, ?_, hf.whole, fun p hp => ?_, hf.lost⟩
    · rw [hf.sent, hnone, hpending]
    · obtain ⟨hne, hnl, -, -⟩ := hf.part p hp
      exact ⟨hne, hnl, hclosed, hnone⟩

/-- **It holds along every run.** -/
theorem inductive_inv (decode : Bytes → β) (capacity : ℕ) (messages : List Bytes) :
    (system decode capacity messages).Inductive (Inv decode messages) where
  init := Inv.init decode capacity messages
  step hI ha := hI.keep (step_cases hI.reader ha)

/-! ## What arrives -/

/-- The lines that were handed out are messages, whole and in order; after an error there may be a
    first part of the next one. -/
structure Arrived (decode : Bytes → β) (messages : List Bytes) (s : Exchange β) : Prop where
  order : ∃ (whole : List Bytes) (part : Option Bytes),
    s.got = (whole ++ part.toList).map decode ∧ whole <+: messages ∧
    ∀ p ∈ part, s.failed ≠ none ∧ p ≠ [] ∧ ∃ m, messages[whole.length]? = some m ∧ p <+: m
  all : s.ended → s.failed = none → s.got = messages.map decode

/-- **The lines are the messages.** -/
theorem Inv.arrived (hI : Inv decode messages s) (hclean : ∀ m ∈ messages, newline ∉ m) :
    Arrived decode messages s := by
  obtain ⟨whole, part, lost, hf⟩ := hI.flow
  have hlines := congrArg (lines newline) hf.sent
  rw [lines_unlines hclean, lines_unlines_append hf.whole] at hlines
  have hpart : ∀ p ∈ part, s.failed ≠ none ∧ p ≠ [] ∧
      ∃ m, messages[whole.length]? = some m ∧ p <+: m := by
    rintro p hp
    obtain rfl : part = some p := hp
    obtain ⟨hne, hnl, hclosed, hpending⟩ := hf.part p rfl
    obtain ⟨hleft, htodo⟩ := hI.closed hclosed
    refine ⟨fun hfailed => ?_, hne, ?_⟩
    · -- All was written, and what was written ends in a newline.
      have hlost : lost = [] := by
        rw [hf.lost hfailed, htodo.resolve_right fun h => h hfailed]
        rfl
      rw [hpending, hleft, hlost, Option.getD_some, append_nil, append_nil, append_nil,
        lines_of_notMem hnl hne] at hlines
      have hsent := hf.sent
      rw [hlines, hpending, hleft, hlost, unlines_snoc] at hsent
      simpa using congrArg length hsent
    · obtain ⟨m, ms, hm, hpre⟩ := lines_append_of_notMem hnl hne lost
      rw [hpending, hleft, Option.getD_some, append_nil, append_nil, hm] at hlines
      exact ⟨m, by rw [hlines]; simp, hpre⟩
  refine ⟨⟨whole, part, hf.got, ⟨_, hlines.symm⟩, hpart⟩, fun hended hfailed => ?_⟩
  obtain ⟨hclosed, hpending⟩ := hI.ended hended
  obtain ⟨hleft, htodo⟩ := hI.closed hclosed
  obtain rfl : part = none := by
    cases part with
    | none => rfl
    | some p => exact absurd hfailed (hpart p rfl).1
  rw [hpending, hleft, hf.lost hfailed, htodo.resolve_right fun h => h hfailed] at hlines
  rw [hf.got, hlines]
  simp

/-! ## That it ends -/

/-- The steps that are left, interruptions apart. -/
def remaining (s : Exchange β) : ℕ :=
  5 * (unlines newline s.todo).length + 4 * s.left.length + 3 * s.wire.length +
    s.reader.held.length + (if s.line ++ s.reader.held = [] then 0 else 1) +
    (if s.closed then 0 else 1) + if s.ended then 0 else 1

/-- What a step costs. -/
def Act.cost (a : Act) : ℕ := if a.interrupts then 0 else 1

/-- **A step takes off what is left**, unless it is an interruption. -/
theorem Step.remaining (h : Step decode capacity s a s') :
    s'.remaining + a.cost ≤ s.remaining := by
  have hone : a.cost ≤ 1 := by
    rw [Act.cost]
    split_ifs <;> omega
  cases h with
  | begin m todo hleft htodo hfailed =>
    simp only [Exchange.remaining, hleft, htodo, unlines_cons, length_append, length_cons,
      length_nil]
    omega
  | write a hleft hcount hroom hverdict =>
    rcases pos_or_interrupts hverdict with hpos | hintr
    · simp only [Exchange.remaining, length_append, length_drop, length_take]
      omega
    · simp only [Exchange.remaining, length_append, length_drop, length_take, Act.cost, hintr,
        if_true]
      omega
  | fail a e hleft hverdict =>
    have hpos := length_pos_iff.2 hleft
    simp only [Exchange.remaining, length_nil]
    omega
  | close hleft htodo hclosed =>
    simp only [Exchange.remaining, hclosed, if_true, Bool.false_eq_true, if_false]
    omega
  | scan line rest reader hline hheld hrest hreader hscan =>
    simp only [Exchange.remaining, hheld, hrest, length_append, length_cons, nil_append]
    simp only [append_eq_nil_iff, cons_ne_nil, and_false, if_false]
    split_ifs <;> omega
  | interrupt hended hscan hnl =>
    simp only [Exchange.remaining, Act.cost, Act.interrupts, decide_true, if_true,
      Lines.held_emptied, append_nil, length_nil]
    omega
  | fill b c hended hscan hnl hpre hlen =>
    have hheld := Lines.held_filled (b :: c) s.reader.buf
    have hle := hpre.length_le
    simp only [Exchange.remaining, hheld, length_drop]
    simp only [length_cons] at hle ⊢
    split_ifs <;> omega
  | last hended hscan hnl hclosed hwire hline =>
    simp only [Exchange.remaining, Lines.held_emptied, hline, append_nil, length_nil, if_true,
      if_false]
    omega
  | eof hended hscan hclosed hwire hline =>
    simp only [Exchange.remaining, Lines.held_emptied, hline, append_nil, length_nil, hended,
      if_true, Bool.false_eq_true, if_false]
    omega

/-- **Where neither end can move** the reading end has been told that there are no more lines. -/
theorem ended_of_stuck (hcap : 0 < capacity)
    (hs : ∀ a : Act, a.interrupts = false → step decode capacity s a = none) : s.ended = true := by
  by_contra hended
  have hended : s.ended = false := by simpa using hended
  have hscan : s.reader.scan decode s.line = none := Option.map_eq_none_iff.1 (hs .scan rfl)
  have hread : ∀ c, s.Delivered (.ok c) → False := by
    intro c hc
    have hstep := hs (.read (.ok c)) rfl
    simp only [step, hended, hscan, hc, Option.isNone_none, and_self, if_true] at hstep
    split at hstep <;> cases hstep
  cases hwire : s.wire with
  | cons b wire => exact hread [b] (by simp [Delivered, hwire])
  | nil =>
    have hleft : s.left = [] := by
      by_contra hleft
      have hpos := length_pos_iff.2 hleft
      have hstep := hs (.write (.ok 1)) rfl
      rw [step, if_pos ⟨hleft, hpos, by rw [hwire]; exact hcap⟩] at hstep
      cases hstep
    have htodo : s.todo = [] ∨ s.failed ≠ none := by
      by_contra! hno
      obtain ⟨m, todo, htodo⟩ := exists_cons_of_ne_nil hno.1
      have hstep := hs .begin rfl
      simp [step, hleft, htodo, hno.2] at hstep
    cases hclosed : s.closed with
    | false =>
      have hstep := hs .close rfl
      rw [step, if_pos ⟨hleft, htodo, hclosed⟩] at hstep
      cases hstep
    | true => exact hread [] (by simp [Delivered, hclosed, hwire])

/-! ## The ends are the loops of the source -/

/-- What the reads of the reading end have answered. -/
def reads (as : List Act) : List Answer := as.filterMap fun | .read a => some a | _ => none

/-- What the writes of the writing end have answered. -/
def writes (as : List Act) : List PosixWrite.Answer :=
  as.filterMap fun | .write a => some a | _ => none

/-- A `write_all` for each message, up to one that fails. -/
def sendAll : List Bytes → PosixWrite.Fd → Option (Except Errno Unit × PosixWrite.Fd)
  | [], fd => some (.ok (), fd)
  | m :: messages, fd => (Stream.writeAll.on (m ++ [newline]) fd).bind fun
    | (.ok (), fd) => sendAll messages fd
    | (.error e, fd) => some (.error e, fd)

/-- What the writing end has still to do. -/
def sendRest (s : Exchange β) (fd : PosixWrite.Fd) : Option (Except Errno Unit × PosixWrite.Fd) :=
  match s.failed with
  | some e => some (.error e, fd)
  | none => (Stream.writeAll.on s.left fd).bind fun
    | (.ok (), fd) => sendAll s.todo fd
    | (.error e, fd) => some (.error e, fd)

/-- The ends are in the middle of the calls of the source, after the answers that they got. -/
structure Resumes (decode : Bytes → β) (messages : List Bytes) (as : List Act) (s : Exchange β) :
    Prop where
  reader : ∃ n, ∀ fd,
    handed (Lines.nextLine decode) n (Stream.lines, reads as ++ fd) = s.got ∧
    Lines.nextLine decode (stateAfter (Lines.nextLine decode) n (Stream.lines, reads as ++ fd)) =
      if s.ended then (.ok none, s.reader, fd) else Lines.nextLine.loop decode s.reader s.line fd
  writer : ∃ calls, ∀ more, sendAll messages ⟨writes as ++ more, []⟩ = s.sendRest ⟨more, calls⟩

theorem Resumes.goes {as : List Act} (h : Resumes decode messages as s) {a : Answer} {self : Lines}
    {line : Bytes} (hended : s.ended = false) (hscan : s.reader.scan decode s.line = none)
    (ha : s.reader.answered decode s.line a = .goes self line) :
    ∃ n, ∀ fd, handed (Lines.nextLine decode) n (Stream.lines, reads as ++ a :: fd) = s.got ∧
      Lines.nextLine decode
        (stateAfter (Lines.nextLine decode) n (Stream.lines, reads as ++ a :: fd)) =
        Lines.nextLine.loop decode self line fd := by
  obtain ⟨n, hn⟩ := h.reader
  refine ⟨n, fun fd => ⟨(hn (a :: fd)).1, ?_⟩⟩
  rw [(hn (a :: fd)).2, hended, if_neg (by simp), Lines.loop_cons, hscan]
  dsimp only
  rw [ha]

theorem Resumes.returned {as : List Act} (h : Resumes decode messages as s) {a : Answer}
    {self : Lines} {r : Except Errno (Option β)} (hended : s.ended = false)
    (hscan : s.reader.scan decode s.line = none)
    (ha : s.reader.answered decode s.line a = .returned r self) :
    ∃ n, ∀ fd, handed (Lines.nextLine decode) n (Stream.lines, reads as ++ a :: fd) = s.got ∧
      Lines.nextLine decode
        (stateAfter (Lines.nextLine decode) n (Stream.lines, reads as ++ a :: fd)) =
        (r, self, fd) := by
  obtain ⟨n, hn⟩ := h.reader
  refine ⟨n, fun fd => ⟨(hn (a :: fd)).1, ?_⟩⟩
  rw [(hn (a :: fd)).2, hended, if_neg (by simp), Lines.loop_cons, hscan]
  dsimp only
  rw [ha]

theorem loop_scan {self self' : Lines} {line : Bytes} {x : β}
    (h : self.scan decode line = some (x, self')) (fd : List Answer) :
    Lines.nextLine.loop decode self line fd = (.ok (some x), self', fd) := by
  obtain ⟨n, hfind, heq⟩ := Option.map_eq_some_iff.1 h
  obtain ⟨rfl, rfl⟩ := Prod.mk.inj heq
  rw [Lines.nextLine.loop, hfind]

theorem one_more {n : ℕ} {fd₀ fd : List Answer} {self : Lines} {x : β} {got : List β}
    (hgot : handed (Lines.nextLine decode) n (Stream.lines, fd₀) = got)
    (h : Lines.nextLine decode (stateAfter (Lines.nextLine decode) n (Stream.lines, fd₀)) =
      (.ok (some x), self, fd)) :
    handed (Lines.nextLine decode) (n + 1) (Stream.lines, fd₀) = got ++ [x] ∧
    Lines.nextLine decode (stateAfter (Lines.nextLine decode) (n + 1) (Stream.lines, fd₀)) =
      Lines.nextLine.loop decode self [] fd := by
  refine ⟨by rw [handed_succ_of_some _ h, hgot], ?_⟩
  rw [stateAfter_succ, h]
  rfl

theorem reads_snoc (as : List Act) (a : Act) :
    reads (as ++ [a]) = reads as ++ (match a with | .read b => [b] | _ => []) := by
  rw [reads, reads, filterMap_append]
  cases a <;> rfl

theorem writes_snoc (as : List Act) (a : Act) :
    writes (as ++ [a]) = writes as ++ (match a with | .write b => [b] | _ => []) := by
  rw [writes, writes, filterMap_append]
  cases a <;> rfl

theorem sendRest_cons {a : PosixWrite.Answer} {more : List PosixWrite.Answer}
    {calls : List PosixWrite.Call} (hleft : s.left ≠ []) (hfailed : s.failed = none) :
    s.sendRest ⟨a :: more, calls⟩ =
      match Stream.writeAll.verdict a with
      | some (.error e) => some (.error e, ⟨more, calls ++ [⟨s.left, a⟩]⟩)
      | some (.ok ()) => sendAll s.todo ⟨more, calls ++ [⟨s.left, a⟩]⟩
      | none => ({ s with left := s.left.drop (PosixWrite.count a) } : Exchange β).sendRest
          ⟨more, calls ++ [⟨s.left, a⟩]⟩ := by
  obtain ⟨b, bs, hbs⟩ := exists_cons_of_ne_nil hleft
  simp only [sendRest, hfailed, PosixWrite.Loop.on, hbs, PosixWrite.Loop.run]
  split
  · next r hr => rcases r with e | u <;> rw [hr] <;> rfl
  · next hr => rw [hr]

/-- **Every step** leaves both ends in the middle of the calls of the source. -/
theorem Resumes.step {as : List Act} (h : Resumes decode messages as s)
    (hI : Inv decode messages s) (hs : Step decode capacity s a s') :
    Resumes decode messages (as ++ [a]) s' := by
  obtain ⟨n, hn⟩ := h.reader
  obtain ⟨calls, hcalls⟩ := h.writer
  cases hs with
  | begin m todo hleft htodo hfailed =>
    refine ⟨⟨n, fun fd => ?_⟩, calls, fun more => ?_⟩
    · rw [reads_snoc, append_nil]
      exact hn fd
    · rw [writes_snoc, append_nil, hcalls]
      simp only [sendRest, hfailed, hleft, htodo, PosixWrite.Loop.on, PosixWrite.Loop.run]
      rfl
  | write a hleft hcount hroom hverdict =>
    refine ⟨⟨n, fun fd => ?_⟩, calls ++ [⟨s.left, a⟩], fun more => ?_⟩
    · rw [reads_snoc, append_nil]
      exact hn fd
    · rw [writes_snoc, append_assoc, singleton_append, hcalls,
        sendRest_cons hleft (hI.not_failed hleft), hverdict]
      rfl
  | fail a e hleft hverdict =>
    refine ⟨⟨n, fun fd => ?_⟩, calls ++ [⟨s.left, a⟩], fun more => ?_⟩
    · rw [reads_snoc, append_nil]
      exact hn fd
    · rw [writes_snoc, append_assoc, singleton_append, hcalls,
        sendRest_cons hleft (hI.not_failed hleft), hverdict]
      rfl
  | close hleft htodo hclosed =>
    refine ⟨⟨n, fun fd => ?_⟩, calls, fun more => ?_⟩
    · rw [reads_snoc, append_nil]
      exact hn fd
    · rw [writes_snoc, append_nil]
      exact hcalls more
  | scan line rest reader hline hheld hrest hreader hscan =>
    have hended : s.ended = false := by
      cases he : s.ended with
      | false => rfl
      | true => simpa [pending, hheld] using (hI.ended he).2
    refine ⟨⟨n + 1, fun fd => ?_⟩, calls, fun more => ?_⟩
    · rw [reads_snoc, append_nil]
      obtain ⟨hgot, hnext⟩ := hn fd
      rw [hended, if_neg (by simp), loop_scan hscan] at hnext
      have hmore := one_more hgot hnext
      simpa only [hended, Bool.false_eq_true, if_false] using hmore
    · rw [writes_snoc, append_nil]
      exact hcalls more
  | interrupt hended hscan hnl =>
    obtain ⟨n, hn⟩ := h.goes hended hscan (a := .error Errno.EINTR) (by
      simp only [Lines.answered, if_true]; rfl)
    refine ⟨⟨n, fun fd => ?_⟩, calls, fun more => ?_⟩
    · rw [reads_snoc, append_assoc, singleton_append]
      simpa only [hended, Bool.false_eq_true, if_false] using hn fd
    · rw [writes_snoc, append_nil]
      exact hcalls more
  | fill b c hended hscan hnl hpre hlen =>
    obtain ⟨n, hn⟩ := h.goes hended hscan (a := .ok (b :: c)) rfl
    refine ⟨⟨n, fun fd => ?_⟩, calls, fun more => ?_⟩
    · rw [reads_snoc, append_assoc, singleton_append]
      simpa only [hended, Bool.false_eq_true, if_false] using hn fd
    · rw [writes_snoc, append_nil]
      exact hcalls more
  | last hended hscan hnl hclosed hwire hline =>
    obtain ⟨n, hn⟩ := h.returned hended hscan (a := .ok []) rfl
    refine ⟨⟨n + 1, fun fd => ?_⟩, calls, fun more => ?_⟩
    · rw [reads_snoc, append_assoc, singleton_append]
      obtain ⟨hgot, hnext⟩ := hn fd
      rw [if_neg (by simpa using hline)] at hnext
      have hmore := one_more hgot hnext
      simpa only [hended, Bool.false_eq_true, if_false] using hmore
    · rw [writes_snoc, append_nil]
      exact hcalls more
  | eof hended hscan hclosed hwire hline =>
    obtain ⟨n, hn⟩ := h.returned hended hscan (a := .ok []) rfl
    refine ⟨⟨n, fun fd => ?_⟩, calls, fun more => ?_⟩
    · rw [reads_snoc, append_assoc, singleton_append]
      obtain ⟨hgot, hnext⟩ := hn fd
      rw [if_pos (by simpa using hline)] at hnext
      simpa only [if_true] using ⟨hgot, hnext⟩
    · rw [writes_snoc, append_nil]
      exact hcalls more

/-- **Along every run** the ends are in the middle of the calls of the source. -/
theorem resumes {as : List Act} (hr : (system decode capacity messages).run as = some s) :
    Resumes decode messages as s := by
  induction as using List.reverseRecOn generalizing s with
  | nil =>
    cases hr
    refine ⟨⟨0, fun fd => ⟨rfl, rfl⟩⟩, [], fun more => ?_⟩
    simp only [sendRest, system, PosixWrite.Loop.on, PosixWrite.Loop.run]
    rfl
  | append_singleton as a ih =>
    obtain ⟨s₁, h₁, hstep⟩ := Sts.run_snoc_eq_some.1 hr
    have hI := (inductive_inv decode capacity messages).run h₁
    exact (ih h₁).step hI (step_cases hI.reader hstep)

/-- **The lines that come out are the messages that went in**: in every order of the steps of the
    two ends, however the socket cuts up what it takes and hands out and however often it
    interrupts.  The ends make the calls of the source, and interruptions apart they come to an
    end: where neither can go on, `next_line` has answered that there are no more lines. -/
theorem lines_arrive (hcap : 0 < capacity) (hclean : ∀ m ∈ messages, newline ∉ m)
    {as : List Act} (hr : (system decode capacity messages).run as = some s) :
    Resumes decode messages as s ∧ Arrived decode messages s ∧
    (as.map Act.cost).sum ≤ 5 * (unlines newline messages).length + 2 ∧
    ((∀ a : Act, a.interrupts = false → (system decode capacity messages).step s a = none) →
      s.ended = true) := by
  have hI := (inductive_inv decode capacity messages).run hr
  refine ⟨resumes hr, hI.arrived hclean, ?_, ended_of_stuck hcap⟩
  have hcost : (as.map Act.cost).sum ≤ (system decode capacity messages).init.remaining :=
    Sts.cost_le (fun hI hstep => ⟨(inductive_inv decode capacity messages).step hI hstep,
      (step_cases hI.reader hstep).remaining⟩) (inductive_inv decode capacity messages).init hr
  have hheld : Stream.lines.held = [] := by
    simp only [Lines.held, Stream.lines, take_zero, drop_nil]
  have hinit : (system decode capacity messages).init.remaining =
      5 * (unlines newline messages).length + 2 := by
    simp only [Exchange.remaining, system, hheld, append_nil, length_nil, if_true,
      Bool.false_eq_true, if_false]
  omega

/-- The steps in which `h` and an empty message go through a socket that holds two bytes. -/
def greeting : List Act :=
  [.begin, .write (.ok 2), .read (.ok [104, newline]), .begin, .write (.error Errno.EINTR),
    .scan, .write (.ok 1), .close, .read (.error Errno.EINTR), .read (.ok [newline]), .scan,
    .read (.ok [])]

/-- Both messages arrive. -/
theorem lines_arrive_greeting :
    ∃ s, (system id 2 [[104], []]).run greeting = some s ∧ s.ended = true ∧
      s.got = [[104], []] ∧ Arrived id [[104], []] s :=
  have hr : (system id 2 [[104], []]).run greeting = some _ := rfl
  ⟨_, hr, rfl, rfl, (lines_arrive Nat.two_pos (by decide) hr).2.1⟩

end Exchange

end Ekostd.Socket
