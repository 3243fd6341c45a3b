/-
  `socket.rs` — reading lines off a connection.

  A call of `next_line` gathers the line it will return in a local; what the
  connection's buffer holds past it stays for the next call.

  * `Stream.read`, `Lines`, `Lines.nextLine`: as in the source;
  * `kept`: what is to come of a stream, which is all of it unless a read fails
    in the middle of a line (`kept_eq_append_iff`);
  * `Lines.reader`: the calls take one line after the other off that.
-/
import Ekostd.Lib.PosixRead

namespace Ekostd.Socket

open PosixFs PosixRead List

/-- `Stream::read`. -/
def Stream.read : List Answer → Answer × List Answer
  | [] => PosixRead.read []
  | .error e :: fd => if e = Errno.EINTR then Stream.read fd else PosixRead.read (.error e :: fd)
  | .ok c :: fd => PosixRead.read (.ok c :: fd)

/-- `Lines`; `start` is the source's `at`. -/
structure Lines where
  buf : Bytes
  filled : ℕ
  start : ℕ
  deriving DecidableEq

/-- `Stream::lines`. -/
def Stream.lines : Lines := ⟨replicate 8192 0, 0, 0⟩

/-- What `buf` holds that was not handed out. -/
def Lines.held (self : Lines) : Bytes := (self.buf.take self.filled).drop self.start

variable {size : ℕ} {fd rest : List Answer} {β : Type*}

/-! ## Reading -/

theorem Stream.read_delivers (h : Delivers size fd) :
    Delivers size (Stream.read fd).2 ∧
      ∀ c, (Stream.read fd).1 = .ok c → c.length ≤ size := by
  induction fd with
  | nil => exact ⟨h, fun c hc => h.read_length hc⟩
  | cons a fd ih =>
    cases a with
    | ok c => exact ⟨h.tail, fun c hc => h.read_length hc⟩
    | error e =>
      unfold Stream.read
      split_ifs
      · exact ih h.tail
      · exact ⟨h.tail, fun c hc => h.read_length hc⟩

theorem Stream.read_length {c : Bytes} (h : Stream.read fd = (.ok c, rest)) (hc : c ≠ []) :
    rest.length < fd.length := by
  induction fd with
  | nil =>
    cases h
    exact absurd rfl hc
  | cons a fd ih =>
    cases a with
    | ok d =>
      cases h
      exact Nat.lt_succ_self _
    | error e =>
      unfold Stream.read at h
      split_ifs at h
      · exact (ih h).trans (Nat.lt_succ_self _)
      · cases h

section
variable (decode : Bytes → β)

/-- `Lines::next_line`, from its loop on; `decode` is `String::from_utf8_lossy`. -/
def Lines.nextLine.loop (self : Lines) (line : Bytes) (fd : List Answer) :
    Except Errno (Option β) × Lines × List Answer :=
  match self.held.findIdx? (· = newline) with
  | some n =>
    (.ok (some (decode (line ++ self.held.take n))), { self with start := self.start + n + 1 }, fd)
  | none =>
    let line := line ++ self.held
    let self := { self with start := 0, filled := 0 }
    match _h : Stream.read fd with
    | (.error e, fd) => (.error e, self, fd)
    | (.ok [], fd) => (.ok (if line.isEmpty then none else some (decode line)), self, fd)
    | (.ok (b :: c), fd) =>
      loop { self with buf := b :: c ++ self.buf.drop (b :: c).length, filled := (b :: c).length }
        line fd
termination_by fd.length
decreasing_by exact Stream.read_length _h (cons_ne_nil b c)

/-- `Lines::next_line`. -/
def Lines.nextLine (s : Lines × List Answer) :
    Except Errno (Option β) × Lines × List Answer :=
  Lines.nextLine.loop decode s.1 [] s.2

end

/-! ## What is to come -/

/-- What the calls will make lines of, when they hold `left`: a failing read loses what was
    gathered of a line. -/
def kept : Bytes → List Answer → Bytes
  | left, [] => left
  | left, .ok [] :: fd => left ++ kept [] fd
  | left, .ok (b :: c) :: fd => kept (left ++ b :: c) fd
  | left, .error e :: fd =>
    if e = Errno.EINTR then kept left fd else complete newline left ++ kept [] fd

theorem kept_append (xs left : Bytes) (fd : List Answer) :
    kept (xs ++ newline :: left) fd = xs ++ newline :: kept left fd := by
  induction fd generalizing left with
  | nil => rfl
  | cons a fd ih =>
    rcases a with e | ⟨_ | ⟨b, c⟩⟩
    · by_cases he : e = Errno.EINTR
      · simpa [kept, he] using ih left
      · simp [kept, he, complete_append]
    · simp [kept]
    · simpa [kept] using ih (left ++ b :: c)

/-- **What is kept, read by read.** -/
theorem kept_read (left : Bytes) (fd : List Answer) :
    kept left fd =
      match Stream.read fd with
      | (.error _, rest) => complete newline left ++ kept [] rest
      | (.ok [], rest) => left ++ kept [] rest
      | (.ok (b :: c), rest) => kept (left ++ b :: c) rest := by
  induction fd with
  | nil => simp [kept, Stream.read, PosixRead.read]
  | cons a fd ih =>
    rcases a with e | ⟨_ | ⟨b, c⟩⟩
    · by_cases he : e = Errno.EINTR
      · simpa [kept, Stream.read, he] using ih
      · simp [kept, Stream.read, PosixRead.read, he]
    · simp [kept, Stream.read, PosixRead.read]
    · simp [kept, Stream.read, PosixRead.read]

theorem failing_read (fd : List Answer) :
    failing fd =
      match Stream.read fd with
      | (.error e, rest) => e :: failing rest
      | (.ok _, rest) => failing rest := by
  induction fd with
  | nil => rfl
  | cons a fd ih =>
    rcases a with e | c
    · by_cases he : e = Errno.EINTR
      · simpa [failing, Stream.read, he] using ih
      · simp [failing, Stream.read, PosixRead.read, he]
    · simp [failing, Stream.read, PosixRead.read]

theorem kept_of_delivered_nil (h : delivered fd = []) : kept [] fd = [] := by
  induction fd with
  | nil => rfl
  | cons a fd ih =>
    rcases a with e | ⟨_ | ⟨b, c⟩⟩
    · by_cases he : e = Errno.EINTR <;> simpa [kept, he] using ih h
    · simpa [kept] using ih h
    · simp [delivered] at h

theorem kept_read_zero (h : Delivers size fd) (hread : Stream.read fd = (.ok [], rest)) :
    kept [] rest = [] := by
  induction fd with
  | nil =>
    cases hread
    rfl
  | cons a fd ih =>
    rcases a with e | c
    · unfold Stream.read at hread
      split_ifs at hread
      · exact ih h.tail hread
      · cases hread
    · cases hread
      exact kept_of_delivered_nil h.delivered_nil

/-! ## The calls -/

section
variable {decode : Bytes → β} {self self' : Lines} {line : Bytes}

/-- The buffer as `next_line` leaves it. -/
structure Lines.WellFormed (l : Lines) : Prop where
  size : l.buf.length = 8192
  start_le : l.start ≤ l.filled
  filled_le : l.filled ≤ 8192

theorem Lines.held_filled (c buf : Bytes) :
    ({ buf := c ++ buf.drop c.length, filled := c.length, start := 0 } : Lines).held = c := by
  simp [held]

theorem Lines.WellFormed.filled (h : self.WellFormed) {c : Bytes} (hc : c.length ≤ 8192) :
    ({ buf := c ++ self.buf.drop c.length, filled := c.length, start := 0 } : Lines).WellFormed := by
  refine ⟨?_, Nat.zero_le _, hc⟩
  simp only [length_append, length_drop, h.size]
  omega

theorem Lines.held_drop (self : Lines) (n : ℕ) :
    ({ self with start := self.start + n + 1 } : Lines).held = self.held.drop (n + 1) := by
  rw [held, held, drop_drop]
  rfl

/-- **One call**, from its loop on, with `line` gathered so far. -/
theorem Lines.loop_spec {a : Except Errno (Option β)} (hself : self.WellFormed)
    (hfd : Delivers 8192 fd) (hline : newline ∉ line)
    (h : Lines.nextLine.loop decode self line fd = (a, self', rest)) :
    (self'.WellFormed ∧ Delivers 8192 rest) ∧
      Takes newline decode (kept (line ++ self.held) fd) (failing fd) a
        (kept self'.held rest) (failing rest) := by
  induction hn : fd.length using Nat.strong_induction_on generalizing self line fd with
  | _ n ih =>
    rw [Lines.nextLine.loop] at h
    split at h
    case h_1 n hfind =>
      -- A line is complete in the buffer.
      cases h
      obtain ⟨hnl, heq⟩ := eq_of_findIdx?_eq_some hfind
      refine ⟨⟨⟨hself.size, ?_, hself.filled_le⟩, hfd⟩, rfl, some _, rfl, ?_, .inl ?_⟩
      · obtain ⟨hlt, -⟩ := findIdx?_eq_some_iff_getElem.1 hfind
        rw [Lines.held, length_drop, length_take, hself.size] at hlt
        show self.start + n + 1 ≤ self.filled
        omega
      · simp [hline, hnl]
      · rw [Lines.held_drop, ← kept_append, append_assoc, ← heq]
    case h_2 hfind =>
      have hheld : newline ∉ self.held := notMem_of_findIdx?_eq_none hfind
      have hgathered : newline ∉ line ++ self.held := by simp [hline, hheld]
      have hempty : ({ self with start := 0, filled := 0 } : Lines).WellFormed :=
        ⟨hself.size, Nat.le_refl _, Nat.zero_le _⟩
      obtain ⟨hrest, hlength⟩ := Stream.read_delivers hfd
      split at h
      case h_1 e fd' hread =>
        -- What was gathered is lost.
        cases h
        rw [hread] at hrest
        refine ⟨⟨hempty, hrest⟩, ?_, ?_⟩
        · rw [failing_read fd, hread]
        · rw [kept_read (line ++ self.held) fd, hread]
          simp only [complete_of_notMem hgathered]
          simp [Lines.held]
      case h_2 fd' hread =>
        cases h
        have hnil := kept_read_zero hfd hread
        rw [hread] at hrest
        refine ⟨⟨hempty, hrest⟩, ?_, ?_⟩
        · rw [failing_read fd, hread]
        · have hcome : kept (line ++ self.held) fd = line ++ self.held := by
            rw [kept_read, hread]
            simp [hnil]
          by_cases hlast : line ++ self.held = []
          · refine ⟨none, by simp [hlast], ?_, ?_⟩
            · rw [hcome, hlast]
            · simpa [Lines.held] using hnil
          · refine ⟨some (line ++ self.held), ?_, hgathered, .inr ⟨hcome, hlast, ?_⟩⟩
            · rw [if_neg (by simpa using hlast), Option.map_some]
            · simpa [Lines.held] using hnil
      case h_3 b c fd' hread =>
        -- The line goes on in what was read.
        have hlt := Stream.read_length hread (cons_ne_nil b c)
        have hfilled := hself.filled (hlength _ (by rw [hread]))
        rw [hread] at hrest
        have hnext := ih _ (hn ▸ hlt) hfilled hrest hgathered h rfl
        rw [Lines.held_filled] at hnext
        rw [kept_read, failing_read, hread]
        exact hnext

/-- **The calls of `next_line`** take one line after the other off what is kept. -/
def Lines.reader (decode : Bytes → β) : LineReader newline decode (Lines.nextLine decode) where
  inv s := s.1.WellFormed ∧ Delivers 8192 s.2
  come s := kept s.1.held s.2
  pend s := failing s.2
  call_spec h hcall := Lines.loop_spec h.1 h.2 not_mem_nil hcall

theorem Stream.lines_wellFormed : Stream.lines.WellFormed :=
  ⟨length_replicate, Nat.le_refl _, Nat.zero_le _⟩

end

/-! ## What is lost -/

theorem length_kept_le (left : Bytes) (fd : List Answer) :
    (kept left fd).length ≤ (left ++ delivered fd).length := by
  induction fd generalizing left with
  | nil => simp [kept, delivered]
  | cons a fd ih =>
    rcases a with e | ⟨_ | ⟨b, c⟩⟩
    · by_cases he : e = Errno.EINTR
      · simpa [kept, delivered, he] using ih left
      · have hcomplete : (complete newline left).length ≤ left.length := length_complete_le left
        have hrest := ih []
        simp only [kept, delivered, he, if_false, length_append, length_nil] at hrest ⊢
        omega
    · have hrest := ih []
      simp only [kept, delivered, length_append, length_nil] at hrest ⊢
      omega
    · simpa [kept, delivered] using ih (left ++ b :: c)

theorem count_kept (left : Bytes) (fd : List Answer) :
    (kept left fd).count newline = (left ++ delivered fd).count newline := by
  induction fd generalizing left with
  | nil => simp [kept, delivered]
  | cons a fd ih =>
    rcases a with e | ⟨_ | ⟨b, c⟩⟩
    · by_cases he : e = Errno.EINTR
      · simpa [kept, delivered, he] using ih left
      · simpa [kept, delivered, he, count_complete] using ih []
    · simpa [kept, delivered] using ih []
    · simpa [kept, delivered] using ih (left ++ b :: c)

/-- No read fails while `left` and the stream so far end in an unfinished line. -/
def FailsBetweenLines (left : Bytes) (fd : List Answer) : Prop :=
  ∀ before e rest, fd = before ++ .error e :: rest → e ≠ Errno.EINTR → .ok [] ∉ before →
    left ++ delivered before = [] ∨ (left ++ delivered before).getLast? = some newline

theorem failsBetweenLines_cons {a : Answer} (ha : a ≠ .ok []) (left : Bytes) (fd : List Answer) :
    FailsBetweenLines left (a :: fd) ↔
      (∀ e, a = .error e → e ≠ Errno.EINTR → complete newline left = left) ∧
        FailsBetweenLines (left ++ delivered [a]) fd := by
  constructor
  · intro h
    constructor
    · rintro e rfl he
      simpa [complete_eq_self, delivered] using h [] e fd rfl he not_mem_nil
    · intro before e rest hfd he hzero
      have hstep := h (a :: before) e rest (by rw [hfd, cons_append]) he
        (by simpa [eq_comm, ha] using hzero)
      rwa [← singleton_append, delivered_append, ← append_assoc] at hstep
  · rintro ⟨hhead, h⟩ before e rest hfd he hzero
    cases before with
    | nil =>
      obtain ⟨rfl, rfl⟩ := cons.inj hfd
      simpa [complete_eq_self, delivered] using hhead e rfl he
    | cons b before =>
      obtain ⟨rfl, rfl⟩ := cons.inj hfd
      have hstep := h before e rest rfl he fun hmem => hzero (mem_cons_of_mem a hmem)
      rwa [← singleton_append, delivered_append, ← append_assoc]

theorem failsBetweenLines_zero (left : Bytes) (fd : List Answer) :
    FailsBetweenLines left (.ok [] :: fd) := by
  intro before e rest hfd _ hzero
  cases before with
  | nil => cases (cons.inj hfd).1
  | cons b before =>
    obtain ⟨rfl, -⟩ := cons.inj hfd
    exact absurd mem_cons_self hzero

theorem failsBetweenLines_complete {left : Bytes} (h : complete newline left = left)
    (fd : List Answer) : FailsBetweenLines left fd ↔ FailsBetweenLines [] fd := by
  have hlast : ∀ x, (left ++ x = [] ∨ (left ++ x).getLast? = some newline) ↔
      ([] ++ x = [] ∨ ([] ++ x).getLast? = some newline) := by
    intro x
    by_cases hx : x = []
    · simpa [hx] using complete_eq_self.1 h
    · simp [hx]
  simp only [FailsBetweenLines, hlast]

/-- **A stream after `left` is kept** exactly if no read fails in the middle of a line. -/
theorem kept_eq_append_iff (hfd : Delivers size fd) (left : Bytes) :
    kept left fd = left ++ delivered fd ↔ FailsBetweenLines left fd := by
  induction fd generalizing left with
  | nil => simp [kept, delivered, FailsBetweenLines]
  | cons a fd ih =>
    rcases a with e | ⟨_ | ⟨b, c⟩⟩
    · rw [failsBetweenLines_cons (by simp)]
      by_cases he : e = Errno.EINTR
      · simpa [kept, delivered, he] using ih hfd.tail left
      · have hcomplete : (complete newline left).length ≤ left.length := length_complete_le left
        have hrest := length_kept_le [] fd
        simp only [kept, he, if_false, delivered, append_nil]
        constructor
        · intro h
          have hlen := congrArg length h
          simp only [length_append, nil_append] at hlen hrest
          obtain ⟨hleft, hfd'⟩ := append_inj h (by omega)
          refine ⟨fun _ _ _ => hleft, ?_⟩
          rw [failsBetweenLines_complete hleft, ← ih hfd.tail, nil_append]
          exact hfd'
        · rintro ⟨hhead, h⟩
          have hleft := hhead e rfl he
          rw [failsBetweenLines_complete hleft, ← ih hfd.tail, nil_append] at h
          rw [hleft, h]
    · have hnil := hfd.delivered_nil
      have hkept := kept_of_delivered_nil hnil
      simp [kept, delivered, hkept, hnil, failsBetweenLines_zero]
    · rw [failsBetweenLines_cons (by simp)]
      simpa [kept, delivered] using ih hfd.tail (left ++ b :: c)

end Ekostd.Socket
