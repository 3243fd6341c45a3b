/-
  `file.rs` — reading lines off standard input.

  All that was read and not handed out stays in the buffer, so a read that
  fails leaves it for the next call (`Stdin.reader`).
-/
import Ekostd.File.Error
import Ekostd.Lib.PosixRead

namespace Ekostd.File

open PosixFs PosixRead List

/-- `Stdin`; `start` is the source's `at`. -/
structure Stdin where
  buf : Bytes
  start : ℕ
  eof : Bool
  deriving DecidableEq

/-- `stdin`. -/
def stdin : Stdin := ⟨[], 0, false⟩

/-- What `buf` holds that was not handed out. -/
def Stdin.held (self : Stdin) : Bytes := self.buf.drop self.start

/-- `Stdin::read_line` drops what was handed out before it reads. -/
def Stdin.compact (self : Stdin) : Stdin :=
  if self.start > 0 then { self with buf := self.buf.drop self.start, start := 0 } else self

variable {fd rest : List Answer} {self self' : Stdin} {β : Type*}

theorem Stdin.compact_eof (self : Stdin) : self.compact.eof = self.eof := by
  unfold compact
  split_ifs <;> rfl

theorem Stdin.compact_start (self : Stdin) : self.compact.start = 0 := by
  unfold compact
  split_ifs with h
  · rfl
  · exact Nat.eq_zero_of_not_pos h

theorem Stdin.compact_buf (self : Stdin) : self.compact.buf = self.held := by
  unfold compact held
  split_ifs with h
  · rfl
  · rw [Nat.eq_zero_of_not_pos h, drop_zero]

theorem read_length_le {a : Answer} (h : PosixRead.read fd = (a, rest)) :
    rest.length ≤ fd.length := by
  rcases eq_of_read h with rfl | ⟨rfl, -, rfl⟩
  · exact Nat.le_succ _
  · exact Nat.le_refl _

theorem read_length_lt {a : Answer} (h : PosixRead.read fd = (a, rest)) (ha : a ≠ .ok []) :
    rest.length < fd.length := by
  rcases eq_of_read h with rfl | ⟨rfl, rfl, rfl⟩
  · exact Nat.lt_succ_self _
  · exact absurd rfl ha

/-- How much there is still to read. -/
def Stdin.todo (self : Stdin) (fd : List Answer) : ℕ := fd.length + if self.eof then 0 else 1

section
variable (decode : Bytes → β)

/-- `Stdin::read_line`; `decode` is `String::from_utf8_lossy`. -/
def Stdin.readLine (s : Stdin × List Answer) : Except Error (Option β) × Stdin × List Answer :=
  let (self, fd) := s
  match self.held.findIdx? (· = newline) with
  | some nl =>
    (.ok (some (decode (self.held.take nl))), { self with start := self.start + nl + 1 }, fd)
  | none =>
    if _h : self.eof then
      if self.start < self.buf.length then
        (.ok (some (decode self.held)), { self with start := self.buf.length }, fd)
      else (.ok none, self, fd)
    else
      let self' := self.compact
      match _hread : PosixRead.read fd with
      | (.error e, fd) =>
        if e = Errno.EINTR then readLine (self', fd)
        else (.error (.fromErrno e "read"), self', fd)
      | (.ok [], fd) => readLine ({ self' with eof := true }, fd)
      | (.ok (b :: c), fd) => readLine ({ self' with buf := self'.buf ++ b :: c }, fd)
termination_by s.1.todo s.2
decreasing_by
  · have hlt := read_length_lt _hread (by simp)
    simp only [todo, compact_eof]
    omega
  · have hle := read_length_le _hread
    simp only [todo, _h, if_true, Bool.false_eq_true, if_false]
    omega
  · have hlt := read_length_lt _hread (by simp)
    simp only [todo, compact_eof]
    omega

theorem Stdin.held_drop (self : Stdin) (n : ℕ) :
    ({ self with start := self.start + n + 1 } : Stdin).held = self.held.drop (n + 1) := by
  rw [held, held, drop_drop]
  rfl

@[simp] theorem Stdin.compact_held (self : Stdin) : self.compact.held = self.held := by
  rw [held, compact_start, drop_zero, compact_buf]

/-- **One call.** -/
theorem Stdin.readLine_spec {decode : Bytes → β} {a : Except Error (Option β)}
    (hfd : Delivers 8192 fd) (heof : self.eof → delivered fd = [])
    (h : Stdin.readLine decode (self, fd) = (a, self', rest)) :
    (Delivers 8192 rest ∧ (self'.eof → delivered rest = [])) ∧
      Takes newline decode (self.held ++ delivered fd)
        ((failing fd).map fun e => Error.fromErrno e "read") a
        (self'.held ++ delivered rest) ((failing rest).map fun e => Error.fromErrno e "read") := by
  induction hn : self.todo fd using Nat.strong_induction_on generalizing self fd with
  | _ n ih =>
    rw [Stdin.readLine] at h
    split at h
    case h_1 nl hfind =>
      cases h
      obtain ⟨hnl, heq⟩ := eq_of_findIdx?_eq_some hfind
      refine ⟨⟨hfd, heof⟩, rfl, some _, rfl, hnl, .inl ?_⟩
      rw [Stdin.held_drop, ← cons_append, ← append_assoc, ← heq]
    case h_2 hfind =>
      have hheld : newline ∉ self.held := notMem_of_findIdx?_eq_none hfind
      split at h
      case isTrue he =>
        split at h
        case isTrue hlt =>
          -- The last line.
          cases h
          have hne : self.held ≠ [] := by
            rw [Stdin.held, ne_eq, drop_eq_nil_iff]
            omega
          refine ⟨⟨hfd, fun _ => heof he⟩, rfl, some self.held, rfl, hheld, .inr ⟨?_, hne, ?_⟩⟩
          · rw [heof he, append_nil]
          · simp [Stdin.held, heof he]
        case isFalse hle =>
          have hnil : self.held ++ delivered fd = [] := by
            rw [Stdin.held, heof he, append_nil, drop_eq_nil_iff]
            omega
          cases h
          exact ⟨⟨hfd, heof⟩, rfl, none, rfl, hnil, hnil⟩
      case isFalse he =>
        have heof' : ¬ self.compact.eof = true := by rwa [Stdin.compact_eof]
        split at h
        case h_1 e fd' hread =>
          obtain rfl : fd = .error e :: fd' := by simpa using eq_of_read hread
          split at h
          case isTrue hintr =>
            have hlt : self.compact.todo fd' < self.todo (.error e :: fd') := by
              simp [Stdin.todo, Stdin.compact_eof]
            have hnext := @ih _ (hn ▸ hlt) fd' self.compact hfd.tail (absurd · heof') h rfl
            rw [Stdin.compact_held] at hnext
            simpa [delivered, failing, hintr] using hnext
          case isFalse hintr =>
            -- The buffer is left for the next call.
            have hcome := self.compact_held
            cases h
            refine ⟨⟨hfd.tail, (absurd · heof')⟩, ?_, ?_⟩
            · simp [failing, hintr]
            · rw [hcome]
              rfl
        case h_2 fd' hread =>
          have hlt : ({ self.compact with eof := true } : Stdin).todo fd' < self.todo fd := by
            have hle := read_length_le hread
            simp only [Stdin.todo, he, if_true, Bool.false_eq_true, if_false]
            omega
          have hheld' : ({ self.compact with eof := true } : Stdin).held = self.held :=
            self.compact_held
          obtain ⟨hrest, hnil, hsame, hfailing⟩ : Delivers 8192 fd' ∧ delivered fd' = [] ∧
              delivered fd' = delivered fd ∧ failing fd' = failing fd := by
            rcases eq_of_read hread with rfl | ⟨rfl, -, rfl⟩
            · exact ⟨hfd.tail, hfd.delivered_nil, rfl, rfl⟩
            · exact ⟨hfd, rfl, rfl, rfl⟩
          obtain ⟨hinv, htakes⟩ := @ih _ (hn ▸ hlt) fd' { self.compact with eof := true } hrest
            (fun _ => hnil) h rfl
          rw [hheld', hsame, hfailing] at htakes
          exact ⟨hinv, htakes⟩
        case h_3 b c fd' hread =>
          obtain rfl : fd = .ok (b :: c) :: fd' := by simpa using eq_of_read hread
          have hlt : ({ self.compact with buf := self.compact.buf ++ b :: c } : Stdin).todo fd' <
              self.todo (.ok (b :: c) :: fd') := by
            simp [Stdin.todo, Stdin.compact_eof]
          have hheld' : ({ self.compact with buf := self.compact.buf ++ b :: c } : Stdin).held =
              self.held ++ b :: c := by
            simp only [Stdin.held, Stdin.compact_start, drop_zero]
            rw [Stdin.compact_buf, Stdin.held]
          have hnext := @ih _ (hn ▸ hlt) fd'
            { self.compact with buf := self.compact.buf ++ b :: c } hfd.tail (absurd · heof') h rfl
          rw [hheld', append_assoc] at hnext
          exact hnext

/-- **The calls of `read_line`** take one line after the other off the stream. -/
def Stdin.reader (decode : Bytes → β) : LineReader newline decode (Stdin.readLine decode) where
  inv s := Delivers 8192 s.2 ∧ (s.1.eof → delivered s.2 = [])
  come s := s.1.held ++ delivered s.2
  pend s := (failing s.2).map fun e => Error.fromErrno e "read"
  call_spec h hcall := Stdin.readLine_spec h.1 h.2 hcall

end

end Ekostd.File
