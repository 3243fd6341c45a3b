/-
  `file.rs` — `read`, a whole file.

  A file is read until a `read` answers zero; interruptions are tried again,
  and any other failure ends it.  The size that `fstat` tells is for the
  capacity of the buffer only.
-/
import Ekostd.File.Error
import Ekostd.Lib.PosixRead

namespace Ekostd.File

open PosixFs PosixRead List

/-- `File::read_to_end`, with what is in the buffer. -/
def readToEnd (start : ℕ) : List Answer → Bytes → Except Error ℕ × Bytes × List Answer
  | [], out => (.ok (out.length - start), out, [])
  | .error e :: fd, out =>
    if e = Errno.EINTR then readToEnd start fd out else (.error (.fromErrno e "read"), out, fd)
  | .ok [] :: fd, out => (.ok (out.length - start), out, fd)
  | .ok (b :: c) :: fd, out => readToEnd start fd (out ++ b :: c)

/-- `read`; `opened` is what `open(2)` answers for a name. -/
def read (opened : Bytes → Except Errno (List Answer)) (path : Bytes) : Except Error Bytes :=
  match opened (Path.kernel path) with
  | .error e => .error (.fromErrno e "open")
  | .ok fd =>
    match readToEnd 0 fd [] with
    | (.ok _, out, _) => .ok out
    | (.error e, _, _) => .error e

variable {size : ℕ} {fd : List Answer}

theorem readToEnd_eq (hfd : Delivers size fd) (hfail : failing fd = []) (start : ℕ) (out : Bytes) :
    ∃ rest, readToEnd start fd out =
      (.ok ((out ++ delivered fd).length - start), out ++ delivered fd, rest) := by
  induction fd generalizing out with
  | nil => exact ⟨[], by simp [readToEnd, delivered]⟩
  | cons a fd ih =>
    cases a with
    | error e =>
      rw [failing] at hfail
      split_ifs at hfail with he
      obtain ⟨rest, hrest⟩ := ih hfd.tail hfail out
      exact ⟨rest, by rw [readToEnd, if_pos he, hrest]; rfl⟩
    | ok c =>
      cases c with
      | nil => exact ⟨fd, by simp [readToEnd, delivered, hfd.delivered_nil]⟩
      | cons b c =>
        obtain ⟨rest, hrest⟩ := ih hfd.tail hfail (out ++ b :: c)
        exact ⟨rest, by rw [readToEnd, hrest, delivered, append_assoc]⟩

/-- **Nothing is missing** where the end was reached. -/
theorem readToEnd_ok (hfd : Delivers size fd) {start n : ℕ} {out out' : Bytes} {rest : List Answer}
    (h : readToEnd start fd out = (.ok n, out', rest)) :
    out' = out ++ delivered fd ∧ n = out'.length - start := by
  induction fd generalizing out with
  | nil =>
    cases h
    exact ⟨by simp [delivered], rfl⟩
  | cons a fd ih =>
    cases a with
    | error e =>
      rw [readToEnd] at h
      split_ifs at h
      · exact ih hfd.tail h
      · cases h
    | ok c =>
      cases c with
      | nil =>
        cases h
        exact ⟨by simp [delivered, hfd.delivered_nil], rfl⟩
      | cons b c =>
        obtain ⟨hout, hn⟩ := ih hfd.tail h
        exact ⟨by rw [hout, delivered, append_assoc], hn⟩

theorem readToEnd_error {start : ℕ} {out out' : Bytes} {rest : List Answer} {e : Error}
    (h : readToEnd start fd out = (.error e, out', rest)) : e.what = "read" := by
  induction fd generalizing out with
  | nil => cases h
  | cons a fd ih =>
    cases a with
    | error e =>
      rw [readToEnd] at h
      split_ifs at h
      · exact ih h
      · cases h
        rfl
    | ok c =>
      cases c with
      | nil => cases h
      | cons b c => exact ih h

/-- **A file is read whole**, however it is delivered, where no read fails. -/
theorem read_eq {opened : Bytes → Except Errno (List Answer)} {path : Bytes}
    (hopen : opened (Path.kernel path) = .ok fd) (hfd : Delivers size fd)
    (hfail : failing fd = []) :
    read opened path = .ok (delivered fd) := by
  obtain ⟨rest, hrest⟩ := readToEnd_eq hfd hfail 0 []
  rw [nil_append] at hrest
  simp only [read, hopen, hrest]

end Ekostd.File
