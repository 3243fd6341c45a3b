/-
  Open files — descriptors with an offset, and what the calls on them do.

  Several descriptors may be of one file, each with an offset of its own.  A
  write is at the offset, or at the end of the file where the descriptor is for
  appending; what is missing before it becomes zeros.

  * `Session.opens`, `Session.put`, `Session.advance`, `Session.moveTo`: the calls;
  * `put_put`, `wrote_eq`: what is written by several calls of `write` is
    written as by one.
-/
import Ekostd.Lib.PosixData
import Ekostd.Lib.PosixName
import Ekostd.Lib.Tape

namespace PosixFile

open PosixFs PosixName PosixData

/-- An open file description. -/
structure Desc where
  file : ℕ
  off : ℕ
  reads : Bool
  writes : Bool
  append : Bool
  deriving DecidableEq

/-- The description that the flags of `open` ask for. -/
def Desc.new (flags : List OpenFlag) (file : ℕ) : Desc where
  file := file
  off := 0
  reads := .O_RDONLY ∈ flags ∨ .O_RDWR ∈ flags
  writes := .O_WRONLY ∈ flags ∨ .O_RDWR ∈ flags
  append := .O_APPEND ∈ flags

/-- The files, and the descriptors that are open. -/
structure Session where
  files : Files
  descs : ℕ → Option Desc

/-- `open(2)`: the file, and the files after it. -/
def openFiles (fs : Files) (flags : List OpenFlag) (p : Bytes) : Except Errno (ℕ × Files) :=
  match fs.names p with
  | some i => if .O_TRUNC ∈ flags then .ok (fs.create p) else .ok (i, fs)
  | none => if .O_CREAT ∈ flags then .ok (fs.create p) else .error Errno.ENOENT

namespace Session

variable {s : Session} {x : ℕ}

def opens (s : Session) (x : ℕ) (flags : List OpenFlag) (p : Bytes) : Except Errno Session :=
  (openFiles s.files flags p).map fun (i, files) =>
    ⟨files, Function.update s.descs x (some (Desc.new flags i))⟩

/-- Where a write on the descriptor goes. -/
def target (s : Session) (d : Desc) : ℕ :=
  if d.append then (s.files.data d.file).length else d.off

/-- A `write` that takes `bytes`. -/
def put (s : Session) (x : ℕ) (bytes : Bytes) : Session :=
  match s.descs x with
  | none => s
  | some d =>
    if bytes = [] then s
    else ⟨{ s.files with
        data := Function.update s.files.data d.file
          (overwrite 0 (s.files.data d.file) (s.target d) bytes) },
      Function.update s.descs x (some { d with off := s.target d + bytes.length })⟩

/-- A `read` that gives so many bytes. -/
def advance (s : Session) (x k : ℕ) : Session :=
  ⟨s.files, Function.update s.descs x ((s.descs x).map fun d => { d with off := d.off + k })⟩

/-- `lseek`, to a place. -/
def moveTo (s : Session) (x off : ℕ) : Session :=
  ⟨s.files, Function.update s.descs x ((s.descs x).map fun d => { d with off })⟩

/-- `close`. -/
def close (s : Session) (x : ℕ) : Session :=
  { s with descs := Function.update s.descs x none }

/-- What is in the file from the offset on. -/
def rest (s : Session) (d : Desc) : Bytes := (s.files.data d.file).drop d.off

/-- What the calls of `read` answer, that ask for `size` bytes each. -/
def readAnswers (s : Session) (x size : ℕ) (os : List (Except Errno ℕ+)) :
    List PosixRead.Answer :=
  match s.descs x with
  | none => [.error Errno.EBADF]
  | some d => if d.reads then PosixRead.deliver size (s.rest d) os else [.error Errno.EBADF]

/-- What the calls of `write` answer. -/
def writeAnswers (s : Session) (x : ℕ) (as : List PosixWrite.Answer) : List PosixWrite.Answer :=
  match s.descs x with
  | none => [.error Errno.EBADF]
  | some d => if d.writes then as else [.error Errno.EBADF]

/-- What calls of `write` leave. -/
def wrote (s : Session) (x : ℕ) (calls : List PosixWrite.Call) : Session :=
  calls.foldl (fun s c => s.put x c.accepted) s

/-! ## Writing piece by piece -/

@[simp] theorem put_nil (s : Session) (x : ℕ) : s.put x [] = s := by
  rw [put]
  split
  · rfl
  · rw [if_pos rfl]

theorem put_some {d : Desc} (hx : s.descs x = some d) {bytes : Bytes} (h : bytes ≠ []) :
    s.put x bytes = ⟨{ s.files with
        data := Function.update s.files.data d.file
          (overwrite 0 (s.files.data d.file) (s.target d) bytes) },
      Function.update s.descs x (some { d with off := s.target d + bytes.length })⟩ := by
  rw [put, hx]
  exact if_neg h

/-- **Two writes** that follow each other are one. -/
theorem put_put (s : Session) (x : ℕ) (xs ys : Bytes) :
    (s.put x xs).put x ys = s.put x (xs ++ ys) := by
  by_cases hxs : xs = []
  · rw [hxs, put_nil, List.nil_append]
  · by_cases hys : ys = []
    · rw [hys, put_nil, List.append_nil]
    · cases hx : s.descs x with
      | none => simp [put, hx]
      | some d =>
        have hne : xs ++ ys ≠ [] := by simp [hxs]
        rw [put_some hx hxs, put_some hx hne, put_some (Function.update_self x _ _) hys]
        -- the second write goes where the first one has ended
        have htarget : (⟨{ s.files with
              data := Function.update s.files.data d.file
                (overwrite 0 (s.files.data d.file) (s.target d) xs) },
            Function.update s.descs x (some { d with off := s.target d + xs.length })⟩ :
              Session).target { d with off := s.target d + xs.length } =
            s.target d + xs.length := by
          by_cases happ : d.append
          · simp [target, happ, Tape.length_overwrite hxs]
          · simp [target, happ]
        rw [htarget]
        simp only [Function.update_self, Function.update_idem, Tape.overwrite_overwrite,
          List.length_append, Nat.add_assoc]

/-- **Calls of `write`** leave what one call would. -/
theorem wrote_eq (s : Session) (x : ℕ) (calls : List PosixWrite.Call) :
    s.wrote x calls = s.put x (PosixWrite.accepted calls) := by
  induction calls generalizing s with
  | nil => rw [PosixWrite.accepted_nil, put_nil, wrote, List.foldl_nil]
  | cons c calls ih =>
    rw [PosixWrite.accepted_cons, ← put_put, ← ih]
    rfl

end Session

end PosixFile
