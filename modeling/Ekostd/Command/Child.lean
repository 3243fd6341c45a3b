/-
  `Child` — what the parent does between one system call and the next while it
  collects the output of a child.

  A system call is answered by the kernel; the functions here take the answer.
  A loop around a system call is one turn of it, with whether it goes on.
-/
import Ekostd.Command.Spawn

namespace Ekostd.Command

/-- The two streams of a child. -/
inductive Stream where
  | out
  | err
  deriving DecidableEq

theorem Stream.exists {P : Stream → Prop} : (∃ f, P f) ↔ P .out ∨ P .err := by
  constructor
  · rintro ⟨f, h⟩
    cases f with
    | out => exact Or.inl h
    | err => exact Or.inr h
  · rintro (h | h)
    · exact ⟨.out, h⟩
    · exact ⟨.err, h⟩

/-- One turn of the loop of `Pipe::take_ready`: what is left of the pipe after `read` has
    answered, and whether the loop goes on. -/
def Pipe.takeTurn (self : Pipe) : Except Errno Bytes → Pipe × Bool
  | .ok [] => ({ self with done := true }, false)
  | .ok chunk => ({ self with got := self.got ++ chunk }, true)
  | .error e =>
    if e = Errno.EINTR then (self, true)
    else if e ≠ Errno.EAGAIN ∧ e ≠ Errno.EWOULDBLOCK then ({ self with done := true }, false)
    else (self, false)

/-- `Output`. -/
structure Output where
  code : ℤ
  stdout : Bytes
  stderr : Bytes

/-- A `pollfd` that asks for `POLLIN`; `revents` is whether anything is set in the source's. -/
structure Pollfd where
  fd : ℕ
  revents : Bool
  deriving DecidableEq, Inhabited

/-- `exit_code`. -/
def exitCode (status : ℕ) : ℤ :=
  if status % 128 = 0 then (status / 256) % 256 else 128 + status % 128

namespace Child

variable (self : Child)

/-- The pipe of a stream. -/
def pipe : Stream → Pipe
  | .out => self.out
  | .err => self.err

/-- The child with another pipe for a stream. -/
def setPipe (f : Stream) (pipe : Pipe) : Child :=
  match f with
  | .out => { self with out := pipe }
  | .err => { self with err := pipe }

/-- `Child::drained`. -/
def drained : Bool := self.out.done && self.err.done

/-- The `pollfd`s of `Child::read_ready`, and its `watched`. -/
def watch : List Pollfd × Bool × Bool :=
  let fds := if self.out.done then [] else [⟨self.out.read, false⟩]
  let fds := if self.err.done then fds else fds ++ [⟨self.err.read, false⟩]
  (fds, !self.out.done, !self.err.done)

/-- The `ms` of `Child::read_ready`, of a timeout in nanoseconds. -/
def pollMs (timeout : Option ℕ) : ℤ :=
  timeout.elim (-1) fun t =>
    let whole := min (t / 1000000) (2 ^ 31 - 1)
    if whole = 0 ∧ t ≠ 0 then 1 else whole

/-- `Child::into_output`. -/
def intoOutput (code : ℤ) : Output := ⟨code, self.out.got, self.err.got⟩

/-- One turn of the loop of `Child::collect`: the child after `waitpid` has answered, and the
    code if the loop is over.  The `flags` are 0, so that `waitpid` does not answer 0. -/
def collectTurn : Except Errno ℕ → Child × Option ℤ
  | .error e =>
    if e = Errno.EINTR then (self, none) else ({ self with status := some (-1) }, some (-1))
  | .ok status => ({ self with status := some (exitCode status) }, some (exitCode status))

theorem pipe_setPipe (f g : Stream) (pipe : Pipe) :
    (self.setPipe f pipe).pipe g = if g = f then pipe else self.pipe g := by
  cases f <;> cases g <;> rfl

theorem drained_iff : self.drained ↔ ∀ f, (self.pipe f).done = true := by
  constructor
  · intro h f
    obtain ⟨ho, he⟩ := Bool.and_eq_true_iff.1 h
    cases f with
    | out => exact ho
    | err => exact he
  · intro h
    exact Bool.and_eq_true_iff.2 ⟨h .out, h .err⟩

/-- **A stream is watched** until it is done. -/
theorem mem_watch {fd : ℕ} :
    ⟨fd, false⟩ ∈ self.watch.1 ↔ ∃ f, (self.pipe f).done = false ∧ (self.pipe f).read = fd := by
  simp only [watch, Stream.exists, pipe]
  cases self.out.done <;> cases self.err.done <;> simp [eq_comm]

end Child
end Ekostd.Command
