/-
  `daemonize.rs` — `daemonize` and `Ready`, in the three processes.

  Each process has its own descriptors, which a fork copies.  Every system call
  is a step, of which those that the source checks may fail; and a process may
  be killed before any of them, or end after `daemonize` has returned in it.

  * `Original`, `Middle`, `Daemon`: where each of them is;
  * `State.callOriginal`, `State.callMiddle`, `Daemon.call`, `State.signal`: their
    calls;
  * `State.step`, `system`: the three of them and the pipe.

  A pid file is any file that can be opened, and its lock is held or not by
  processes elsewhere: that `flock` refuses is one more failure.
-/
import Ekostd.Daemonize.PidFile
import Ekostd.Lib.PosixFd

namespace Ekostd.Daemonize

open PosixFs PosixFd

/-- The descriptors of a process that opens files by their path. -/
abbrev Proc := PosixFd.Proc Bytes

/-- `/dev/null`. -/
def devNull : Bytes := [47, 100, 101, 118, 47, 110, 117, 108, 108]

/-! ## The processes -/

/-- The next call of the original, which is the parent from the first fork on; or `daemonize` has
    returned in it. -/
inductive Original where
  | pipe
  | fork
  | closeWrite
  | read
  | closeRead (code : ℕ)
  | exit (code : ℕ)
  | failed (e : DaemonizeError)
  deriving DecidableEq

/-- The next call of the first child. -/
inductive Middle where
  | closeRead
  | setsid
  | fork
  | exit
  | failed (e : DaemonizeError)
  deriving DecidableEq

/-- The next call of the daemon; or it has the `Ready`, is in `signal` past the `write`, or has
    the `Ready` no more. -/
inductive Daemon where
  | chdir
  | umask
  | openPid (path : Bytes)
  | flock (fd : ℕ)
  | closePid (fd : ℕ)
  | ftruncate
  | writePid
  | openNull
  | dup (devnull fd : ℕ)
  | closeNull (devnull : ℕ)
  | started
  | signalled
  | dropped
  | failed (e : DaemonizeError)
  deriving DecidableEq

/-- Whether a process runs, and what has ended it: `exit` in `daemonize`, the signal of a pipe
    that nobody reads, or anything else. -/
inductive Status where
  | unborn
  | running
  | exited (code : ℕ)
  | sigpipe
  | ended
  deriving DecidableEq

/-- A process. -/
structure Process (π : Type) where
  pc : π
  status : Status
  table : Proc

/-- The processes, the numbers of the pipe's ends, the bytes that are in it, and whether the
    daemon has called `signal`. -/
structure State where
  original : Process Original
  middle : Process Middle
  daemon : Process Daemon
  readFd : ℕ
  writeFd : ℕ
  bytes : ℕ
  signalled : Bool

/-- The three processes. -/
inductive Role where
  | original
  | middle
  | daemon
  deriving DecidableEq

/-- `pipe` answers; a process makes its next call, which may fail; the daemon's caller signals, or
    drops the `Ready`; or a process ends. -/
inductive Act where
  | pipe (crossed : Bool)
  | original (fault : Option Errno)
  | middle (fault : Option Errno)
  | daemon (fault : Option Errno)
  | signal
  | drop
  | die (r : Role)
  deriving DecidableEq

/-! ## Who has the ends of the pipe -/

/-- An end of the pipe, which is the first file that `daemonize` opens. -/
def pipeEnd (start : Proc) (kind : Kind Bytes) : File Bytes := ⟨start.opened, kind⟩

/-- The file at a number. -/
def fileAt (p : Proc) (n : ℕ) : Option (File Bytes) := (p.fd n).map Desc.file

variable {π : Type} (start : Proc)

/-- Whether a process has the end of the pipe at `n`. -/
def Process.holds (q : Process π) (kind : Kind Bytes) (n : ℕ) : Prop :=
  q.status = .running ∧ fileAt q.table n = some (pipeEnd start kind)

instance (q : Process π) (kind : Kind Bytes) (n : ℕ) : Decidable (q.holds start kind n) :=
  inferInstanceAs (Decidable (_ ∧ _))

/-- Whether some process has the end of the pipe at `n`. -/
def State.holds (s : State) (kind : Kind Bytes) (n : ℕ) : Prop :=
  s.original.holds start kind n ∨ s.middle.holds start kind n ∨ s.daemon.holds start kind n

instance (s : State) (kind : Kind Bytes) (n : ℕ) : Decidable (s.holds start kind n) :=
  inferInstanceAs (Decidable (_ ∨ _))

/-! ## The steps -/

/-- A process goes on at `pc`, with the descriptors `table`. -/
def Process.goto (q : Process π) (pc : π) (table : Proc) : Process π :=
  { q with pc := pc, table := table }

/-- The next call of the original but the `pipe`. -/
def State.callOriginal (s : State) : Original → Option Errno → Option State
  | .pipe, some e =>
    some { s with original := s.original.goto (.failed (.pipe e)) s.original.table }
  | .fork, some e =>
    some { s with original := s.original.goto (.failed (.fork e)) s.original.table }
  | .fork, none =>
    some { s with
      original := s.original.goto .closeWrite s.original.table
      middle := ⟨.closeRead, .running, s.original.table⟩ }
  | .closeWrite, _ =>
    some { s with original := s.original.goto .read (s.original.table.close s.writeFd) }
  | .read, some _ => some { s with original := s.original.goto (.closeRead 1) s.original.table }
  | .read, none =>
    if s.bytes ≠ 0 then
      some { s with
        original := s.original.goto (.closeRead 0) s.original.table
        bytes := s.bytes - 1 }
    -- `read` waits while there is a write end.
    else if s.holds start .writeEnd s.writeFd then none
    else some { s with original := s.original.goto (.closeRead 1) s.original.table }
  | .closeRead code, _ =>
    some { s with original := s.original.goto (.exit code) (s.original.table.close s.readFd) }
  | .exit code, _ => some { s with original := { s.original with status := .exited code } }
  | .pipe, none | .failed _, _ => none

/-- The next call of the first child. -/
def State.callMiddle (s : State) : Middle → Option Errno → Option State
  | .closeRead, _ =>
    some { s with middle := s.middle.goto .setsid (s.middle.table.close s.readFd) }
  | .setsid, some e => some { s with middle := s.middle.goto (.failed (.setSid e)) s.middle.table }
  | .setsid, none => some { s with middle := s.middle.goto .fork s.middle.table }
  | .fork, some e => some { s with middle := s.middle.goto (.failed (.fork e)) s.middle.table }
  | .fork, none =>
    some { s with
      middle := s.middle.goto .exit s.middle.table
      daemon := ⟨.chdir, .running, s.middle.table⟩ }
  | .exit, _ => some { s with middle := { s.middle with status := .exited 0 } }
  | .failed _, _ => none

/-- What `write_pid_file` is to do, if anything, and then the standard streams. -/
def Daemon.pidFile : Option Bytes → Daemon
  | some path => .openPid path
  | none => .openNull

/-- The next call of the daemon, and its descriptors after it. -/
def Daemon.call (pidFile : Option Bytes) (writeFd : ℕ) (p : Proc) :
    Daemon → Option Errno → Option (Daemon × Proc)
  | .chdir, some e => some (.failed (.chdir e), p)
  | .chdir, none => some (.umask, p)
  | .umask, _ => some (.pidFile pidFile, p)
  | .openPid _, some e => some (.failed (.pidFile e), p)
  | .openPid path, none =>
    match p.openFile path false with
    | none => some (.failed (.pidFile Errno.EMFILE), p)
    | some (fd, p) => some (.flock fd, p)
  | .flock fd, some _ => some (.closePid fd, p)
  | .flock _, none => some (.ftruncate, p)
  | .closePid fd, _ => some (.failed .pidFileLocked, p.close fd)
  | .ftruncate, some e => some (.failed (.pidFile e), p)
  | .ftruncate, none => some (.writePid, p)
  | .writePid, some e => some (.failed (.pidFile e), p)
  | .writePid, none => some (.openNull, p)
  | .openNull, some e => some (.failed (.devNull e), p)
  | .openNull, none =>
    match p.openFile devNull false with
    | none => some (.failed (.devNull Errno.EMFILE), p)
    | some (devnull, p) => some (.dup devnull 0, p)
  | .dup _ _, some e => some (.failed (.devNull e), p)
  | .dup devnull fd, none =>
    match p.dup2 devnull fd with
    | none => some (.failed (.devNull Errno.EBADF), p)
    | some p =>
      some (if fd < 2 then .dup devnull (fd + 1)
        else if 2 < devnull then .closeNull devnull else .started, p)
  | .closeNull devnull, _ => some (.started, p.close devnull)
  -- The end of `Ready::signal`.
  | .signalled, _ => some (.dropped, p.close writeFd)
  | .started, _ | .dropped, _ | .failed _, _ => none

/-- `Ready::signal`, as far as the `write`: to the write end, if the daemon still has it at that
    number. -/
def State.signal (s : State) : State :=
  if fileAt s.daemon.table s.writeFd = some (pipeEnd start .writeEnd) then
    if s.holds start .readEnd s.readFd then
      { s with
        daemon := s.daemon.goto .signalled s.daemon.table
        bytes := s.bytes + 1
        signalled := true }
    -- SIGPIPE, with its default disposition.
    else { s with daemon := { s.daemon with status := .sigpipe }, signalled := true }
  else { s with daemon := s.daemon.goto .signalled s.daemon.table, signalled := true }

/-- A process ends. -/
def Process.die (q : Process π) : Option (Process π) :=
  if q.status = .running then some { q with status := .ended } else none

/-- One step. -/
def State.step (pidFile : Option Bytes) (s : State) : Act → Option State
  | .pipe crossed =>
    if s.original.status = .running ∧ s.original.pc = .pipe then
      match s.original.table.pipe crossed false with
      | none =>
        some { s with original := s.original.goto (.failed (.pipe Errno.EMFILE)) s.original.table }
      | some ((readFd, writeFd), p) =>
        some { s with original := s.original.goto .fork p, readFd := readFd, writeFd := writeFd }
    else none
  | .original fault =>
    if s.original.status = .running then s.callOriginal start s.original.pc fault else none
  | .middle fault => if s.middle.status = .running then s.callMiddle s.middle.pc fault else none
  | .daemon fault =>
    if s.daemon.status = .running then
      (s.daemon.pc.call pidFile s.writeFd s.daemon.table fault).map fun (pc, p) =>
        { s with daemon := s.daemon.goto pc p }
    else none
  | .signal =>
    if s.daemon.status = .running ∧ s.daemon.pc = .started then some (s.signal start) else none
  | .drop =>
    if s.daemon.status = .running ∧ s.daemon.pc = .started then
      some { s with daemon := s.daemon.goto .dropped (s.daemon.table.close s.writeFd) }
    else none
  | .die .original => s.original.die.map fun q => { s with original := q }
  | .die .middle => s.middle.die.map fun q => { s with middle := q }
  | .die .daemon => s.daemon.die.map fun q => { s with daemon := q }

/-- `daemonize`, called by a process with the descriptors `start`. -/
def system (pidFile : Option Bytes) : Sts State Act where
  init := ⟨⟨.pipe, .running, start⟩, ⟨.closeRead, .unborn, start⟩, ⟨.chdir, .unborn, start⟩,
    0, 0, 0, false⟩
  step := State.step start pidFile

end Ekostd.Daemonize
