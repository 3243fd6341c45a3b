/-
  System calls that take names.

  A name is handed over in a buffer, of which the kernel reads what is before
  the first NUL.

  * `call`: a system call, answered by the kernel, and what follows it;
  * `Sees`: what an operation has done is what it was asked for: it has failed
    without a name being read, or exactly the names given have been read;
  * `SeesAtOnce`: the same where no call at all is made before it fails.
-/
import Ekostd.Lib.PosixFs

namespace PosixName

open PosixFs

/-- The flags of `open`. -/
inductive OpenFlag where
  | O_RDONLY
  | O_WRONLY
  | O_RDWR
  | O_CREAT
  | O_TRUNC
  | O_APPEND
  | O_CLOEXEC
  deriving DecidableEq

/-- The calls. -/
inductive Name where
  | «open» (flags : List OpenFlag)
  | access
  | stat
  | lstat
  | realpath
  | readlink
  | opendir
  | mkdir
  | unlink
  | rmdir
  | link
  | rename
  | execve
  | socket
  | bind
  | connect
  | listen (backlog : ℤ)
  | close
  deriving DecidableEq

/-- A system call, with the buffers that hold its names. -/
structure Syscall where
  name : Name
  buffers : List Bytes
  deriving DecidableEq

/-- What an operation has done: its system calls in order, and the error it reports. -/
structure Done where
  calls : List Syscall
  failed : Option Errno

/-- Nothing more to do. -/
def done : Done := ⟨[], none⟩

/-- Nothing more to do, because of an error. -/
def fail (e : Errno) : Done := ⟨[], some e⟩

/-- A system call, and what follows it if it succeeds. -/
def call (answer : Syscall → Option Errno) (c : Syscall) (next : Done) : Done :=
  match answer c with
  | some e => ⟨[c], some e⟩
  | none => ⟨c :: next.calls, next.failed⟩

/-- A file that is closed if what follows its opening fails. -/
def closing (d : Done) : Done :=
  if d.failed = none then d else { d with calls := d.calls ++ [⟨.close, []⟩] }

/-- The names that the kernel has read. -/
def Done.read (d : Done) : List Bytes := d.calls.flatMap fun c => c.buffers.map cstr

/-- It has failed before a name was read, or exactly the names given were read. -/
def Sees (names : List Bytes) (d : Done) : Prop := (d.failed ≠ none ∧ d.read = []) ∨ d.read = names

/-- It has failed before any call, or exactly the names given were read. -/
def SeesAtOnce (names : List Bytes) (d : Done) : Prop :=
  (d.failed ≠ none ∧ d.calls = []) ∨ d.read = names

variable {answer : Syscall → Option Errno} {c : Syscall} {d d' : Done} {names names' : List Bytes}

/-- **Different names are not read as the same**, where names are seen and read at all. -/
theorem Sees.names_eq (h : Sees names d) (h' : Sees names' d') (hne : d.read ≠ [])
    (heq : d.read = d'.read) : names = names' := by
  rcases h with ⟨-, hnil⟩ | h
  · exact absurd hnil hne
  · rcases h' with ⟨-, hnil⟩ | h'
    · exact absurd (heq.trans hnil) hne
    · rw [← h, heq, h']

theorem seesAtOnce_call : SeesAtOnce names (call answer c d) ↔ (call answer c d).read = names := by
  have hcalls : (call answer c d).calls ≠ [] := by
    unfold call
    split
    · exact List.cons_ne_nil c []
    · exact List.cons_ne_nil c d.calls
  rw [SeesAtOnce, or_iff_right]
  rintro ⟨-, hnil⟩
  exact hcalls hnil

theorem read_call_some {e : Errno} (h : answer c = some e) :
    (call answer c d).read = c.buffers.map cstr := by
  simp [call, h, Done.read]

theorem read_call_none (h : answer c = none) :
    (call answer c d).read = c.buffers.map cstr ++ d.read := by
  simp [call, h, Done.read]

theorem read_call_done (answer : Syscall → Option Errno) (c : Syscall) :
    (call answer c done).read = c.buffers.map cstr := by
  cases h : answer c with
  | some e => exact read_call_some h
  | none =>
    rw [read_call_none h]
    exact List.append_nil _

theorem failed_call_some {e : Errno} (h : answer c = some e) :
    (call answer c d).failed = some e := by
  simp [call, h]

@[simp] theorem read_done : done.read = [] := rfl

@[simp] theorem read_fail (e : Errno) : (fail e).read = [] := rfl

@[simp] theorem read_closing (d : Done) : (closing d).read = d.read := by
  unfold closing
  split_ifs
  · rfl
  · simp [Done.read]

@[simp] theorem failed_closing (d : Done) : (closing d).failed = d.failed := by
  unfold closing
  split_ifs <;> rfl

end PosixName
