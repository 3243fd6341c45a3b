/-
  The functions of `file.rs` and `fs.rs` that hand a path to the kernel by
  `Path::as_c`.

  * `Opener`: the ones that open a file, with their flags;
  * `PathCall`, `TwoPathCall`: all of them, for a path or for two.
-/
import Ekostd.Lib.PosixName
import Ekostd.Path.Basic

namespace Ekostd.File

open PosixFs PosixName

/-- The functions that open a file. -/
inductive Opener where
  | open_
  | create
  | append
  | openRw
  | createRw
  deriving DecidableEq

/-- The flags that a file is opened with. -/
def Opener.flags : Opener → List OpenFlag
  | open_ => [.O_RDONLY]
  | create => [.O_WRONLY, .O_CREAT, .O_TRUNC]
  | append => [.O_WRONLY, .O_CREAT, .O_APPEND]
  | openRw => [.O_RDWR]
  | createRw => [.O_RDWR, .O_CREAT, .O_TRUNC]

/-- The functions that hand one path to the kernel, by the call they make.  One that makes several
    calls, such as `remove_dir_all`, makes each with a path of its own. -/
inductive PathCall where
  | opener (o : Opener)
  | exists_
  | metadata
  | symlinkMetadata
  | canonicalize
  | removeFile
  | tempDir
  | readDir
  | readLink
  | mkdir
  | unlink
  | rmdir
  deriving DecidableEq

/-- The system call of a function. -/
def PathCall.name : PathCall → Name
  | opener o => .open o.flags
  | exists_ => .access
  | metadata => .stat
  | symlinkMetadata => .lstat
  | canonicalize => .realpath
  | removeFile => .unlink
  | tempDir => .mkdir
  | readDir => .opendir
  | readLink => .readlink
  | mkdir => .mkdir
  | unlink => .unlink
  | rmdir => .rmdir

/-- The functions that hand two paths to the kernel. -/
inductive TwoPathCall where
  | hardLink
  | rename
  deriving DecidableEq

def TwoPathCall.name : TwoPathCall → Name
  | hardLink => .link
  | rename => .rename

/-- A function that hands `path` to the kernel. -/
def PathCall.run (f : PathCall) (answer : Syscall → Option Errno) (path : Bytes) : Done :=
  call answer ⟨f.name, [Path.asC path]⟩ done

/-- A function that hands `from` and `to` to the kernel. -/
def TwoPathCall.run (f : TwoPathCall) (answer : Syscall → Option Errno) (a b : Bytes) : Done :=
  call answer ⟨f.name, [Path.asC a, Path.asC b]⟩ done

variable {answer : Syscall → Option Errno} {p q : Bytes}

theorem cstr_asC (p : Bytes) : cstr (Path.asC p) = p ↔ 0 ∉ p := cstr_eq_iff []

/-- **The kernel reads the path** exactly if there is no NUL in it. -/
theorem PathCall.sees_iff (f : PathCall) : Sees [p] (f.run answer p) ↔ 0 ∉ p := by
  have hread : (f.run answer p).read = [cstr (Path.asC p)] := read_call_done answer _
  rw [Sees, hread, ← cstr_asC]
  simp

theorem TwoPathCall.sees_iff (f : TwoPathCall) :
    Sees [p, q] (f.run answer p q) ↔ 0 ∉ p ∧ 0 ∉ q := by
  have hread : (f.run answer p q).read = [cstr (Path.asC p), cstr (Path.asC q)] :=
    read_call_done answer _
  rw [Sees, hread, ← cstr_asC, ← cstr_asC]
  simp

end Ekostd.File
