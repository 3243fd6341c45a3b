/-
  `command.rs` — a program to run: where it is looked for, and the environment
  it gets.

  `World` is what the process finds when it spawns: the platform, its
  environment, and the answers of the calls that may fail.
-/
import Ekostd.Lib.PosixFd
import Ekostd.Lib.PosixFs

namespace Ekostd

open PosixFs

/-- The separator of `PATH`. -/
def Env.colon : UInt8 := 58

/-- `env::split_paths`. -/
def Env.splitPaths (value : Bytes) : List Bytes := value.pieces Env.colon

namespace Command

/-- The calls of `Command::spawn` that may fail. -/
inductive Call where
  | outPipe
  | errPipe
  | dupOut
  | dupErr
  | openNull
  | dup2Null
  | dup2Out
  | dup2Err
  | execve (i : ℕ)
  deriving DecidableEq

/-- What `spawn` meets: the platform, which calls fail for a reason of their own, which pipes
    have the lower number at their write end, the pid of the fork if it succeeds, `PATH` and the
    environment. -/
structure World where
  linux : Bool
  fails : Call → Bool
  crossed : Call → Bool
  fork : Option ℕ
  path : Option Bytes
  environ : List Bytes

/-- On Linux, with no environment; nothing fails, and the child's pid is 7. -/
def World.calm : World := ⟨true, fun _ => false, fun _ => false, some 7, none, []⟩

/-- The answer of a call that may fail for a reason of its own. -/
def World.call {α : Type*} (w : World) (c : Call) (answer : Option α) : Option α :=
  if w.fails c then none else answer

theorem World.call_eq_some {α : Type*} {w : World} {c : Call} {r : Option α} {a : α}
    (h : w.call c r = some a) : r = some a := by
  unfold World.call at h
  split_ifs at h
  exact h

end Command

/-- `nul_terminated`. -/
def nulTerminated (bytes : Bytes) : Bytes := bytes ++ [0]

/-- `Command`. -/
structure Command where
  program : Bytes
  args : List Bytes
  overrides : List Bytes

namespace Command

/-- `Command::new`. -/
def new (program : Bytes) : Command := ⟨program, [], []⟩

/-- `Command::arg`. -/
def arg (self : Command) (arg : Bytes) : Command := { self with args := self.args ++ [arg] }

/-- The byte between a variable and its value. -/
def equals : UInt8 := 61

/-- `Command::env`. -/
def env (self : Command) (key value : Bytes) : Command :=
  { self with overrides := self.overrides ++ [key ++ equals :: value] }

/-- `candidates`. -/
def candidates (w : World) (program : Bytes) : List Bytes :=
  if slash ∈ program then [nulTerminated program]
  else (Env.splitPaths (w.path.getD [])).flatMap fun dir =>
    if dir = [] then []
    else [nulTerminated (dir ++ (if dir.getLast? = some slash then [] else [slash]) ++ program)]

/-- One turn of the loop of `Command::environment`. -/
def override (entries : List Bytes) (entry : Bytes) : List Bytes :=
  let keyEnd := (entry.findIdx? (· = equals)).elim entry.length (· + 1)
  let key := entry.take keyEnd
  (entries.filter fun e => !key.isPrefixOf e) ++ [entry]

/-- `Command::environment`. -/
def environment (w : World) (self : Command) : List Bytes :=
  (self.overrides.foldl override w.environ).map nulTerminated

end Command
end Ekostd
