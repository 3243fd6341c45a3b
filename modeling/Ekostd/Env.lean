/-
  `env.rs` — the arguments and the environment of the process.

  An array of C strings is a list of pointers, of which null ends it; a pointer
  is null or what is in memory from there on (`pointers`).

  * `environ`: the entries of the environment, read from such an array;
  * `args`: the arguments, read from `/proc/self/cmdline`, where each has a NUL
    byte behind it; `argsMacos`: the same from `argv`;
  * `args_given`: `args` returns the arguments exactly if none of them is empty.
-/
import Ekostd.Command.Basic
import Ekostd.File.Read

namespace Ekostd.Env

open PosixFs PosixRead List

/-- The loop of `environ` over the array. -/
def environ.loop : List (Option Bytes) → List Bytes
  | [] => []
  | none :: _ => []
  | some p :: envp => cstr p :: environ.loop envp

/-- `environ`. -/
def environ (envp : Option (List (Option Bytes))) : List Bytes :=
  match envp with
  | none => []
  | some envp => environ.loop envp

/-- The loop of `args` over `argv`, with how many are left. -/
def argsMacos.loop : ℕ → List (Option Bytes) → List Bytes
  | 0, _ => []
  | _, [] => []
  | _, none :: _ => []
  | n + 1, some p :: argv => cstr p :: argsMacos.loop n argv

/-- `args` on macOS. -/
def argsMacos (argc : ℕ) (argv : Option (List (Option Bytes))) : List Bytes :=
  match argv with
  | none => []
  | some argv => argsMacos.loop argc argv

/-- `/proc/self/cmdline`. -/
def cmdline : Bytes := "/proc/self/cmdline".toUTF8.toList

/-- `args` elsewhere. -/
def args (opened : Bytes → Except Errno (List Answer)) : List Bytes :=
  match File.read opened cmdline with
  | .ok raw => raw.pieces 0
  | .error _ => []

/-- The array of some C strings. -/
def pointers (entries : List Bytes) : List (Option Bytes) :=
  entries.map (some <| nulTerminated ·) ++ [none]

/-- `/proc/self/cmdline` is there with the arguments, each followed by a NUL byte, and is delivered
    in any way in which no read fails. -/
def Given (opened : Bytes → Except Errno (List Answer)) (given : List Bytes) : Prop :=
  ∃ fd, opened cmdline = .ok fd ∧ Delivers (64 * 1024) fd ∧ failing fd = [] ∧
    delivered fd = given.flatMap nulTerminated

variable {entries given : List Bytes} {opened : Bytes → Except Errno (List Answer)}

/-- **The environment is read as it is.** -/
theorem environ_pointers (h : ∀ e ∈ entries, 0 ∉ e) :
    environ (some (pointers entries)) = entries := by
  show environ.loop (pointers entries) = entries
  induction entries with
  | nil => rfl
  | cons e entries ih =>
    obtain ⟨he, h⟩ := forall_mem_cons.1 h
    have hread : cstr (nulTerminated e) = e := (cstr_eq_iff []).2 he
    rw [pointers, map_cons, cons_append, environ.loop, hread, ← pointers, ih h]

/-- **On macOS `args` returns the arguments.** -/
theorem argsMacos_pointers (h : ∀ a ∈ given, 0 ∉ a) :
    argsMacos given.length (some (pointers given)) = given := by
  show argsMacos.loop given.length (pointers given) = given
  induction given with
  | nil => rfl
  | cons a given ih =>
    obtain ⟨ha, h⟩ := forall_mem_cons.1 h
    have hread : cstr (nulTerminated a) = a := (cstr_eq_iff []).2 ha
    rw [pointers, map_cons, cons_append, length_cons, argsMacos.loop, hread, ← pointers, ih h]

theorem pieces_flatMap (h : ∀ a ∈ given, 0 ∉ a) :
    (given.flatMap nulTerminated).pieces 0 = given.filter (· ≠ []) := by
  induction given with
  | nil => simp
  | cons a given ih =>
    obtain ⟨ha, h⟩ := forall_mem_cons.1 h
    have hsplit : (a :: given).flatMap nulTerminated = a ++ 0 :: given.flatMap nulTerminated := by
      simp [nulTerminated]
    rw [hsplit, pieces_append, ih h]
    by_cases hne : a = []
    · simp [hne]
    · rw [pieces_of_notMem ha hne, filter_cons_of_pos (by simpa using hne)]
      rfl

/-- **What `args` returns**: the arguments that are not empty. -/
theorem args_eq (hnul : ∀ a ∈ given, 0 ∉ a) (h : Given opened given) :
    args opened = given.filter (· ≠ []) := by
  obtain ⟨fd, hopen, hfd, hfail, hdelivered⟩ := h
  have hpath : Path.kernel cmdline = cmdline := Path.kernel_of_notMem (by decide +kernel)
  have hread : File.read opened cmdline = .ok (delivered fd) :=
    File.read_eq (by rw [hpath, hopen]) hfd hfail
  simp only [args, hread, hdelivered, pieces_flatMap hnul]

/-- **When `args` returns the arguments**: exactly if none of them is empty. -/
theorem args_given (hnul : ∀ a ∈ given, 0 ∉ a) (h : Given opened given) :
    args opened = given ↔ [] ∉ given := by
  rw [args_eq hnul h, filter_eq_self]
  constructor
  · intro hall hmem
    exact absurd (hall [] hmem) (by simp)
  · intro hmem a ha
    simpa using fun hnil : a = [] => hmem (hnil ▸ ha)

/-- The arguments `a` and `b`, delivered in two reads with an interruption between. -/
theorem args_given_two :
    args (fun _ => .ok [.ok [97], .error Errno.EINTR, .ok [0, 98, 0]]) = [[97], [98]] ↔
      [] ∉ ([[97], [98]] : List Bytes) :=
  args_given (by decide) ⟨_, rfl, ⟨by simp, by simp⟩, rfl, rfl⟩

/-- **The arguments `a`, an empty one, and `b`**: there are two. -/
theorem args_loses_empty :
    Given (fun _ => .ok [.ok [97, 0, 0, 98, 0]]) [[97], [], [98]] ∧
    args (fun _ => .ok [.ok [97, 0, 0, 98, 0]]) = [[97], [98]] ∧
    ([[97], [98]] : List Bytes) ≠ [[97], [], [98]] := by
  have hgiven : Given (fun _ => .ok [.ok [97, 0, 0, 98, 0]]) [[97], [], [98]] :=
    ⟨_, rfl, ⟨by simp, by simp⟩, rfl, rfl⟩
  refine ⟨hgiven, ?_, by decide⟩
  rw [args_eq (by decide) hgiven]
  rfl

end Ekostd.Env
