/-
  `Command` — the names that a child hands to `execve`.

  * `dirs`: what is put before the name of the program;
  * `execs`: the calls of `execve` of a child that gets to them;
  * `named_iff`: the kernel reads the program and the arguments as they were
    given, wherever the program is looked for, exactly if there is no NUL in
    any of them.

  The environment of the process is that of C, and so has no NUL in `PATH`.
-/
import Ekostd.Command.Spawn
import Ekostd.Lib.Pieces
import Ekostd.Lib.PosixName

namespace Ekostd.Command

open PosixFs PosixName

/-- What is put before the name of a program. -/
def dirs (w : World) (program : Bytes) : List Bytes :=
  if slash ∈ program then [[]]
  else (Env.splitPaths (w.path.getD [])).flatMap fun dir =>
    if dir = [] then [] else [dir ++ if dir.getLast? = some slash then [] else [slash]]

/-- The buffers of `argv`. -/
def argv (self : Command) : List Bytes := nulTerminated self.program :: self.args.map nulTerminated

/-- The calls of `execve` with the candidates from the `i`-th on. -/
def execsFrom (w : World) (argv : List Bytes) : ℕ → List Bytes → List Syscall
  | _, [] => []
  | i, path :: tries =>
    ⟨.execve, path :: argv⟩ ::
      if w.fails (.execve i) then execsFrom w argv (i + 1) tries else []

/-- The calls of `execve` of a child that gets to them. -/
def execs (w : World) (self : Command) : List Syscall :=
  execsFrom w self.argv 0 (candidates w self.program)

/-- Every call has read the program, in one of the places where it is looked for, and its name and
    its arguments as they were given. -/
def Named (w : World) (self : Command) : Prop :=
  ∀ c ∈ self.execs w, ∃ dir ∈ dirs w self.program,
    c.buffers.map cstr = (dir ++ self.program) :: self.program :: self.args

variable {w : World} {self : Command} {p : Proc}

theorem candidates_eq (w : World) (program : Bytes) :
    candidates w program = (dirs w program).map fun dir => nulTerminated (dir ++ program) := by
  unfold candidates dirs
  split_ifs
  · rfl
  · rw [List.map_flatMap]
    congr 1
    funext dir
    split_ifs <;> simp

theorem cstr_nulTerminated (p : Bytes) : cstr (nulTerminated p) = p ↔ 0 ∉ p := cstr_eq_iff []

theorem mem_execsFrom {argv tries : List Bytes} {i : ℕ} {c : Syscall}
    (h : c ∈ execsFrom w argv i tries) : ∃ path ∈ tries, c = ⟨.execve, path :: argv⟩ := by
  induction tries generalizing i with
  | nil => cases h
  | cons path tries ih =>
    rcases List.mem_cons.1 h with rfl | h
    · exact ⟨path, List.mem_cons_self, rfl⟩
    · split_ifs at h
      · obtain ⟨path', hmem, rfl⟩ := ih h
        exact ⟨path', List.mem_cons_of_mem path hmem, rfl⟩
      · cases h

theorem noNul_dirs (hw : ∀ v, w.path = some v → 0 ∉ v) {program dir : Bytes}
    (h : dir ∈ dirs w program) : 0 ∉ dir := by
  have hslash : (0 : UInt8) ≠ slash := by decide
  unfold dirs at h
  split_ifs at h
  · rw [List.mem_singleton.1 h]
    exact List.not_mem_nil
  · obtain ⟨d, hd, hdir⟩ := List.mem_flatMap.1 h
    have hnul : 0 ∉ d := by
      intro hmem
      cases hp : w.path with
      | none =>
        rw [hp] at hd
        simp [Env.splitPaths] at hd
      | some v =>
        rw [hp] at hd
        exact hw v hp (List.mem_of_mem_pieces hd hmem)
    split_ifs at hdir
    · cases hdir
    · rw [List.mem_singleton.1 hdir, List.append_nil]
      exact hnul
    · rw [List.mem_singleton.1 hdir]
      simp [hnul, hslash]

theorem map_cstr_args (args : List Bytes) :
    (args.map nulTerminated).map cstr = args ↔ ∀ a ∈ args, 0 ∉ a := by
  induction args with
  | nil => simp
  | cons a args ih =>
    rw [List.map_cons, List.map_cons, List.cons.injEq, ih, cstr_nulTerminated, List.forall_mem_cons]

/-- **The names of a command are read as they were given**, whatever `PATH` is and whichever
    candidate is there, exactly if there is no NUL in them. -/
theorem named_iff (self : Command) :
    (∀ w : World, (∀ v, w.path = some v → 0 ∉ v) → self.Named w) ↔
      0 ∉ self.program ∧ ∀ a ∈ self.args, 0 ∉ a := by
  constructor
  · intro h
    -- one place to look, so that there is a call
    let w : World := { World.calm with path := some [slash] }
    have hw : ∀ v, w.path = some v → 0 ∉ v := by
      rintro v ⟨⟩
      decide
    have hcall : ∃ path, ⟨.execve, path :: self.argv⟩ ∈ self.execs w := by
      unfold execs candidates
      split_ifs
      · exact ⟨_, List.mem_cons_self⟩
      · exact ⟨_, List.mem_cons_self⟩
    obtain ⟨path, hpath⟩ := hcall
    obtain ⟨dir, -, hread⟩ := h w hw _ hpath
    simp only [argv, List.map_cons, List.cons.injEq] at hread
    obtain ⟨-, hprogram, hargs⟩ := hread
    exact ⟨(cstr_nulTerminated _).1 hprogram, (map_cstr_args _).1 hargs⟩
  · rintro ⟨hprogram, hargs⟩ w hw c hc
    obtain ⟨path, hpath, rfl⟩ := mem_execsFrom hc
    rw [candidates_eq] at hpath
    obtain ⟨dir, hdir, rfl⟩ := List.mem_map.1 hpath
    refine ⟨dir, hdir, ?_⟩
    have hnul : 0 ∉ dir ++ self.program := by
      rw [List.mem_append, not_or]
      exact ⟨noNul_dirs hw hdir, hprogram⟩
    rw [argv, List.map_cons, List.map_cons, (cstr_nulTerminated _).2 hnul,
      (cstr_nulTerminated _).2 hprogram, (map_cstr_args _).2 hargs]

end Ekostd.Command
