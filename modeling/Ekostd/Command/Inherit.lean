/-
  The descriptors that a program inherits.

  `Command::spawn` closes nothing by hand, so what the process has open without
  close-on-exec is open in the program too.  A spawn is one step of the process:
  what other threads call does not fall between the calls of it.  (Off Linux, a
  pipe gets its flag only after it is made.)

  * `spawn_exec`: above 2 the program has what `exec` leaves of the descriptors
    of the process;
  * `history`: a process that opens files, sockets and pipes, and spawns, by the
    functions of this crate, with the function that has made each descriptor;
  * `inherits_standard_only`: a program has just its standard descriptors
    exactly if all others of the process are of pipes of commands;
  * `inherits_lock_and_socket`: a daemon's pid file and its socket, in a program.
-/
import Ekostd.Command.Spawn
import Ekostd.File.Open
import Ekostd.Lib.Sts

namespace Ekostd.Command

open PosixFs PosixName
open PosixFd hiding Proc

variable {w : World} {self : Command} {p q : Proc} {n : ℕ} {d : Desc Bytes}

/-! ## What `spawn` leaves open -/

theorem Pipe.new_adds {c : Call} {pipe : Pipe} (h : Pipe.new w c p = some (pipe, q)) :
    PosixFd.Proc.Adds p q := by
  have hmade := Pipe.new_eq_some h
  obtain ⟨wr, hwr, hwrite⟩ := hmade.write_fd
  have hread := hmade.read_fd
  have hread_free := hmade.read_free
  obtain ⟨hwrite_free, hrest⟩ : p.fd wr = none ∧
      ∀ n, n ≠ pipe.read → n ≠ wr → q.fd n = p.fd n := by
    unfold Pipe.new at h
    split at h
    · cases h
    · next r wr' s hs =>
      have hp := Proc.pipe_eq_some (World.call_eq_some hs)
      cases h
      cases hwr
      refine ⟨hp.write_free, fun n hr hw => ?_⟩
      split_ifs
      · exact hp.fd_of_ne n hr hw
      · rw [Proc.setCloexec_of_ne hw, Proc.setCloexec_of_ne hr]
        exact hp.fd_of_ne n hr hw
  refine ⟨hmade.grows.keeps, fun n d hn => ?_⟩
  by_cases hr : n = pipe.read
  · subst hr
    rw [hread] at hn
    cases hn
    exact .inr ⟨hread_free, rfl⟩
  · by_cases hw : n = wr
    · subst hw
      rw [hwrite] at hn
      cases hn
      exact .inr ⟨hwrite_free, rfl⟩
    · rw [hrest n hr hw] at hn
      exact .inl hn

theorem aboveStdio_adds {c : Call} {fd o : Option ℕ} (h : aboveStdio w c fd p = (o, q)) :
    PosixFd.Proc.Adds p q := by
  unfold aboveStdio at h
  split at h
  · cases h
    exact .refl p
  · split_ifs at h
    · cases h
      exact .refl p
    · split at h
      · cases h
        exact .refl p
      · next m s hs =>
        cases h
        obtain ⟨d, -, ha⟩ := Proc.dupfd_eq_some (World.call_eq_some hs)
        exact ha.adds rfl

/-- **Above 2 a child leaves everything as it is** until it becomes a program. -/
theorem childHalf_exec {tries : List Bytes} {out err : Pipe} {program : Program}
    (h : childHalf w self tries out err p = .running program) (hn : 2 < n) :
    program.fds.fd n = p.exec.fd n := by
  obtain ⟨outW, p₁, errW, p₂, null, p₃, p₄, p₅, p₆, h₁, h₂, h₃, h₄, h₅, h₆, hfds, -⟩ :=
    childHalf_running h
  have hadds := (aboveStdio_adds h₁).trans (aboveStdio_adds h₂)
  have hopen := Proc.openFile_eq_some h₃
  have hlast : p₆.fd n = (p₄.close null).fd n := by
    rw [Proc.dup2_of_ne h₆ (by omega), Proc.dup2_of_ne h₅ (by omega)]
  have hsame : p₆.fd n = p₂.fd n := by
    by_cases hnull : n = null
    · rw [hlast, hnull, Proc.close_self]
      exact hopen.free.symm
    · rw [hlast, Proc.close_of_ne hnull, Proc.dup2_of_ne h₄ (by omega), hopen.fd_of_ne hnull]
      rfl
  rw [hfds, ← hadds.exec_fd]
  show (p₆.fd n).filter _ = (p₂.fd n).filter _
  rw [hsame]

theorem Pipe.closeWrite_within {pipe : Pipe} (h : PosixFd.Proc.Within p q) :
    PosixFd.Proc.Within p (pipe.closeWrite q).2 := by
  unfold Pipe.closeWrite
  split
  · exact h
  · exact h.close _

theorem Pipe.drop_within {pipe : Pipe} (h : PosixFd.Proc.Within p q) :
    PosixFd.Proc.Within p (pipe.drop q) := by
  unfold Pipe.drop
  cases pipe.write with
  | none => exact h.close pipe.read
  | some wr => exact (h.close pipe.read).close wr

/-- **What `spawn` leaves in the process** beyond what was there closes on `exec`. -/
theorem spawn_within (w : World) (self : Command) (p : Proc) :
    PosixFd.Proc.Within p (self.spawn w p).2 := by
  unfold spawn
  split
  · exact (PosixFd.Proc.Adds.refl p).within
  · next out p₁ hout =>
    have ho := Pipe.new_adds hout
    split
    · exact Pipe.drop_within ho.within
    · next err p₂ herr =>
      have he := ho.trans (Pipe.new_adds herr)
      dsimp only
      split_ifs
      · exact Pipe.drop_within (Pipe.drop_within he.within)
      · split
        · exact Pipe.drop_within (Pipe.drop_within he.within)
        · exact Pipe.closeWrite_within (Pipe.closeWrite_within he.within)

/-- **Above 2 a program has what `exec` leaves** of the descriptors of the process. -/
theorem spawn_exec {c : Spawned} {program : Program} (h : c ∈ (self.spawn w p).1)
    (hr : c.ended = .running program) (hn : 2 < n) : program.fds.fd n = p.exec.fd n := by
  rcases hs : self.spawn w p with ⟨o, q⟩
  obtain rfl : o = some c := by rwa [hs] at h
  obtain ⟨out, p₁, err, p₂, pid, hout, herr, rfl, -⟩ := spawn_cases hs
  have hadds := (Pipe.new_adds hout).trans (Pipe.new_adds herr)
  rw [childHalf_exec hr hn, hadds.exec_fd]

/-! ## Histories of a process -/

/-- The functions that open a file: those of `File`, `write_pid_file` and
    `redirect_standard_streams`. -/
inductive Opening where
  | file (o : File.Opener)
  | pidFile
  | devNull
  deriving DecidableEq

/-- The flags that they open it with. -/
def Opening.flags : Opening → List OpenFlag
  | file o => o.flags
  | pidFile => [.O_WRONLY, .O_CREAT]
  | devNull => [.O_RDWR]

/-- The functions that make descriptors: `Listener::bind` and `Stream::connect`, `Listener::accept`,
    `Fd::duplicate`, `Signals::install`, `daemonize` for its readiness, and `Command::spawn`. -/
inductive Maker where
  | opening (o : Opening)
  | socket
  | accept
  | duplicate
  | install
  | ready
  | spawn
  deriving DecidableEq

/-- What a process does with its descriptors. -/
inductive Event where
  | opens (o : Opening) (path : Bytes)
  | socket (path : Bytes)
  | accept (listener : ℕ)
  | duplicate (fd : ℕ)
  | install (crossed : Bool)
  | ready (crossed : Bool)
  | redirect (devnull fd : ℕ)
  | close (fd : ℕ)
  | spawn (w : World) (command : Command)

/-- The descriptors of a process, and which function has made the one at a number. -/
structure History where
  table : Proc
  maker : ℕ → Maker

/-- A descriptor is made. -/
def History.made (s : History) (m : Maker) (r : Option (ℕ × Proc)) : Option History :=
  r.map fun (n, q) => ⟨q, Function.update s.maker n m⟩

/-- A pipe is made. -/
def History.piped (s : History) (m : Maker) (crossed : Bool) : Option History :=
  (s.table.pipe crossed false).map fun ((r, wr), q) =>
    ⟨q, Function.update (Function.update s.maker r m) wr m⟩

/-- One step of a process; a call that fails changes nothing, and is left out.  A socket that an
    `accept` answers has no path. -/
def History.step (s : History) : Event → Option History
  | .opens o path =>
    s.made (.opening o) (s.table.openFile path (decide (OpenFlag.O_CLOEXEC ∈ o.flags)))
  | .socket path => s.made .socket (s.table.openFile path false)
  | .accept listener =>
    if s.table.fd listener = none then none else s.made .accept (s.table.openFile [] false)
  | .duplicate fd => s.made .duplicate (PosixFd.Proc.dup s.table fd)
  | .install crossed => s.piped .install crossed
  | .ready crossed => s.piped .ready crossed
  | .redirect devnull fd =>
    if fd ≤ 2 then (PosixFd.Proc.dup2 s.table devnull fd).map fun q => { s with table := q }
    else none
  | .close fd => some { s with table := s.table.close fd }
  | .spawn w command =>
    some ⟨(command.spawn w s.table).2, fun n => if s.table.fd n = none then .spawn else s.maker n⟩

/-- A process that starts with the descriptors `start`. -/
def history (start : Proc) : Sts History Event where
  init := ⟨start, fun _ => .spawn⟩
  step := History.step

/-- Above 2 just what commands have made closes on `exec`. -/
def Known (s : History) : Prop :=
  ∀ n, 2 < n → ∀ d, s.table.fd n = some d → (d.cloexec = true ↔ s.maker n = .spawn)

variable {s s' : History}

theorem cloexec_notMem_flags (o : Opening) : OpenFlag.O_CLOEXEC ∉ o.flags := by
  rcases o with (_ | _ | _ | _ | _) | _ | _ <;> decide

theorem Known.made (h : Known s) {m : Maker} (hm : m ≠ .spawn) {k : ℕ} {f : File Bytes} {p q : Proc}
    (hq : Proc.Allocated k ⟨f, false⟩ n p q) (hp : p.fd = s.table.fd) :
    Known ⟨q, Function.update s.maker n m⟩ := by
  intro i hi e he
  by_cases hin : i = n
  · subst hin
    rw [hq.fd_self] at he
    cases he
    simp [hm]
  · rw [hq.fd_of_ne hin, hp] at he
    show e.cloexec = true ↔ Function.update s.maker n m i = .spawn
    rw [Function.update_of_ne hin]
    exact h i hi e he

theorem Known.piped (h : Known s) {m : Maker} (hm : m ≠ .spawn) {crossed : Bool}
    (hstep : s.piped m crossed = some s') : Known s' := by
  obtain ⟨⟨⟨r, wr⟩, q⟩, hpipe, rfl⟩ := Option.map_eq_some_iff.1 hstep
  have hp := Proc.pipe_eq_some hpipe
  intro i hi e he
  by_cases hw : i = wr
  · subst hw
    rw [hp.write] at he
    cases he
    simp [hm]
  · show e.cloexec = true ↔ Function.update (Function.update s.maker r m) wr m i = .spawn
    rw [Function.update_of_ne hw]
    by_cases hr : i = r
    · subst hr
      rw [hp.read] at he
      cases he
      simp [hm]
    · rw [hp.fd_of_ne i hr hw] at he
      rw [Function.update_of_ne hr]
      exact h i hi e he

/-- **Only what `spawn` makes closes on `exec`**: each step keeps it. -/
theorem Known.step {e : Event} (h : Known s) (hstep : s.step e = some s') : Known s' := by
  cases e with
  | opens o path =>
    obtain ⟨⟨n, q⟩, hopen, rfl⟩ := Option.map_eq_some_iff.1 hstep
    rw [decide_eq_false (cloexec_notMem_flags o)] at hopen
    exact h.made (by simp) (Proc.openFile_eq_some hopen) rfl
  | socket path =>
    obtain ⟨⟨n, q⟩, hopen, rfl⟩ := Option.map_eq_some_iff.1 hstep
    exact h.made (by simp) (Proc.openFile_eq_some hopen) rfl
  | accept listener =>
    simp only [History.step] at hstep
    split_ifs at hstep
    obtain ⟨⟨n, q⟩, hopen, rfl⟩ := Option.map_eq_some_iff.1 hstep
    exact h.made (by simp) (Proc.openFile_eq_some hopen) rfl
  | duplicate fd =>
    obtain ⟨⟨n, q⟩, hdup, rfl⟩ := Option.map_eq_some_iff.1 hstep
    obtain ⟨d, -, ha⟩ := Proc.dup_eq_some hdup
    exact h.made (by simp) ha rfl
  | install crossed => exact h.piped (by simp) hstep
  | ready crossed => exact h.piped (by simp) hstep
  | redirect devnull fd =>
    simp only [History.step] at hstep
    split_ifs at hstep with hfd
    obtain ⟨q, hdup, rfl⟩ := Option.map_eq_some_iff.1 hstep
    intro i hi e he
    rw [Proc.dup2_of_ne hdup (by omega)] at he
    exact h i hi e he
  | close fd =>
    cases hstep
    intro i hi e he
    by_cases hfd : i = fd
    · rw [hfd, Proc.close_self] at he
      cases he
    · rw [Proc.close_of_ne hfd] at he
      exact h i hi e he
  | spawn w command =>
    cases hstep
    intro i hi e he
    rcases spawn_within w command s.table i e he with hold | ⟨hfree, hcloexec⟩
    · simp only [hold, reduceCtorEq, if_false]
      exact h i hi e hold
    · simp [hfree, hcloexec]

theorem known_run {start : Proc} (hstart : ∀ n, 2 < n → start.fd n = none) {es : List Event}
    (hr : (history start).run es = some s) : Known s := by
  have hinv : (history start).Inductive Known := by
    constructor
    · intro n hn d hd
      cases (hstart n hn).symm.trans hd
    · intro s₁ e s₂ hs hstep
      exact hs.step hstep
  exact hinv.run hr

theorem Known.inherited (h : Known s) {c : Spawned} (hc : c ∈ (self.spawn w s.table).1)
    {program : Program} (hp : c.ended = .running program) (hn : 2 < n) :
    program.fds.fd n = if s.maker n = .spawn then none else s.table.fd n := by
  rw [spawn_exec hc hp hn]
  show (s.table.fd n).filter _ = _
  cases hfd : s.table.fd n with
  | none => simp
  | some d =>
    have hd := h n hn d hfd
    by_cases hm : s.maker n = .spawn
    · rw [if_pos hm]
      simp [hd.2 hm]
    · rw [if_neg hm]
      have hfalse : d.cloexec = false := by
        rw [← Bool.not_eq_true, hd]
        exact hm
      simp [hfalse]

/-- **A program inherits its standard descriptors and nothing else** exactly if every other
    descriptor of the process is of a pipe that `spawn` has made; any that is not is inherited.  No
    other thread makes a call within a spawn. -/
theorem inherits_standard_only {start : Proc} (hstart : ∀ n, 2 < n → start.fd n = none)
    {es : List Event} (hr : (history start).run es = some s) {c : Spawned}
    (hc : c ∈ (self.spawn w s.table).1) {program : Program} (hp : c.ended = .running program) :
    ((∀ n, program.fds.fd n ≠ none ↔ n ≤ 2) ↔
      ∀ n, 2 < n → s.table.fd n ≠ none → s.maker n = .spawn) ∧
    ∀ n, 2 < n → program.fds.fd n = if s.maker n = .spawn then none else s.table.fd n := by
  have hinst := (spawn_started hc).running program hp
  have habove : ∀ n, 2 < n →
      program.fds.fd n = if s.maker n = .spawn then none else s.table.fd n :=
    fun n hn => (known_run hstart hr).inherited hc hp hn
  refine ⟨⟨fun honly n hn hopen => ?_, fun hall n => ?_⟩, habove⟩
  · by_contra hm
    have hfd := habove n hn
    rw [if_neg hm] at hfd
    have hle := (honly n).1 (by rwa [hfd])
    omega
  · constructor
    · intro hopen
      by_contra hle
      have hn : 2 < n := Nat.not_le.1 hle
      have hfd := habove n hn
      by_cases hm : s.maker n = .spawn
      · rw [if_pos hm] at hfd
        exact hopen hfd
      · rw [if_neg hm] at hfd
        exact hm (hall n hn (by rwa [← hfd]))
    · intro hle
      have hcases : n = 0 ∨ n = 1 ∨ n = 2 := by omega
      rcases hcases with rfl | rfl | rfl
      · simp [hinst.stdin]
      · simp [hinst.stdout]
      · simp [hinst.stderr]

/-- A process with its standard descriptors. -/
def standard : Proc where
  fd n := if n ≤ 2 then some ⟨⟨n, .named devNull⟩, false⟩ else none
  limit := 16
  opened := 3
  known n d h := by
    split_ifs at h
    cases h
    exact Nat.lt_succ_of_le ‹_›

/-- A second command, while the pipes of the first are open. -/
theorem inherits_standard_only_second :
    ∃ s, (history standard).run [.spawn .calm (new [47, 97])] = some s ∧
      s.table.fd 3 ≠ none ∧ s.table.fd 5 ≠ none ∧
      ∃ c ∈ ((new [47, 98]).spawn .calm s.table).1, ∃ program, c.ended = .running program ∧
        ∀ n, program.fds.fd n ≠ none ↔ n ≤ 2 := by
  obtain ⟨s, hr, hthree, hfive, hmaker, hsome⟩ : ∃ s,
      (history standard).run [.spawn .calm (new [47, 97])] = some s ∧ s.table.fd 3 ≠ none ∧
      s.table.fd 5 ≠ none ∧ (∀ n, s.maker n = .spawn) ∧
      ∃ c ∈ ((new [47, 98]).spawn .calm s.table).1, ∃ program, c.ended = .running program :=
    ⟨_, rfl, by decide, by decide, fun n => ite_self _, _, rfl, _, rfl⟩
  obtain ⟨c, hc, program, hp⟩ := hsome
  have hstart : ∀ n, 2 < n → standard.fd n = none := fun n hn => if_neg (by omega)
  exact ⟨s, hr, hthree, hfive, c, hc, program, hp,
    (inherits_standard_only hstart hr hc hp).1.2 fun n _ _ => hmaker n⟩

/-- A file, the pid file of a daemon and its socket are open in a program that it spawns. -/
theorem inherits_lock_and_socket :
    let es : List Event := [.opens (.file .open_) [102], .opens .pidFile [112], .socket [115]]
    (∀ n, 2 < n → standard.fd n = none) ∧
    ∃ s, (history standard).run es = some s ∧
      ∃ c ∈ ((new [47, 97]).spawn .calm s.table).1, ∃ program, c.ended = .running program ∧
        program.fds.fd 3 = some ⟨⟨3, .named [102]⟩, false⟩ ∧
        program.fds.fd 4 = some ⟨⟨4, .named [112]⟩, false⟩ ∧
        program.fds.fd 5 = some ⟨⟨5, .named [115]⟩, false⟩ ∧
        ¬ ∀ n, program.fds.fd n ≠ none ↔ n ≤ 2 := by
  intro es
  refine ⟨fun n hn => if_neg (by omega), _, rfl, _, rfl, _, rfl, rfl, rfl, rfl, fun h => ?_⟩
  have hle := (h 3).1 (Option.some_ne_none _)
  omega

end Ekostd.Command
