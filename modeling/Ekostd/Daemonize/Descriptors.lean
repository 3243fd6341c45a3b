/-
  `daemonize` — what the three processes have open.

  * `TableInv`: who has which end of the pipe, and that the write end is
    nowhere but at its number; and the descriptor of `/dev/null`;
  * `TableInv.inductive`: kept by every step;
  * `released_iff`: a process in which `daemonize` has returned an error has
    nothing of it open exactly if no call that is checked has failed after the
    pipe was made.
-/
import Ekostd.Daemonize.Steps

namespace Ekostd.Daemonize

open PosixFs PosixFd

variable {start p q : Proc} {pidFile : Option Bytes} {readFd writeFd n m fd : ℕ} {s s' : State}
  {a : Act}

/-! ## Tables -/

/-- `daemonize` opened it: it was not there before. -/
def HasOpened (start p : Proc) : Prop := ∃ n d, p.fd n = some d ∧ start.opened ≤ d.file.id

/-- The write end of the pipe is at its number. -/
def HasWrite (start : Proc) (writeFd : ℕ) (p : Proc) : Prop :=
  fileAt p writeFd = some (pipeEnd start .writeEnd)

/-- Something that `daemonize` opened by a path is at a number. -/
def HasNamed (start : Proc) (n : ℕ) (p : Proc) : Prop :=
  ∃ d name, p.fd n = some d ∧ start.opened ≤ d.file.id ∧ d.file.kind = .named name

/-- What is so in every table: the write end of the pipe is at its number, if anywhere. -/
structure Table (start : Proc) (writeFd : ℕ) (p : Proc) : Prop where
  opened : start.opened ≤ p.opened
  ends : ∀ n, fileAt p n = some (pipeEnd start .writeEnd) → n = writeFd

theorem fileAt_close_of_ne (h : m ≠ n) : fileAt (p.close n) m = fileAt p m := by
  rw [fileAt, Proc.close_of_ne h, fileAt]

@[simp] theorem fileAt_close_self : fileAt (p.close n) n = none := by
  simp [fileAt, Proc.close]

theorem Table.of_start (start : Proc) (writeFd : ℕ) : Table start writeFd start := by
  refine ⟨le_rfl, ?_⟩
  intro n hn
  obtain ⟨d, hd, hfile⟩ := Option.map_eq_some_iff.1 hn
  have hlt := start.known n d hd
  rw [hfile] at hlt
  exact absurd hlt (Nat.lt_irrefl _)

theorem Table.close (h : Table start writeFd p) (n : ℕ) : Table start writeFd (p.close n) := by
  refine ⟨h.opened, ?_⟩
  intro m hm
  by_cases hmn : m = n
  · rw [hmn, fileAt_close_self] at hm
    cases hm
  · exact h.ends m ((fileAt_close_of_ne hmn).symm.trans hm)

theorem Table.update (h : Table start writeFd p) {d : Desc Bytes} {name : Bytes}
    (hfd : q.fd = Function.update p.fd n (some d)) (hd : d.file.kind = .named name)
    (hopened : p.opened ≤ q.opened) : Table start writeFd q := by
  refine ⟨h.opened.trans hopened, ?_⟩
  intro m hm
  by_cases hmn : m = n
  · rw [fileAt, hfd, hmn, Function.update_self] at hm
    have hfile : d.file = pipeEnd start .writeEnd := Option.some.inj hm
    rw [hfile] at hd
    cases hd
  · rw [fileAt, hfd, Function.update_of_ne hmn] at hm
    exact h.ends m hm

theorem Table.openFile (h : Table start writeFd p) {name : Bytes}
    (ho : p.openFile name false = some (n, q)) : Table start writeFd q := by
  have hq := Proc.openFile_eq_some ho
  refine h.update hq.fd rfl ?_
  rw [hq.opened]
  exact Nat.le_succ _

theorem HasWrite.close (h : HasWrite start writeFd p) (hn : n ≠ writeFd) :
    HasWrite start writeFd (p.close n) :=
  (fileAt_close_of_ne hn.symm).trans h

theorem HasWrite.openFile (h : HasWrite start writeFd p) {name : Bytes}
    (ho : p.openFile name false = some (n, q)) : HasWrite start writeFd q ∧ n ≠ writeFd := by
  have hq := Proc.openFile_eq_some ho
  obtain ⟨d, hd, hfile⟩ := Option.map_eq_some_iff.1 h
  constructor
  · rw [HasWrite, fileAt, hq.keeps (p := p.mint) hd, Option.map_some, hfile]
  · rintro rfl
    have hfree : p.fd n = none := hq.free
    rw [hd] at hfree
    cases hfree

theorem HasWrite.hasOpened (h : HasWrite start writeFd p) : HasOpened start p := by
  obtain ⟨d, hd, hfile⟩ := Option.map_eq_some_iff.1 h
  refine ⟨writeFd, d, hd, ?_⟩
  rw [hfile]
  exact le_rfl

theorem HasNamed.hasOpened (h : HasNamed start n p) : HasOpened start p := by
  obtain ⟨d, -, hd, hle, -⟩ := h
  exact ⟨n, d, hd, hle⟩

theorem Table.hasNamed_openFile (h : Table start writeFd p) {name : Bytes}
    (ho : p.openFile name false = some (n, q)) : HasNamed start n q :=
  ⟨_, name, (Proc.openFile_eq_some ho).fd_self, h.opened, rfl⟩

theorem HasNamed.dup2 (hn : HasNamed start n p) (hd : p.dup2 n m = some q) :
    HasNamed start n q ∧ (q = p ∨ ∃ d name, q.fd = Function.update p.fd m (some d) ∧
      d.file.kind = .named name ∧ q.opened = p.opened) := by
  obtain ⟨d, name, hfd, hle, hkind⟩ := hn
  by_cases hnm : n = m
  · subst hnm
    obtain rfl : q = p := by
      unfold Proc.dup2 at hd
      split at hd
      · cases hd
      · split_ifs at hd with hlimit hself
        · cases hd
          rfl
        · exact absurd rfl hself
    exact ⟨⟨d, name, hfd, hle, hkind⟩, .inl rfl⟩
  · obtain ⟨e, he, hq, hopened⟩ := Proc.dup2_eq_some hnm hd
    obtain rfl := Option.some.inj (hfd.symm.trans he)
    refine ⟨⟨d, name, ?_, hle, hkind⟩, .inr ⟨_, name, hq, hkind, hopened⟩⟩
    rw [hq, Function.update_of_ne hnm, hfd]

theorem Table.dup2 (h : Table start writeFd p) (hn : HasNamed start n p)
    (hd : p.dup2 n m = some q) : Table start writeFd q := by
  rcases (hn.dup2 hd).2 with rfl | ⟨d, name, hq, hkind, hopened⟩
  · exact h
  · exact h.update hq hkind hopened.ge

/-! ## The processes -/

/-- Whether the original has not forked. -/
def Original.alone : Original → Bool
  | .pipe | .fork | .failed _ => true
  | _ => false

/-- What the original has open. -/
def Original.Fits (start : Proc) (readFd writeFd : ℕ) (p : Proc) : Original → Prop
  | .pipe | .failed (.pipe _) => p = start
  | .fork | .closeWrite =>
    HasWrite start writeFd p ∧ readFd ≠ writeFd ∧ fileAt p readFd = some (pipeEnd start .readEnd)
  | .read => fileAt p readFd = some (pipeEnd start .readEnd)
  | .closeRead _ | .exit _ => True
  | .failed _ => HasOpened start p

/-- What the daemon has open. -/
def Daemon.Fits (start : Proc) (writeFd : ℕ) (p : Proc) : Daemon → Prop
  | .chdir | .umask | .openPid _ | .ftruncate | .writePid | .openNull => HasWrite start writeFd p
  | .flock fd | .closePid fd => HasWrite start writeFd p ∧ fd ≠ writeFd
  | .dup devnull _ | .closeNull devnull => HasNamed start devnull p
  | .started | .signalled | .dropped => True
  | .failed _ => HasOpened start p

theorem Original.Fits.of_pipe (h : Proc.Piped false readFd writeFd start p) :
    Table start writeFd p ∧ Original.fork.Fits start readFd writeFd p := by
  refine ⟨⟨by rw [h.opened]; exact Nat.le_succ _, ?_⟩, ?_, h.ne, ?_⟩
  · intro n hn
    by_cases hr : n = readFd
    · rw [fileAt, hr, h.read] at hn
      cases hn
    · by_cases hw : n = writeFd
      · exact hw
      · rw [fileAt, h.fd_of_ne n hr hw] at hn
        exact (Table.of_start start writeFd).ends n hn
  · rw [HasWrite, fileAt, h.write]
    rfl
  · rw [fileAt, h.read]
    rfl

/-- What the processes have open.  Until the first fork there is only the original, and until the
    second one no daemon. -/
structure TableInv (start : Proc) (s : State) : Prop where
  original : Table start s.writeFd s.original.table ∧
    s.original.pc.Fits start s.readFd s.writeFd s.original.table
  middle : s.middle.status = .unborn ∧ s.middle.pc = .closeRead ∨
    Table start s.writeFd s.middle.table ∧ HasWrite start s.writeFd s.middle.table ∧
      (s.middle.pc = .closeRead → s.readFd ≠ s.writeFd)
  daemon : s.daemon.status = .unborn ∧ s.daemon.pc = .chdir ∨
    Table start s.writeFd s.daemon.table ∧ s.daemon.pc.Fits start s.writeFd s.daemon.table
  noMiddle : s.original.pc.alone = true → s.middle.status = .unborn ∧ s.middle.pc = .closeRead
  noDaemon : s.middle.pc ≠ .exit → s.daemon.status = .unborn ∧ s.daemon.pc = .chdir

/-- **A call of the daemon** keeps what it has open. -/
theorem Daemon.Call.fits {pc pc' : Daemon} {fault : Option Errno}
    (hc : Daemon.Call pidFile writeFd p pc fault pc' q) (ht : Table start writeFd p)
    (h : pc.Fits start writeFd p) : Table start writeFd q ∧ pc'.Fits start writeFd q := by
  cases hc with
  | chdirFails e | ftruncateFails e | writePidFails e => exact ⟨ht, HasWrite.hasOpened h⟩
  | chdir | ftruncate | writePid => exact ⟨ht, h⟩
  | umask e =>
    refine ⟨ht, ?_⟩
    cases pidFile with
    | none => exact h
    | some path => exact h
  | openPidFails path fault e hfail => exact ⟨ht, HasWrite.hasOpened h⟩
  | openPid path fd q ho => exact ⟨ht.openFile ho, HasWrite.openFile h ho⟩
  | refused fd e => exact ⟨ht, h⟩
  | flock fd => exact ⟨ht, h.1⟩
  | closePid fd e => exact ⟨ht.close fd, (h.1.close h.2).hasOpened⟩
  | openNullFails fault e hfail => exact ⟨ht, HasWrite.hasOpened h⟩
  | openNull devnull q ho => exact ⟨ht.openFile ho, ht.hasNamed_openFile ho⟩
  | dupFails devnull fd fault e hfail => exact ⟨ht, HasNamed.hasOpened h⟩
  | dup devnull fd pc' q hd hpc =>
    have hnamed : HasNamed start devnull q := (HasNamed.dup2 h hd).1
    refine ⟨ht.dup2 h hd, ?_⟩
    rcases hpc with rfl | rfl | rfl
    · exact hnamed
    · exact hnamed
    · trivial
  | closeNull devnull e => exact ⟨ht.close devnull, trivial⟩
  | signalled e => exact ⟨ht.close writeFd, trivial⟩

theorem TableInv.middle_of_running (h : TableInv start s) (hrun : s.middle.status = .running) :
    Table start s.writeFd s.middle.table ∧ HasWrite start s.writeFd s.middle.table ∧
      (s.middle.pc = .closeRead → s.readFd ≠ s.writeFd) := by
  rcases h.middle with ⟨hunborn, -⟩ | hmiddle
  · rw [hrun] at hunborn
    cases hunborn
  · exact hmiddle

theorem TableInv.daemon_of_running (h : TableInv start s) (hrun : s.daemon.status = .running) :
    Table start s.writeFd s.daemon.table ∧ s.daemon.pc.Fits start s.writeFd s.daemon.table := by
  rcases h.daemon with ⟨hunborn, -⟩ | hdaemon
  · rw [hrun] at hunborn
    cases hunborn
  · exact hdaemon

theorem TableInv.not_noMiddle (h : TableInv start s) (hrun : s.middle.status = .running) {P : Prop}
    (hpc : s.original.pc.alone = true) : P := by
  rw [(h.noMiddle hpc).1] at hrun
  cases hrun

theorem TableInv.exit_of_running (h : TableInv start s) (hrun : s.daemon.status = .running) :
    s.middle.pc = .exit := by
  by_contra hpc
  rw [(h.noDaemon hpc).1] at hrun
  cases hrun

/-- **What the processes have open**: every step keeps it. -/
theorem TableInv.inductive : (system start pidFile).Inductive (TableInv start) where
  init := ⟨⟨.of_start start 0, rfl⟩, .inl ⟨rfl, rfl⟩, .inl ⟨rfl, rfl⟩, fun _ => ⟨rfl, rfl⟩,
    fun _ => ⟨rfl, rfl⟩⟩
  step {s a s'} h hstep := by
    obtain ⟨htable, hfits⟩ := h.original
    cases step_cases hstep with
    | pipeFails a e hrun hpc ha =>
      have hmiddle := h.noMiddle (by rw [hpc]; rfl)
      rw [hpc] at hfits
      exact ⟨⟨htable, hfits⟩, h.middle, h.daemon, fun _ => hmiddle, h.noDaemon⟩
    | pipe crossed readFd writeFd p hrun hpc hpipe =>
      rw [hpc] at hfits
      have heq : s.original.table = start := hfits
      rw [heq] at hpipe
      have hmiddle := h.noMiddle (by rw [hpc]; rfl)
      have hdaemon := h.noDaemon (by simp [hmiddle.2])
      exact ⟨Original.Fits.of_pipe (Proc.pipe_eq_some hpipe), .inl hmiddle, .inl hdaemon,
        fun _ => hmiddle, fun _ => hdaemon⟩
    | forkFails e hrun hpc =>
      have hmiddle := h.noMiddle (by rw [hpc]; rfl)
      rw [hpc] at hfits
      exact ⟨⟨htable, hfits.1.hasOpened⟩, h.middle, h.daemon, fun _ => hmiddle, h.noDaemon⟩
    | fork hrun hpc =>
      rw [hpc] at hfits
      have hmiddle := h.noMiddle (by rw [hpc]; rfl)
      have hdaemon := h.noDaemon (by simp [hmiddle.2])
      exact ⟨⟨htable, hfits⟩, .inr ⟨htable, hfits.1, fun _ => hfits.2.1⟩, h.daemon,
        by simp [Process.goto, Original.alone], fun _ => hdaemon⟩
    | closeWrite e hrun hpc =>
      rw [hpc] at hfits
      exact ⟨⟨htable.close _, (fileAt_close_of_ne hfits.2.1).trans hfits.2.2⟩, h.middle, h.daemon,
        by simp [Process.goto, Original.alone], h.noDaemon⟩
    | interrupted e hrun hpc | byte hrun hpc hbytes | closed hrun hpc hbytes hholds =>
      exact ⟨⟨htable, trivial⟩, h.middle, h.daemon, by simp [Process.goto, Original.alone],
        h.noDaemon⟩
    | closeRead code e hrun hpc =>
      exact ⟨⟨htable.close _, trivial⟩, h.middle, h.daemon,
        by simp [Process.goto, Original.alone], h.noDaemon⟩
    | exit code e hrun hpc =>
      exact ⟨⟨htable, hfits⟩, h.middle, h.daemon, h.noMiddle, h.noDaemon⟩
    | middleCloseRead e hrun hpc =>
      obtain ⟨htable', hwrite, hne⟩ := h.middle_of_running hrun
      have hdaemon := h.noDaemon (by simp [hpc])
      exact ⟨h.original, .inr ⟨htable'.close _, hwrite.close (hne hpc), by simp [Process.goto]⟩,
        h.daemon, h.not_noMiddle hrun, fun _ => hdaemon⟩
    | setsidFails e hrun hpc | setsid hrun hpc | middleForkFails e hrun hpc =>
      obtain ⟨htable', hwrite, -⟩ := h.middle_of_running hrun
      have hdaemon := h.noDaemon (by simp [hpc])
      exact ⟨h.original, .inr ⟨htable', hwrite, by simp [Process.goto]⟩, h.daemon,
        h.not_noMiddle hrun, fun _ => hdaemon⟩
    | middleFork hrun hpc =>
      obtain ⟨htable', hwrite, -⟩ := h.middle_of_running hrun
      exact ⟨h.original, .inr ⟨htable', hwrite, by simp [Process.goto]⟩, .inr ⟨htable', hwrite⟩,
        h.not_noMiddle hrun, by simp [Process.goto]⟩
    | middleExit e hrun hpc =>
      exact ⟨h.original, .inr (h.middle_of_running hrun), h.daemon, h.not_noMiddle hrun,
        h.noDaemon⟩
    | daemon fault pc p hrun hcall =>
      obtain ⟨htable', hfits'⟩ := h.daemon_of_running hrun
      exact ⟨h.original, h.middle, .inr (hcall.fits htable' hfits'), h.noMiddle,
        fun hpc => absurd (h.exit_of_running hrun) hpc⟩
    | signal hrun hpc hwrite hread | signalElsewhere hrun hpc hwrite =>
      obtain ⟨htable', -⟩ := h.daemon_of_running hrun
      exact ⟨h.original, h.middle, .inr ⟨htable', trivial⟩, h.noMiddle,
        fun hpc => absurd (h.exit_of_running hrun) hpc⟩
    | sigpipe hrun hpc hread =>
      exact ⟨h.original, h.middle, .inr (h.daemon_of_running hrun), h.noMiddle,
        fun hpc => absurd (h.exit_of_running hrun) hpc⟩
    | drop hrun hpc =>
      obtain ⟨htable', -⟩ := h.daemon_of_running hrun
      exact ⟨h.original, h.middle, .inr ⟨htable'.close _, trivial⟩, h.noMiddle,
        fun hpc => absurd (h.exit_of_running hrun) hpc⟩
    | dieOriginal hrun => exact ⟨⟨htable, hfits⟩, h.middle, h.daemon, h.noMiddle, h.noDaemon⟩
    | dieMiddle hrun =>
      exact ⟨h.original, .inr (h.middle_of_running hrun), h.daemon, h.not_noMiddle hrun,
        h.noDaemon⟩
    | dieDaemon hrun =>
      exact ⟨h.original, h.middle, .inr (h.daemon_of_running hrun), h.noMiddle,
        fun hpc => absurd (h.exit_of_running hrun) hpc⟩

/-! ## When `daemonize` returns an error -/

/-- The error that `daemonize` has returned in a process. -/
def State.failed (s : State) : Role → Option DaemonizeError
  | .original => match s.original.pc with
    | .failed e => some e
    | _ => none
  | .middle => match s.middle.pc with
    | .failed e => some e
    | _ => none
  | .daemon => match s.daemon.pc with
    | .failed e => some e
    | _ => none

/-- The descriptors of a process. -/
def State.table (s : State) : Role → Proc
  | .original => s.original.table
  | .middle => s.middle.table
  | .daemon => s.daemon.table

/-- Where `daemonize` has returned an error, nothing that it opened is open. -/
def Released (start : Proc) (s : State) : Prop :=
  ∀ r e, s.failed r = some e → ∀ n d, (s.table r).fd n = some d → d.file.id < start.opened

/-- A fork of the original fails. -/
def Original.fails : Original → Option Errno → Prop
  | .fork, e => e ≠ none
  | _, _ => False

/-- `setsid` or the second fork fails. -/
def Middle.fails : Middle → Option Errno → Prop
  | .setsid, e | .fork, e => e ≠ none
  | _, _ => False

/-- A call of the daemon fails.  That the lock is refused counts when the pid file is closed. -/
def Daemon.fails (p : Proc) : Daemon → Option Errno → Prop
  | .chdir, e | .ftruncate, e | .writePid, e => e ≠ none
  | .openPid path, e => e ≠ none ∨ p.openFile path false = none
  | .closePid _, _ => True
  | .openNull, e => e ≠ none ∨ p.openFile devNull false = none
  | .dup devnull fd, e => e ≠ none ∨ p.dup2 devnull fd = none
  | _, _ => False

/-- A call that `daemonize` checks fails, after the pipe was made. -/
def State.fails (s : State) : Act → Prop
  | .original e => s.original.pc.fails e
  | .middle e => s.middle.pc.fails e
  | .daemon e => s.daemon.pc.fails s.daemon.table e
  | _ => False

/-- Only the `pipe` has failed. -/
def Unfailed (s : State) : Prop :=
  ∀ r e, s.failed r = some e → r = .original ∧ ∃ e', e = .pipe e'

theorem HasOpened.not_released (h : HasOpened start p) :
    ¬∀ n d, p.fd n = some d → d.file.id < start.opened := by
  obtain ⟨n, d, hd, hle⟩ := h
  intro hlt
  exact absurd (hlt n d hd) (Nat.not_lt.2 hle)

/-- Where something has failed after the pipe was made, something is open. -/
theorem TableInv.hasOpened (h : TableInv start s) {r : Role} {e : DaemonizeError}
    (hf : s.failed r = some e) :
    HasOpened start (s.table r) ∨ (r = .original ∧ ∃ e', e = .pipe e') ∧ s.table r = start := by
  cases r with
  | original =>
    cases hpc : s.original.pc with
    | failed e' =>
      have hfits := h.original.2
      rw [hpc] at hfits
      obtain rfl : e' = e := by simpa [State.failed, hpc] using hf
      cases e' with
      | pipe n => exact .inr ⟨⟨rfl, n, rfl⟩, hfits⟩
      | _ => exact .inl hfits
    | _ => simp [State.failed, hpc] at hf
  | middle =>
    rcases h.middle with ⟨-, hpc⟩ | ⟨-, hwrite, -⟩
    · simp [State.failed, hpc] at hf
    · exact .inl hwrite.hasOpened
  | daemon =>
    rcases h.daemon with ⟨-, hpc⟩ | ⟨-, hfits⟩
    · simp [State.failed, hpc] at hf
    · cases hpc : s.daemon.pc with
      | failed e' =>
        rw [hpc] at hfits
        exact .inl hfits
      | _ => simp [State.failed, hpc] at hf

theorem TableInv.released_iff_unfailed (h : TableInv start s) :
    Released start s ↔ Unfailed s := by
  constructor
  · intro hr r e hf
    rcases h.hasOpened hf with hopened | ⟨he, -⟩
    · exact absurd (hr r e hf) hopened.not_released
    · exact he
  · intro hu r e hf n d hd
    obtain ⟨rfl, e', rfl⟩ := hu r e hf
    cases hpc : s.original.pc with
    | failed e =>
      have hfits := h.original.2
      obtain rfl : e = .pipe e' := by simpa [State.failed, hpc] using hf
      rw [hpc] at hfits
      have heq : s.original.table = start := hfits
      exact start.known n d (heq ▸ hd)
    | _ => simp [State.failed, hpc] at hf

theorem Daemon.Call.failed {pc pc' : Daemon} {fault : Option Errno}
    (hc : Daemon.Call pidFile writeFd p pc fault pc' q) :
    (pc.fails p fault ∧ ∃ e, pc' = .failed e) ∨
      (¬pc.fails p fault ∧ (∀ e, pc ≠ .failed e) ∧ ∀ e, pc' ≠ .failed e) := by
  cases hc with
  | chdirFails e | ftruncateFails e | writePidFails e => exact .inl ⟨by simp [fails], _, rfl⟩
  | openPidFails path fault e hfail => exact .inl ⟨hfail, _, rfl⟩
  | openNullFails fault e hfail => exact .inl ⟨hfail, _, rfl⟩
  | dupFails devnull fd fault e hfail => exact .inl ⟨hfail, _, rfl⟩
  | closePid fd e => exact .inl ⟨trivial, _, rfl⟩
  | umask e =>
    refine .inr ⟨not_false, by simp, ?_⟩
    intro e
    cases pidFile <;> simp [pidFile]
  | openPid path fd q ho | openNull devnull q ho =>
    exact .inr ⟨by simp [fails, ho], by simp, by simp⟩
  | dup devnull fd pc' q hd hpc =>
    refine .inr ⟨by simp [fails, hd], by simp, ?_⟩
    intro e
    rcases hpc with rfl | rfl | rfl <;> simp
  | chdir | ftruncate | writePid | refused fd e | flock fd | closeNull devnull e | signalled e =>
    exact .inr ⟨by simp [fails], by simp, by simp⟩

theorem unfailed_congr (h : ∀ r, s'.failed r = s.failed r) (hf : ¬s.fails a) :
    Unfailed s' ↔ Unfailed s ∧ ¬s.fails a := by
  simp only [Unfailed, h, hf, not_false_eq_true, and_true]

theorem unfailed_of_fails {r : Role} {e : DaemonizeError} (h : s'.failed r = some e)
    (hne : r = .original → ∀ e', e ≠ .pipe e') (hf : s.fails a) :
    Unfailed s' ↔ Unfailed s ∧ ¬s.fails a := by
  refine iff_of_false ?_ fun hs => hs.2 hf
  intro hu
  obtain ⟨hr, e', he⟩ := hu r e h
  exact hne hr e' he

theorem unfailed_pipe (hpc : s.original.pc = .pipe) (e : Errno) :
    Unfailed { s with original := s.original.goto (.failed (.pipe e)) s.original.table } ↔
      Unfailed s := by
  constructor
  · intro hu r e' hr
    refine hu r e' ?_
    cases r with
    | original => simp [State.failed, hpc] at hr
    | _ => exact hr
  · intro hu r e' hr
    cases r with
    | original => exact ⟨rfl, e, (Option.some.inj hr).symm⟩
    | middle => exact hu .middle e' hr
    | daemon => exact hu .daemon e' hr

theorem State.failed_daemon_of_ne (h : ∀ e, s.daemon.pc ≠ .failed e) : s.failed .daemon = none := by
  cases hpc : s.daemon.pc with
  | failed e => exact absurd hpc (h e)
  | _ => simp only [failed, hpc]

/-- **A step** makes `daemonize` fail after the pipe was made exactly when a call fails. -/
theorem unfailed_step (hi : TableInv start s) (h : (system start pidFile).step s a = some s') :
    Unfailed s' ↔ Unfailed s ∧ ¬s.fails a := by
  cases step_cases h with
  | pipeFails a e hrun hpc ha =>
    refine (unfailed_pipe hpc e).trans (and_iff_left ?_).symm
    rcases ha with rfl | ⟨crossed, rfl⟩
    · simp [State.fails, hpc, Original.fails]
    · exact not_false
  | forkFails e hrun hpc =>
    refine unfailed_of_fails (r := .original) rfl (by simp) ?_
    simp [State.fails, hpc, Original.fails]
  | pipe crossed readFd writeFd p hrun hpc hpipe =>
    refine unfailed_congr ?_ not_false
    intro r
    cases r <;> simp [State.failed, Process.goto, hpc]
  | fork hrun hpc =>
    have hmiddle := (hi.noMiddle (by rw [hpc]; rfl)).2
    refine unfailed_congr ?_ (by simp [State.fails, hpc, Original.fails])
    intro r
    cases r <;> simp [State.failed, Process.goto, hpc, hmiddle]
  | closeWrite e hrun hpc | interrupted e hrun hpc | byte hrun hpc hbytes
  | closed hrun hpc hbytes hholds | closeRead code e hrun hpc | exit code e hrun hpc =>
    refine unfailed_congr ?_ (by simp [State.fails, hpc, Original.fails])
    intro r
    cases r <;> simp [State.failed, Process.goto, hpc]
  | setsidFails e hrun hpc | middleForkFails e hrun hpc =>
    exact unfailed_of_fails (r := .middle) rfl (by simp) (by simp [State.fails, hpc, Middle.fails])
  | middleFork hrun hpc =>
    have hdaemon := (hi.noDaemon (by simp [hpc])).2
    refine unfailed_congr ?_ (by simp [State.fails, hpc, Middle.fails])
    intro r
    cases r <;> simp [State.failed, Process.goto, hpc, hdaemon]
  | middleCloseRead e hrun hpc | setsid hrun hpc | middleExit e hrun hpc =>
    refine unfailed_congr ?_ (by simp [State.fails, hpc, Middle.fails])
    intro r
    cases r <;> simp [State.failed, Process.goto, hpc]
  | daemon fault pc p hrun hcall =>
    rcases hcall.failed with ⟨hf, e, rfl⟩ | ⟨hf, hpc, hpc'⟩
    · exact unfailed_of_fails (r := .daemon) rfl (by simp) hf
    · refine unfailed_congr ?_ hf
      intro r
      cases r with
      | daemon =>
        rw [State.failed_daemon_of_ne hpc, State.failed_daemon_of_ne hpc']
      | _ => rfl
  | signal hrun hpc hwrite hread | sigpipe hrun hpc hread | signalElsewhere hrun hpc hwrite
  | drop hrun hpc =>
    refine unfailed_congr ?_ not_false
    intro r
    cases r <;> simp [State.failed, Process.goto, hpc]
  | dieOriginal hrun | dieMiddle hrun | dieDaemon hrun =>
    refine unfailed_congr ?_ not_false
    intro r
    cases r <;> rfl

/-- **When an error leaves nothing open**: at the end of a run nothing that `daemonize` opened is
    open where it has returned an error, exactly if no call that it checks has failed in the run
    after the pipe was made. -/
theorem released_iff {as : List Act} {s : State} (h : (system start pidFile).run as = some s) :
    Released start s ↔ (system start pidFile).Meets (fun s a => ¬s.fails a) as := by
  rw [(TableInv.inductive.run h).released_iff_unfailed]
  refine Sts.iff_meets TableInv.inductive ?_ unfailed_step h
  intro r e hr
  cases r <;> cases hr

/-- A process with its three standard streams. -/
def terminal : Proc where
  fd n := if n < 3 then some ⟨⟨n, .named [116, 116, 121]⟩, false⟩ else none
  limit := 16
  opened := 3
  known n d h := by
    obtain ⟨hn, hd⟩ := Option.ite_none_right_eq_some.1 h
    cases hd
    exact hn

/-- A run in which the daemon is started. -/
theorem released_started :
    ∃ s, (system terminal none).run
      [.pipe false, .original none, .middle none, .middle none, .middle none, .daemon none,
        .daemon none, .daemon none, .daemon none, .daemon none, .daemon none, .daemon none] =
          some s ∧
      s.daemon.pc = .started ∧
      (system terminal none).Meets (fun s a => ¬s.fails a)
        [.pipe false, .original none, .middle none, .middle none, .middle none, .daemon none,
          .daemon none, .daemon none, .daemon none, .daemon none, .daemon none, .daemon none] := by
  obtain ⟨s, hs, hpc, hfailed⟩ : ∃ s, (system terminal none).run
      [.pipe false, .original none, .middle none, .middle none, .middle none, .daemon none,
        .daemon none, .daemon none, .daemon none, .daemon none, .daemon none, .daemon none] =
          some s ∧
      s.daemon.pc = .started ∧ ∀ r, s.failed r = none :=
    ⟨_, rfl, rfl, by rintro (_ | _ | _) <;> rfl⟩
  refine ⟨s, hs, hpc, (released_iff hs).1 ?_⟩
  intro r e hr
  rw [hfailed r] at hr
  cases hr

/-- `setsid` fails: the first child has the write end, and the original waits for it. -/
theorem setsid_leaks :
    ∃ s, (system terminal none).run
      [.pipe false, .original none, .original none, .middle none, .middle (some Errno.EPERM)] =
        some s ∧
      s.failed .middle = some (.setSid Errno.EPERM) ∧ ¬Released terminal s ∧
      s.original.pc = .read ∧ (system terminal none).step s (.original none) = none := by
  refine ⟨_, rfl, rfl, ?_, rfl, rfl⟩
  intro hr
  exact absurd (hr .middle _ rfl 4 _ rfl) (by decide)

end Ekostd.Daemonize
