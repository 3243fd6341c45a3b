/-
  `daemonize` — what the parent's exit says.

  * `Truthful`: the parent exits zero exactly if the daemon has signalled, and
    nonzero only after every write end is closed;
  * `State.undisturbed`: no signal interrupts the parent's `read`, it is not
    killed before the daemon signals, and the write end is not where the
    standard streams go;
  * `truthful`: so it is in every run whose steps meet this, and
    `disturbed` has a run for each of the three in which it is not.
-/
import Ekostd.Daemonize.Descriptors

namespace Ekostd.Daemonize

open PosixFs PosixFd

variable {start p q : Proc} {pidFile : Option Bytes} {writeFd n : ℕ} {s s' : State} {a : Act}

/-- Whether a process is running. -/
def State.status (s : State) : Role → Status
  | .original => s.original.status
  | .middle => s.middle.status
  | .daemon => s.daemon.status

/-- What the parent's exit says.

    * `zero`: it exits zero exactly if the daemon has called `signal`;
    * `nonzero`: if it exits nonzero, no byte is in the pipe, and none will be: no process has the
      write end;
    * `signals`: the daemon is not ended by its own call of `signal`;
    * `exits`: once the daemon has called it, the calls that the parent has left, if it runs on,
      lead to its exit with zero. -/
structure Truthful (start : Proc) (pidFile : Option Bytes) (s : State) : Prop where
  zero : ∀ code, s.original.status = .exited code → (code = 0 ↔ s.signalled = true)
  nonzero : ∀ code, s.original.status = .exited code → code ≠ 0 → s.bytes = 0 ∧
    ∀ r, s.status r = .running → ∀ n, fileAt (s.table r) n ≠ some (pipeEnd start .writeEnd)
  signals : s.daemon.status ≠ .sigpipe
  exits : s.signalled = true → s.original.status = .running →
    ∃ k s', (system start pidFile).runFrom s (List.replicate k (.original none)) = some s' ∧
      s'.original.status = .exited 0

/-- The next call does not put a standard stream where the write end is. -/
def Daemon.spares (writeFd : ℕ) : Daemon → Prop
  | .dup _ fd => fd ≠ writeFd
  | _ => True

instance : (pc : Daemon) → Decidable (pc.spares writeFd)
  | .dup _ fd => inferInstanceAs (Decidable (fd ≠ writeFd))
  | .chdir | .umask | .openPid _ | .flock _ | .closePid _ | .ftruncate | .writePid | .openNull
  | .closeNull _ | .started | .signalled | .dropped | .failed _ => .isTrue trivial

/-- The parent's `read` does not fail; the streams are not redirected over the write end; and the
    daemon signals a parent that has not been killed. -/
def State.undisturbed (s : State) : Act → Prop
  | .original (some _) => s.original.pc ≠ .read
  | .daemon none => s.daemon.pc.spares s.writeFd
  | .signal => s.original.status ≠ .ended
  | _ => True

instance (s : State) : (a : Act) → Decidable (s.undisturbed a)
  | .original (some _) => inferInstanceAs (Decidable (s.original.pc ≠ .read))
  | .daemon none => inferInstanceAs (Decidable (s.daemon.pc.spares s.writeFd))
  | .signal => inferInstanceAs (Decidable (s.original.status ≠ .ended))
  | .original none | .daemon (some _) | .pipe _ | .middle _ | .drop | .die _ => .isTrue trivial

/-! ## The write end -/

theorem HasWrite.of_close (h : HasWrite start writeFd (p.close n)) : HasWrite start writeFd p := by
  by_cases hn : writeFd = n
  · rw [HasWrite, hn, fileAt_close_self] at h
    cases h
  · exact (fileAt_close_of_ne hn).symm.trans h

theorem HasWrite.of_update (h : HasWrite start writeFd q) {d : Desc Bytes} {name : Bytes}
    (hfd : q.fd = Function.update p.fd n (some d)) (hd : d.file.kind = .named name) :
    HasWrite start writeFd p := by
  have hn : writeFd ≠ n := by
    rintro rfl
    rw [HasWrite, fileAt, hfd, Function.update_self] at h
    rw [show d.file = pipeEnd start .writeEnd from Option.some.inj h] at hd
    cases hd
  rwa [HasWrite, fileAt, hfd, Function.update_of_ne hn] at h

theorem HasNamed.ne (hn : HasNamed start n p) (h : HasWrite start writeFd p) : n ≠ writeFd := by
  rintro rfl
  obtain ⟨d, name, hfd, -, hkind⟩ := hn
  rw [HasWrite, fileAt, hfd] at h
  rw [show d.file = pipeEnd start .writeEnd from Option.some.inj h] at hkind
  cases hkind

theorem Daemon.Call.hasWrite {pc pc' : Daemon} {fault : Option Errno}
    (hc : Daemon.Call pidFile writeFd p pc fault pc' q) (hf : pc.Fits start writeFd p)
    (h : HasWrite start writeFd q) : HasWrite start writeFd p := by
  cases hc with
  | openPid path fd q ho | openNull devnull q ho =>
    exact h.of_update (p := p) (Proc.openFile_eq_some ho).fd rfl
  | dup devnull fd pc' q hd hpc =>
    rcases (HasNamed.dup2 hf hd).2 with rfl | ⟨d, name, hq, hkind, -⟩
    · exact h
    · exact h.of_update hq hkind
  | closePid | closeNull | signalled => exact h.of_close
  | _ => exact h

/-- Whether the daemon is between the opening of `/dev/null` and the end of `daemonize`. -/
def Daemon.redirecting : Daemon → Bool
  | .dup _ _ | .closeNull _ | .started => true
  | _ => false

theorem Daemon.Call.keeps {pc pc' : Daemon} {fault : Option Errno}
    (hc : Daemon.Call pidFile writeFd p pc fault pc' q) (hf : pc.Fits start writeFd p)
    (h : pc.redirecting = true → HasWrite start writeFd p)
    (hspares : fault = none → pc.spares writeFd)
    (hpc' : pc'.redirecting = true) : HasWrite start writeFd q := by
  cases hc with
  | openNull devnull q ho => exact (HasWrite.openFile hf ho).1
  | dup devnull fd pc' q hd hpc =>
    have hwrite := h rfl
    rcases (HasNamed.dup2 hf hd).2 with rfl | ⟨d, name, hq, hkind, -⟩
    · exact hwrite
    · rw [HasWrite, fileAt, hq, Function.update_of_ne (Ne.symm (hspares rfl))]
      exact hwrite
  | closeNull devnull e =>
    have hwrite := h rfl
    exact hwrite.close (HasNamed.ne hf hwrite)
  | umask e => cases pidFile <;> cases hpc'
  | _ => cases hpc'

/-! ## What the parent has been told -/

/-- What the parent knows, by where it is. -/
def Original.Told (start : Proc) (s : State) : Original → Prop
  | .pipe | .fork | .failed _ => s.bytes = 0 ∧ s.signalled = false
  | .closeWrite | .read => s.bytes = if s.signalled then 1 else 0
  | .closeRead code | .exit code =>
    if code = 0 then s.signalled = true
    else s.bytes = 0 ∧ s.signalled = false ∧ ¬s.holds start .writeEnd s.writeFd

/-- The invariant of the undisturbed runs. -/
structure ToldInv (start : Proc) (s : State) : Prop where
  tables : TableInv start s
  told : s.original.pc.Told start s
  status : s.original.status = .running ∨ s.original.status = .ended ∨
    ∃ code, s.original.status = .exited code ∧ s.original.pc = .exit code
  write : s.daemon.pc.redirecting = true → HasWrite start s.writeFd s.daemon.table
  once : s.signalled = true → s.daemon.pc = .signalled ∨ s.daemon.pc = .dropped
  sigpipe : s.daemon.status ≠ .sigpipe

theorem Original.Told.mono {pc : Original} (h : pc.Told start s) (hb : s'.bytes = s.bytes)
    (hs : s'.signalled = s.signalled)
    (hh : s'.holds start .writeEnd s'.writeFd → s.holds start .writeEnd s.writeFd) :
    pc.Told start s' := by
  cases pc with
  | closeRead code | exit code =>
    by_cases hcode : code = 0
    · rw [Told, if_pos hcode, hs]
      rwa [Told, if_pos hcode] at h
    · rw [Told, if_neg hcode, hb, hs]
      rw [Told, if_neg hcode] at h
      exact ⟨h.1, h.2.1, fun hholds => h.2.2 (hh hholds)⟩
  | _ =>
    simp only [Told, hb, hs]
    exact h

/-- When the daemon has the `Ready`, the parent is waiting, and there is nothing in the pipe. -/
theorem ToldInv.waiting (h : ToldInv start s) (hrun : s.daemon.status = .running)
    (hpc : s.daemon.pc = .started) :
    (s.original.pc = .closeWrite ∨ s.original.pc = .read) ∧ s.bytes = 0 ∧ s.signalled = false := by
  have hsignalled : s.signalled = false := by
    rw [← Bool.not_eq_true]
    intro hs
    rcases h.once hs with hpc' | hpc' <;> rw [hpc] at hpc' <;> cases hpc'
  have hholds : s.holds start .writeEnd s.writeFd :=
    .inr (.inr ⟨hrun, h.write (by rw [hpc]; rfl)⟩)
  have hexit := h.tables.exit_of_running hrun
  have htold := h.told
  cases horiginal : s.original.pc with
  | pipe | fork | failed e =>
    have hmiddle := h.tables.noMiddle (by rw [horiginal]; rfl)
    rw [hexit] at hmiddle
    cases hmiddle.2
  | closeWrite =>
    rw [horiginal, Original.Told, hsignalled] at htold
    exact ⟨.inl rfl, htold, hsignalled⟩
  | read =>
    rw [horiginal, Original.Told, hsignalled] at htold
    exact ⟨.inr rfl, htold, hsignalled⟩
  | closeRead code | exit code =>
    rw [horiginal, Original.Told] at htold
    split_ifs at htold
    · rw [hsignalled] at htold
      cases htold
    · exact absurd hholds htold.2.2

theorem ToldInv.reads (h : ToldInv start s)
    (hpc : s.original.pc = .closeWrite ∨ s.original.pc = .read)
    (hended : s.original.status ≠ .ended) : s.holds start .readEnd s.readFd := by
  have hfits := h.tables.original.2
  refine .inl ⟨?_, ?_⟩
  · rcases h.status with hrun | hend | ⟨code, -, hexit⟩
    · exact hrun
    · exact absurd hend hended
    · rcases hpc with hpc | hpc <;> rw [hpc] at hexit <;> cases hexit
  · rcases hpc with hpc | hpc
    · rw [hpc] at hfits
      exact hfits.2.2
    · rw [hpc] at hfits
      exact hfits

theorem ToldInv.daemon (h : ToldInv start s) {fault : Option Errno} {pc : Daemon}
    (htables : TableInv start { s with daemon := s.daemon.goto pc p })
    (hrun : s.daemon.status = .running)
    (hcall : Daemon.Call pidFile s.writeFd s.daemon.table s.daemon.pc fault pc p)
    (hspares : fault = none → s.daemon.pc.spares s.writeFd) :
    ToldInv start { s with daemon := s.daemon.goto pc p } := by
  have hfits := (h.tables.daemon_of_running hrun).2
  refine ⟨htables, h.told.mono rfl rfl ?_, h.status, hcall.keeps hfits h.write hspares, ?_,
    h.sigpipe⟩
  · exact Or.imp_right (Or.imp_right (And.imp_right (hcall.hasWrite hfits)))
  · intro hs
    rcases h.once hs with hpc | hpc
    · rw [hpc] at hcall
      cases hcall
      exact .inr rfl
    · rw [hpc] at hcall
      cases hcall

theorem ToldInv.signal (h : ToldInv start s)
    (htables : TableInv start
      { s with
        daemon := s.daemon.goto .signalled s.daemon.table
        bytes := s.bytes + 1
        signalled := true })
    (hrun : s.daemon.status = .running) (hpc : s.daemon.pc = .started) :
    ToldInv start
      { s with
        daemon := s.daemon.goto .signalled s.daemon.table
        bytes := s.bytes + 1
        signalled := true } := by
  obtain ⟨hwaiting, hbytes, -⟩ := h.waiting hrun hpc
  refine ⟨htables, ?_, h.status, nofun, fun _ => .inl rfl, h.sigpipe⟩
  show s.original.pc.Told start _
  rcases hwaiting with hw | hw
  · rw [hw, Original.Told]
    simp [hbytes]
  · rw [hw, Original.Told]
    simp [hbytes]

/-- **An undisturbed step** keeps what the parent has been told true. -/
theorem ToldInv.step (h : ToldInv start s) (hu : s.undisturbed a)
    (hstep : (system start pidFile).step s a = some s') : ToldInv start s' := by
  have htables := TableInv.inductive.step h.tables hstep
  have htold := h.told
  cases step_cases hstep with
  | pipeFails a e hrun hpc ha | forkFails e hrun hpc =>
    rw [hpc] at htold
    exact ⟨htables, htold, .inl hrun, h.write, h.once, h.sigpipe⟩
  | pipe crossed readFd writeFd p hrun hpc hpipe =>
    have hmiddle := h.tables.noMiddle (by rw [hpc]; rfl)
    have hdaemon := h.tables.noDaemon (by simp [hmiddle.2])
    rw [hpc] at htold
    refine ⟨htables, htold, .inl hrun, ?_, h.once, h.sigpipe⟩
    intro hredirecting
    simp [hdaemon.2, Daemon.redirecting] at hredirecting
  | fork hrun hpc =>
    rw [hpc] at htold
    refine ⟨htables, ?_, .inl hrun, h.write, h.once, h.sigpipe⟩
    show s.bytes = if s.signalled then 1 else 0
    rw [htold.1, htold.2]
    rfl
  | closeWrite e hrun hpc =>
    rw [hpc] at htold
    exact ⟨htables, htold, .inl hrun, h.write, h.once, h.sigpipe⟩
  | interrupted e hrun hpc => exact absurd hpc hu
  | byte hrun hpc hbytes =>
    rw [hpc, Original.Told] at htold
    refine ⟨htables, ?_, .inl hrun, h.write, h.once, h.sigpipe⟩
    show s.signalled = true
    by_contra hs
    rw [if_neg hs] at htold
    exact hbytes htold
  | closed hrun hpc hbytes hholds =>
    rw [hpc, Original.Told, hbytes] at htold
    refine ⟨htables, ⟨hbytes, ?_, hholds⟩, .inl hrun, h.write, h.once, h.sigpipe⟩
    show s.signalled = false
    rw [← Bool.not_eq_true]
    intro hs
    rw [if_pos hs] at htold
    cases htold
  | closeRead code e hrun hpc =>
    rw [hpc] at htold
    have hexit : (Original.exit code).Told start s := htold
    refine ⟨htables, hexit.mono rfl rfl ?_, .inl hrun, h.write, h.once, h.sigpipe⟩
    exact Or.imp_left (And.imp_right HasWrite.of_close)
  | exit code e hrun hpc =>
    refine ⟨htables, htold.mono rfl rfl ?_, .inr (.inr ⟨code, rfl, hpc⟩), h.write, h.once,
      h.sigpipe⟩
    exact Or.imp_left fun hholds => absurd hholds.1 (by simp)
  | middleCloseRead e hrun hpc | setsidFails e hrun hpc | setsid hrun hpc
  | middleForkFails e hrun hpc | middleExit e hrun hpc =>
    refine ⟨htables, htold.mono rfl rfl fun _ => ?_, h.status, h.write, h.once, h.sigpipe⟩
    exact .inr (.inl ⟨hrun, (h.tables.middle_of_running hrun).2.1⟩)
  | middleFork hrun hpc =>
    have hdaemon := h.tables.noDaemon (by simp [hpc])
    refine ⟨htables, htold.mono rfl rfl fun _ => ?_, h.status, nofun, ?_, nofun⟩
    · exact .inr (.inl ⟨hrun, (h.tables.middle_of_running hrun).2.1⟩)
    · intro hs
      rcases h.once hs with hpc' | hpc' <;> rw [hdaemon.2] at hpc' <;> cases hpc'
  | daemon fault pc p hrun hcall =>
    refine h.daemon htables hrun hcall ?_
    rintro rfl
    exact hu
  | signal hrun hpc hwrite hread => exact h.signal htables hrun hpc
  | sigpipe hrun hpc hread =>
    exact absurd (h.reads (h.waiting hrun hpc).1 hu) hread
  | signalElsewhere hrun hpc hwrite => exact absurd (h.write (by rw [hpc]; rfl)) hwrite
  | drop hrun hpc =>
    refine ⟨htables, htold.mono rfl rfl ?_, h.status, nofun, fun _ => .inr rfl, h.sigpipe⟩
    exact Or.imp_right (Or.imp_right (And.imp_right HasWrite.of_close))
  | dieOriginal hrun =>
    refine ⟨htables, htold.mono rfl rfl ?_, .inr (.inl rfl), h.write, h.once, h.sigpipe⟩
    exact Or.imp_left fun hholds => absurd hholds.1 (by simp)
  | dieMiddle hrun =>
    refine ⟨htables, htold.mono rfl rfl ?_, h.status, h.write, h.once, h.sigpipe⟩
    exact Or.imp_right (Or.imp_left fun hholds => absurd hholds.1 (by simp))
  | dieDaemon hrun =>
    refine ⟨htables, htold.mono rfl rfl ?_, h.status, h.write, h.once, nofun⟩
    exact Or.imp_right (Or.imp_right fun hholds => absurd hholds.1 (by simp))

/-! ## The exit -/

/-- Who has the write end has it at its number. -/
theorem TableInv.holds_of_fileAt (h : TableInv start s) {r : Role} (hrun : s.status r = .running)
    (hn : fileAt (s.table r) n = some (pipeEnd start .writeEnd)) :
    s.holds start .writeEnd s.writeFd := by
  cases r with
  | original =>
    obtain rfl := h.original.1.ends n hn
    exact .inl ⟨hrun, hn⟩
  | middle =>
    obtain rfl := (h.middle_of_running hrun).1.ends n hn
    exact .inr (.inl ⟨hrun, hn⟩)
  | daemon =>
    obtain rfl := (h.daemon_of_running hrun).1.ends n hn
    exact .inr (.inr ⟨hrun, hn⟩)

theorem ToldInv.pc_of_exited (h : ToldInv start s) {code : ℕ}
    (hs : s.original.status = .exited code) : s.original.pc = .exit code := by
  rcases h.status with hrun | hended | ⟨code', hs', hpc⟩
  · rw [hs] at hrun
    cases hrun
  · rw [hs] at hended
    cases hended
  · rw [hs] at hs'
    cases hs'
    exact hpc

theorem ToldInv.exits (h : ToldInv start s) (hs : s.signalled = true)
    (hrun : s.original.status = .running) :
    ∃ k s', (system start pidFile).runFrom s (List.replicate k (.original none)) = some s' ∧
      s'.original.status = .exited 0 := by
  have htold := h.told
  obtain ⟨⟨pc, status, table⟩, middle, daemon, readFd, writeFd, bytes, signalled⟩ := s
  obtain rfl : status = .running := hrun
  obtain rfl : signalled = true := hs
  cases pc with
  | pipe | fork | failed e => cases htold.2
  | closeWrite =>
    obtain rfl : bytes = 1 := htold
    exact ⟨4, _, rfl, rfl⟩
  | read =>
    obtain rfl : bytes = 1 := htold
    exact ⟨3, _, rfl, rfl⟩
  | closeRead code =>
    obtain rfl : code = 0 := by
      by_contra hcode
      rw [Original.Told, if_neg hcode] at htold
      cases htold.2.1
    exact ⟨2, _, rfl, rfl⟩
  | exit code =>
    obtain rfl : code = 0 := by
      by_contra hcode
      rw [Original.Told, if_neg hcode] at htold
      cases htold.2.1
    exact ⟨1, _, rfl, rfl⟩

theorem Truthful.of_told (h : ToldInv start s) : Truthful start pidFile s := by
  have htold := h.told
  refine ⟨?_, ?_, h.sigpipe, h.exits⟩
  · intro code hs
    rw [h.pc_of_exited hs, Original.Told] at htold
    split_ifs at htold with hcode
    · exact iff_of_true hcode htold
    · exact iff_of_false hcode (by simp [htold.2.1])
  · intro code hs hcode
    rw [h.pc_of_exited hs, Original.Told, if_neg hcode] at htold
    refine ⟨htold.1, ?_⟩
    intro r hrun n hn
    exact htold.2.2 (h.tables.holds_of_fileAt hrun hn)

/-- **Readiness is reported truthfully** in every run in which no signal interrupts the parent's
    `read`, the parent is not killed before the daemon signals, and the standard streams are not
    redirected over the write end. -/
theorem truthful {as : List Act} {s : State}
    (hu : (system start pidFile).Meets State.undisturbed as)
    (h : (system start pidFile).run as = some s) : Truthful start pidFile s := by
  have hinit : ToldInv start (system start pidFile).init :=
    ⟨TableInv.inductive.init, ⟨rfl, rfl⟩, .inl rfl, nofun, nofun, nofun⟩
  exact .of_told (Sts.run_of_meets hinit ToldInv.step hu h)

/-- The daemon signals, and the parent exits. -/
theorem truthful_signalled :
    ∃ s, (system terminal none).run
      [.pipe false, .original none, .original none, .middle none, .middle none, .middle none,
        .daemon none, .daemon none, .daemon none, .daemon none, .daemon none, .daemon none,
        .daemon none, .signal, .original none, .daemon none, .original none, .original none] =
          some s ∧
      s.original.status = .exited 0 ∧ s.daemon.pc = .dropped ∧ Truthful terminal none s := by
  obtain ⟨s, hs, horiginal, hdaemon⟩ : ∃ s, (system terminal none).run
      [.pipe false, .original none, .original none, .middle none, .middle none, .middle none,
        .daemon none, .daemon none, .daemon none, .daemon none, .daemon none, .daemon none,
        .daemon none, .signal, .original none, .daemon none, .original none, .original none] =
          some s ∧
      s.original.status = .exited 0 ∧ s.daemon.pc = .dropped :=
    ⟨_, rfl, rfl, rfl⟩
  exact ⟨s, hs, horiginal, hdaemon, truthful (Sts.MeetsFrom.meets (by decide)) hs⟩

/-- A process with its standard error only. -/
def errorOnly : Proc where
  fd n := if n = 2 then some ⟨⟨0, .named [116, 116, 121]⟩, false⟩ else none
  limit := 16
  opened := 1
  known n d h := by
    obtain ⟨-, hd⟩ := Option.ite_none_right_eq_some.1 h
    cases hd
    exact Nat.zero_lt_one

/-- A signal interrupts the parent's `read`; the parent is killed, and the daemon signals; and
    `/dev/null` becomes the standard output where the write end was. -/
theorem disturbed :
    (∃ s, (system terminal none).run
      [.pipe false, .original none, .original none, .original (some Errno.EINTR), .original none,
        .original none] = some s ∧
      s.original.status = .exited 1 ∧ s.middle.status = .running ∧ ¬Truthful terminal none s) ∧
    (∃ s, (system terminal none).run
      [.pipe false, .original none, .middle none, .middle none, .middle none, .daemon none,
        .daemon none, .daemon none, .daemon none, .daemon none, .daemon none, .daemon none,
        .die .original, .signal] = some s ∧
      s.daemon.status = .sigpipe ∧ ¬Truthful terminal none s) ∧
    ∃ s, (system errorOnly none).run
      [.pipe false, .original none, .original none, .middle none, .middle none, .middle none,
        .middle none, .daemon none, .daemon none, .daemon none, .daemon none, .daemon none,
        .daemon none, .original none, .original none, .original none, .signal] = some s ∧
      s.original.status = .exited 1 ∧ s.signalled = true ∧ ¬Truthful errorOnly none s := by
  refine ⟨⟨_, rfl, rfl, rfl, ?_⟩, ⟨_, rfl, rfl, ?_⟩, ⟨_, rfl, rfl, rfl, ?_⟩⟩
  · intro h
    exact (h.nonzero 1 rfl one_ne_zero).2 .middle rfl 4 rfl
  · intro h
    exact h.signals rfl
  · intro h
    exact one_ne_zero ((h.zero 1 rfl).2 rfl)

end Ekostd.Daemonize
