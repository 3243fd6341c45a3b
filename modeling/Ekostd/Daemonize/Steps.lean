/-
  `daemonize` — what a step can do.

  * `Daemon.Call`: the calls of the daemon, and their failures;
  * `Step`: the steps of the three processes, and `step_cases`.
-/
import Ekostd.Daemonize.Model

namespace Ekostd.Daemonize

open PosixFs PosixFd

/-- The calls of the daemon, one constructor for each and for its failure. -/
inductive Daemon.Call (pidFile : Option Bytes) (writeFd : ℕ) (p : Proc) :
    Daemon → Option Errno → Daemon → Proc → Prop
  | chdirFails (e : Errno) : Call pidFile writeFd p .chdir (some e) (.failed (.chdir e)) p
  | chdir : Call pidFile writeFd p .chdir none .umask p
  | umask (e : Option Errno) : Call pidFile writeFd p .umask e (.pidFile pidFile) p
  | openPidFails (path : Bytes) (fault : Option Errno) (e : Errno) :
      fault ≠ none ∨ p.openFile path false = none →
      Call pidFile writeFd p (.openPid path) fault (.failed (.pidFile e)) p
  | openPid (path : Bytes) (fd : ℕ) (q : Proc) : p.openFile path false = some (fd, q) →
      Call pidFile writeFd p (.openPid path) none (.flock fd) q
  | refused (fd : ℕ) (e : Errno) : Call pidFile writeFd p (.flock fd) (some e) (.closePid fd) p
  | flock (fd : ℕ) : Call pidFile writeFd p (.flock fd) none .ftruncate p
  | closePid (fd : ℕ) (e : Option Errno) :
      Call pidFile writeFd p (.closePid fd) e (.failed .pidFileLocked) (p.close fd)
  | ftruncateFails (e : Errno) :
      Call pidFile writeFd p .ftruncate (some e) (.failed (.pidFile e)) p
  | ftruncate : Call pidFile writeFd p .ftruncate none .writePid p
  | writePidFails (e : Errno) : Call pidFile writeFd p .writePid (some e) (.failed (.pidFile e)) p
  | writePid : Call pidFile writeFd p .writePid none .openNull p
  | openNullFails (fault : Option Errno) (e : Errno) :
      fault ≠ none ∨ p.openFile devNull false = none →
      Call pidFile writeFd p .openNull fault (.failed (.devNull e)) p
  | openNull (devnull : ℕ) (q : Proc) : p.openFile devNull false = some (devnull, q) →
      Call pidFile writeFd p .openNull none (.dup devnull 0) q
  | dupFails (devnull fd : ℕ) (fault : Option Errno) (e : Errno) :
      fault ≠ none ∨ p.dup2 devnull fd = none →
      Call pidFile writeFd p (.dup devnull fd) fault (.failed (.devNull e)) p
  | dup (devnull fd : ℕ) (pc : Daemon) (q : Proc) : p.dup2 devnull fd = some q →
      pc = .dup devnull (fd + 1) ∨ pc = .closeNull devnull ∨ pc = .started →
      Call pidFile writeFd p (.dup devnull fd) none pc q
  | closeNull (devnull : ℕ) (e : Option Errno) :
      Call pidFile writeFd p (.closeNull devnull) e .started (p.close devnull)
  | signalled (e : Option Errno) : Call pidFile writeFd p .signalled e .dropped (p.close writeFd)

theorem Daemon.call_cases {pidFile : Option Bytes} {writeFd : ℕ} {p q : Proc} {pc pc' : Daemon}
    {fault : Option Errno} (h : pc.call pidFile writeFd p fault = some (pc', q)) :
    Call pidFile writeFd p pc fault pc' q := by
  cases pc with
  | chdir =>
    cases fault with
    | none => cases h; exact .chdir
    | some e => cases h; exact .chdirFails e
  | umask => cases h; exact .umask fault
  | openPid path =>
    cases fault with
    | some e => cases h; exact .openPidFails path _ e (.inl (by simp))
    | none =>
      simp only [call] at h
      split at h
      next hopen => cases h; exact .openPidFails path _ _ (.inr hopen)
      next fd q hopen => cases h; exact .openPid path fd _ hopen
  | flock fd =>
    cases fault with
    | none => cases h; exact .flock fd
    | some e => cases h; exact .refused fd e
  | closePid fd => cases h; exact .closePid fd fault
  | ftruncate =>
    cases fault with
    | none => cases h; exact .ftruncate
    | some e => cases h; exact .ftruncateFails e
  | writePid =>
    cases fault with
    | none => cases h; exact .writePid
    | some e => cases h; exact .writePidFails e
  | openNull =>
    cases fault with
    | some e => cases h; exact .openNullFails _ e (.inl (by simp))
    | none =>
      simp only [call] at h
      split at h
      next hopen => cases h; exact .openNullFails _ _ (.inr hopen)
      next devnull q hopen => cases h; exact .openNull devnull _ hopen
  | dup devnull fd =>
    cases fault with
    | some e => cases h; exact .dupFails devnull fd _ e (.inl (by simp))
    | none =>
      simp only [call] at h
      split at h
      next hdup => cases h; exact .dupFails devnull fd _ _ (.inr hdup)
      next q hdup =>
        cases h
        refine .dup devnull fd _ _ hdup ?_
        split_ifs
        · exact .inl rfl
        · exact .inr (.inl rfl)
        · exact .inr (.inr rfl)
  | closeNull devnull => cases h; exact .closeNull devnull fault
  | signalled => cases h; exact .signalled fault
  | started | dropped | failed e => cases h

/-- The steps, one constructor for each and for its failure. -/
inductive Step (start : Proc) (pidFile : Option Bytes) (s : State) : Act → State → Prop
  | pipeFails (a : Act) (e : Errno) : s.original.status = .running → s.original.pc = .pipe →
      a = .original (some e) ∨ (∃ crossed, a = .pipe crossed) →
      Step start pidFile s a
        { s with original := s.original.goto (.failed (.pipe e)) s.original.table }
  | pipe (crossed : Bool) (readFd writeFd : ℕ) (p : Proc) : s.original.status = .running →
      s.original.pc = .pipe → s.original.table.pipe crossed false = some ((readFd, writeFd), p) →
      Step start pidFile s (.pipe crossed)
        { s with original := s.original.goto .fork p, readFd := readFd, writeFd := writeFd }
  | forkFails (e : Errno) : s.original.status = .running → s.original.pc = .fork →
      Step start pidFile s (.original (some e))
        { s with original := s.original.goto (.failed (.fork e)) s.original.table }
  | fork : s.original.status = .running → s.original.pc = .fork →
      Step start pidFile s (.original none)
        { s with
          original := s.original.goto .closeWrite s.original.table
          middle := ⟨.closeRead, .running, s.original.table⟩ }
  | closeWrite (e : Option Errno) : s.original.status = .running → s.original.pc = .closeWrite →
      Step start pidFile s (.original e)
        { s with original := s.original.goto .read (s.original.table.close s.writeFd) }
  | interrupted (e : Errno) : s.original.status = .running → s.original.pc = .read →
      Step start pidFile s (.original (some e))
        { s with original := s.original.goto (.closeRead 1) s.original.table }
  | byte : s.original.status = .running → s.original.pc = .read → s.bytes ≠ 0 →
      Step start pidFile s (.original none)
        { s with
          original := s.original.goto (.closeRead 0) s.original.table
          bytes := s.bytes - 1 }
  | closed : s.original.status = .running → s.original.pc = .read → s.bytes = 0 →
      ¬s.holds start .writeEnd s.writeFd →
      Step start pidFile s (.original none)
        { s with original := s.original.goto (.closeRead 1) s.original.table }
  | closeRead (code : ℕ) (e : Option Errno) : s.original.status = .running →
      s.original.pc = .closeRead code →
      Step start pidFile s (.original e)
        { s with original := s.original.goto (.exit code) (s.original.table.close s.readFd) }
  | exit (code : ℕ) (e : Option Errno) : s.original.status = .running →
      s.original.pc = .exit code →
      Step start pidFile s (.original e)
        { s with original := { s.original with status := .exited code } }
  | middleCloseRead (e : Option Errno) : s.middle.status = .running → s.middle.pc = .closeRead →
      Step start pidFile s (.middle e)
        { s with middle := s.middle.goto .setsid (s.middle.table.close s.readFd) }
  | setsidFails (e : Errno) : s.middle.status = .running → s.middle.pc = .setsid →
      Step start pidFile s (.middle (some e))
        { s with middle := s.middle.goto (.failed (.setSid e)) s.middle.table }
  | setsid : s.middle.status = .running → s.middle.pc = .setsid →
      Step start pidFile s (.middle none)
        { s with middle := s.middle.goto .fork s.middle.table }
  | middleForkFails (e : Errno) : s.middle.status = .running → s.middle.pc = .fork →
      Step start pidFile s (.middle (some e))
        { s with middle := s.middle.goto (.failed (.fork e)) s.middle.table }
  | middleFork : s.middle.status = .running → s.middle.pc = .fork →
      Step start pidFile s (.middle none)
        { s with
          middle := s.middle.goto .exit s.middle.table
          daemon := ⟨.chdir, .running, s.middle.table⟩ }
  | middleExit (e : Option Errno) : s.middle.status = .running → s.middle.pc = .exit →
      Step start pidFile s (.middle e)
        { s with middle := { s.middle with status := .exited 0 } }
  | daemon (fault : Option Errno) (pc : Daemon) (p : Proc) : s.daemon.status = .running →
      Daemon.Call pidFile s.writeFd s.daemon.table s.daemon.pc fault pc p →
      Step start pidFile s (.daemon fault) { s with daemon := s.daemon.goto pc p }
  | signal : s.daemon.status = .running → s.daemon.pc = .started →
      fileAt s.daemon.table s.writeFd = some (pipeEnd start .writeEnd) →
      s.holds start .readEnd s.readFd →
      Step start pidFile s .signal
        { s with
          daemon := s.daemon.goto .signalled s.daemon.table
          bytes := s.bytes + 1
          signalled := true }
  | sigpipe : s.daemon.status = .running → s.daemon.pc = .started →
      ¬s.holds start .readEnd s.readFd →
      Step start pidFile s .signal
        { s with daemon := { s.daemon with status := .sigpipe }, signalled := true }
  | signalElsewhere : s.daemon.status = .running → s.daemon.pc = .started →
      fileAt s.daemon.table s.writeFd ≠ some (pipeEnd start .writeEnd) →
      Step start pidFile s .signal
        { s with daemon := s.daemon.goto .signalled s.daemon.table, signalled := true }
  | drop : s.daemon.status = .running → s.daemon.pc = .started →
      Step start pidFile s .drop
        { s with daemon := s.daemon.goto .dropped (s.daemon.table.close s.writeFd) }
  | dieOriginal : s.original.status = .running → Step start pidFile s (.die .original)
        { s with original := { s.original with status := .ended } }
  | dieMiddle : s.middle.status = .running → Step start pidFile s (.die .middle)
        { s with middle := { s.middle with status := .ended } }
  | dieDaemon : s.daemon.status = .running → Step start pidFile s (.die .daemon)
        { s with daemon := { s.daemon with status := .ended } }

variable {start : Proc} {pidFile : Option Bytes} {s s' : State} {a : Act}

theorem Process.die_eq_some {π : Type} {q q' : Process π} (h : q.die = some q') :
    q.status = .running ∧ q' = { q with status := .ended } := by
  obtain ⟨hrun, hq⟩ := Option.ite_none_right_eq_some.1 h
  exact ⟨hrun, (Option.some.inj hq).symm⟩

theorem callOriginal_cases {fault : Option Errno} (hrun : s.original.status = .running)
    (h : s.callOriginal start s.original.pc fault = some s') :
    Step start pidFile s (.original fault) s' := by
  cases hpc : s.original.pc with
  | pipe =>
    rw [hpc] at h
    cases fault with
    | none => cases h
    | some e => cases h; exact .pipeFails _ e hrun hpc (.inl rfl)
  | fork =>
    rw [hpc] at h
    cases fault with
    | none => cases h; exact .fork hrun hpc
    | some e => cases h; exact .forkFails e hrun hpc
  | closeWrite => rw [hpc] at h; cases h; exact .closeWrite fault hrun hpc
  | read =>
    rw [hpc] at h
    cases fault with
    | some e => cases h; exact .interrupted e hrun hpc
    | none =>
      simp only [State.callOriginal] at h
      split_ifs at h with hbytes hholds
      · cases h; exact .byte hrun hpc hbytes
      · cases h; exact .closed hrun hpc (not_not.1 hbytes) hholds
  | closeRead code => rw [hpc] at h; cases h; exact .closeRead code fault hrun hpc
  | exit code => rw [hpc] at h; cases h; exact .exit code fault hrun hpc
  | failed e => rw [hpc] at h; cases h

theorem callMiddle_cases {fault : Option Errno} (hrun : s.middle.status = .running)
    (h : s.callMiddle s.middle.pc fault = some s') : Step start pidFile s (.middle fault) s' := by
  cases hpc : s.middle.pc with
  | closeRead => rw [hpc] at h; cases h; exact .middleCloseRead fault hrun hpc
  | setsid =>
    rw [hpc] at h
    cases fault with
    | none => cases h; exact .setsid hrun hpc
    | some e => cases h; exact .setsidFails e hrun hpc
  | fork =>
    rw [hpc] at h
    cases fault with
    | none => cases h; exact .middleFork hrun hpc
    | some e => cases h; exact .middleForkFails e hrun hpc
  | exit => rw [hpc] at h; cases h; exact .middleExit fault hrun hpc
  | failed e => rw [hpc] at h; cases h

theorem step_cases (h : (system start pidFile).step s a = some s') : Step start pidFile s a s' := by
  cases a with
  | pipe crossed =>
    simp only [system, State.step] at h
    split_ifs at h with hpc
    split at h
    next hpipe => cases h; exact .pipeFails _ _ hpc.1 hpc.2 (.inr ⟨crossed, rfl⟩)
    next readFd writeFd p hpipe => cases h; exact .pipe crossed readFd writeFd p hpc.1 hpc.2 hpipe
  | original fault =>
    simp only [system, State.step, Option.ite_none_right_eq_some] at h
    exact callOriginal_cases h.1 h.2
  | middle fault =>
    simp only [system, State.step, Option.ite_none_right_eq_some] at h
    exact callMiddle_cases h.1 h.2
  | daemon fault =>
    simp only [system, State.step, Option.ite_none_right_eq_some, Option.map_eq_some_iff] at h
    obtain ⟨hrun, ⟨pc, p⟩, hcall, rfl⟩ := h
    exact .daemon fault pc p hrun (Daemon.call_cases hcall)
  | signal =>
    simp only [system, State.step, Option.ite_none_right_eq_some] at h
    obtain ⟨⟨hrun, hpc⟩, hs'⟩ := h
    simp only [State.signal] at hs'
    split_ifs at hs' with hwrite hread
    · cases hs'; exact .signal hrun hpc hwrite hread
    · cases hs'; exact .sigpipe hrun hpc hread
    · cases hs'; exact .signalElsewhere hrun hpc hwrite
  | drop =>
    simp only [system, State.step, Option.ite_none_right_eq_some] at h
    obtain ⟨⟨hrun, hpc⟩, hs'⟩ := h
    cases hs'
    exact .drop hrun hpc
  | die r =>
    cases r with
    | original =>
      obtain ⟨q, hq, rfl⟩ := Option.map_eq_some_iff.1 h
      obtain ⟨hrun, rfl⟩ := Process.die_eq_some hq
      exact .dieOriginal hrun
    | middle =>
      obtain ⟨q, hq, rfl⟩ := Option.map_eq_some_iff.1 h
      obtain ⟨hrun, rfl⟩ := Process.die_eq_some hq
      exact .dieMiddle hrun
    | daemon =>
      obtain ⟨q, hq, rfl⟩ := Option.map_eq_some_iff.1 h
      obtain ⟨hrun, rfl⟩ := Process.die_eq_some hq
      exact .dieDaemon hrun

end Ekostd.Daemonize
