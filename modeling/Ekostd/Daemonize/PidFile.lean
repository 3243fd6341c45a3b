/-
  `daemonize.rs` — `write_pid_file`, by any number of processes on one path.

  Every system call is a step and may fail; a process may die before any of
  them.  The lock belongs to the open file description, which each process has
  one of and never duplicates, so it is held by a process and ends with it.

  * `State.step`, `system`: the processes, the file, and who holds its lock;
  * `Inv`: who is past `flock` holds the lock, and the file is as its last call
    has left it;
  * `owned`: one live process at most was answered `Ok`, and the file has its
    pid; who does not hold the lock changes nothing; and when all who opened
    the file are dead, the next process gets it.
-/
import Ekostd.Daemonize.FormatPid
import Ekostd.Lib.Sts

namespace Ekostd.Daemonize

open PosixFs

/-- `DaemonizeError`. -/
inductive DaemonizeError where
  | pipe (e : Errno)
  | fork (e : Errno)
  | setSid (e : Errno)
  | chdir (e : Errno)
  | devNull (e : Errno)
  | pidFileLocked
  | pidFile (e : Errno)
  deriving DecidableEq

namespace PidFile

/-- The next call of `write_pid_file`, or what it has returned. -/
inductive Pc where
  | open
  | flock
  | close
  | ftruncate
  | write
  | returned (r : Except DaemonizeError Unit)
  deriving DecidableEq

variable {ι : Type*} [DecidableEq ι]

/-- The file, if it exists, the process that holds its lock, and the processes: their calls, which
    are alive, and which have ever opened the file. -/
structure State (ι : Type*) where
  file : Option Bytes
  lock : Option ι
  pc : ι → Pc
  alive : ι → Bool
  opened : ι → Bool

/-- A process makes its next call, which may fail, or dies. -/
inductive Act (ι : Type*) where
  | step (t : ι) (fault : Option Errno)
  | die (t : ι)
  deriving DecidableEq

/-- What is in the file. -/
def State.contents (s : State ι) : Bytes := s.file.getD []

/-- The process `t` goes on at `p`. -/
def State.goto (s : State ι) (t : ι) (p : Pc) : State ι := { s with pc := Function.update s.pc t p }

/-- The next call of the process `t`. -/
def State.call (pid : ι → Int32) (s : State ι) (t : ι) : Pc → Option Errno → Option (State ι)
  | .open, some e => some (s.goto t (.returned (.error (.pidFile e))))
  | .open, none =>
    some ({ s with file := some s.contents, opened := Function.update s.opened t true }.goto t
      .flock)
  | .flock, none =>
    if s.lock = none then some ({ s with lock := some t }.goto t .ftruncate)
    else some (s.goto t .close)
  | .flock, some _ => some (s.goto t .close)
  | .close, _ => some (s.goto t (.returned (.error .pidFileLocked)))
  | .ftruncate, some e => some (s.goto t (.returned (.error (.pidFile e))))
  | .ftruncate, none => some ({ s with file := some [] }.goto t .write)
  | .write, some e => some (s.goto t (.returned (.error (.pidFile e))))
  | .write, none =>
    -- At the beginning of the file, over what is there.
    (formatPid (pid t)).map fun text =>
      { s with file := some (text ++ s.contents.drop text.length) }.goto t (.returned (.ok ()))
  | .returned _, _ => none

/-- One step; the lock of a process is released when it dies. -/
def State.step (pid : ι → Int32) (s : State ι) : Act ι → Option (State ι)
  | .step t fault => if s.alive t then s.call pid t (s.pc t) fault else none
  | .die t =>
    if s.alive t then
      some { s with
        alive := Function.update s.alive t false,
        lock := if s.lock = some t then none else s.lock }
    else none

/-- The processes `ι`, which are about to call `write_pid_file` on a file that may exist. -/
def system (pid : ι → Int32) (file : Option Bytes) : Sts (State ι) (Act ι) where
  init := ⟨file, none, fun _ => .open, fun _ => true, fun _ => false⟩
  step := State.step pid

/-! ## Who holds the lock -/

/-- Past `flock`, and not failed since. -/
def Pc.holds : Pc → Bool
  | ftruncate | write | returned (.ok _) => true
  | _ => false

/-- What the last call of a process with the pid `n` has left in the file. -/
def Pc.leaves (n : ℕ) : Pc → Option Bytes
  | write => some []
  | returned (.ok _) => some (decimal n)
  | _ => none

/-- The text of a process's pid. -/
def pidText (pid : ι → Int32) (t : ι) : Bytes := decimal (pid t).toInt.toNat

/-- The invariant: who is at `flock` has opened the file; the lock is held by a live process that
    has; who is past `flock` holds it; and the file is as the last call of such a process has left
    it. -/
structure Inv (pid : ι → Int32) (s : State ι) : Prop where
  opened : ∀ t, s.pc t = .flock → s.opened t = true
  lock : ∀ t, s.lock = some t → s.alive t = true ∧ s.opened t = true
  holds : ∀ t, s.alive t = true → (s.pc t).holds = true → s.lock = some t
  leaves : ∀ t b, s.alive t = true → (s.pc t).leaves (pid t).toInt.toNat = some b →
    s.file = some b

variable {pid : ι → Int32} {file : Option Bytes} {s s' : State ι} {t : ι}

theorem Pc.holds_of_leaves {p : Pc} {n : ℕ} {b : Bytes} (h : p.leaves n = some b) :
    p.holds = true := by
  unfold leaves at h
  split at h
  · rfl
  · rfl
  · cases h

/-- A process goes on without the lock, and leaves the file alone. -/
theorem Inv.goto (h : Inv pid s) {p : Pc} (hp : p.holds = false)
    (hflock : p = .flock → s.opened t = true) : Inv pid (s.goto t p) := by
  refine ⟨?_, h.lock, ?_, ?_⟩
  · intro u hu
    by_cases hut : u = t
    · subst hut
      exact hflock (by simpa [State.goto] using hu)
    · exact h.opened u (by simpa [State.goto, hut] using hu)
  · intro u ha hu
    by_cases hut : u = t
    · simp [State.goto, hut, hp] at hu
    · exact h.holds u ha (by simpa [State.goto, hut] using hu)
  · intro u b ha hu
    by_cases hut : u = t
    · subst hut
      have hholds := Pc.holds_of_leaves hu
      simp [State.goto, hp] at hholds
    · exact h.leaves u b ha (by simpa [State.goto, hut] using hu)

/-- A process goes on with the lock, after a call that has changed the file. -/
theorem Inv.goto_holding (h : Inv pid s) {p : Pc} {b : Bytes} (ha : s.alive t = true)
    (ht : (s.pc t).holds = true) (hp : p.leaves (pid t).toInt.toNat = some b) :
    Inv pid ({ s with file := some b }.goto t p) := by
  have hlock := h.holds t ha ht
  refine ⟨?_, h.lock, ?_, ?_⟩
  · intro u hu
    by_cases hut : u = t
    · subst hut
      have hflock : p = .flock := by simpa [State.goto] using hu
      simp [hflock, Pc.leaves] at hp
    · exact h.opened u (by simpa [State.goto, hut] using hu)
  · intro u hu hholds
    by_cases hut : u = t
    · subst hut
      exact hlock
    · exact h.holds u hu (by simpa [State.goto, hut] using hholds)
  · intro u c hu hleaves
    by_cases hut : u = t
    · subst hut
      simp only [State.goto, Function.update_self, hp] at hleaves
      rw [← hleaves]
      rfl
    · -- Nobody else holds the lock.
      have hleaves' : (s.pc u).leaves (pid u).toInt.toNat = some c := by
        simpa [State.goto, hut] using hleaves
      have hlock' := h.holds u hu (Pc.holds_of_leaves hleaves')
      exact absurd (Option.some.inj (hlock'.symm.trans hlock)) hut

theorem Inv.open (h : Inv pid s) (t : ι) :
    Inv pid { s with file := some s.contents, opened := Function.update s.opened t true } := by
  have hopened : ∀ u, s.opened u = true → Function.update s.opened t true u = true := by
    intro u hu
    by_cases hut : u = t
    · rw [hut, Function.update_self]
    · rw [Function.update_of_ne hut, hu]
  refine ⟨fun u hu => hopened u (h.opened u hu), ?_, h.holds, ?_⟩
  · intro u hu
    exact ⟨(h.lock u hu).1, hopened u (h.lock u hu).2⟩
  · intro u b ha hu
    have hfile := h.leaves u b ha hu
    show some s.contents = some b
    rw [State.contents, hfile, Option.getD_some]

theorem Inv.flock (h : Inv pid s) (ha : s.alive t = true) (ho : s.opened t = true)
    (hfree : s.lock = none) : Inv pid ({ s with lock := some t }.goto t .ftruncate) := by
  have hnobody : ∀ u, s.alive u = true → (s.pc u).holds = false := by
    intro u hu
    by_contra hholds
    have hlock := h.holds u hu (eq_true_of_ne_false hholds)
    rw [hfree] at hlock
    cases hlock
  refine ⟨?_, ?_, ?_, ?_⟩
  · intro u hu
    by_cases hut : u = t
    · rw [hut]
      exact ho
    · exact h.opened u (by simpa [State.goto, hut] using hu)
  · intro u hu
    obtain rfl : t = u := Option.some.inj hu
    exact ⟨ha, ho⟩
  · intro u hu hholds
    by_cases hut : u = t
    · rw [hut]
      rfl
    · have hnot := hnobody u hu
      simp [State.goto, hut, hnot] at hholds
  · intro u b hu hleaves
    by_cases hut : u = t
    · simp [State.goto, hut, Pc.leaves] at hleaves
    · have hholds := Pc.holds_of_leaves (p := s.pc u) (by simpa [State.goto, hut] using hleaves)
      rw [hnobody u hu] at hholds
      cases hholds

theorem Inv.die (h : Inv pid s) (t : ι) :
    Inv pid { s with
      alive := Function.update s.alive t false,
      lock := if s.lock = some t then none else s.lock } := by
  have halive : ∀ u, Function.update s.alive t false u = true → u ≠ t ∧ s.alive u = true := by
    intro u hu
    by_cases hut : u = t
    · simp [hut] at hu
    · exact ⟨hut, by simpa [hut] using hu⟩
  refine ⟨h.opened, ?_, ?_, ?_⟩
  · intro u hu
    show Function.update s.alive t false u = true ∧ s.opened u = true
    dsimp only at hu
    split_ifs at hu with hlock
    have hut : u ≠ t := by
      rintro rfl
      exact hlock hu
    rw [Function.update_of_ne hut]
    exact h.lock u hu
  · intro u hu hholds
    obtain ⟨hut, ha⟩ := halive u hu
    have hlock := h.holds u ha hholds
    show (if s.lock = some t then none else s.lock) = some u
    rw [if_neg fun heq => hut (Option.some.inj (hlock.symm.trans heq)), hlock]
  · intro u b hu hleaves
    exact h.leaves u b (halive u hu).2 hleaves

/-- **One call** of a live process. -/
theorem Inv.call (h : Inv pid s) (ha : s.alive t = true) {fault : Option Errno}
    (hcall : s.call pid t (s.pc t) fault = some s') : Inv pid s' := by
  cases hpc : s.pc t with
  | «open» =>
    rw [hpc] at hcall
    cases fault with
    | some e =>
      cases hcall
      exact h.goto rfl (by simp)
    | none =>
      cases hcall
      exact (h.open t).goto rfl fun _ => Function.update_self t true s.opened
  | flock =>
    rw [hpc] at hcall
    cases fault with
    | some e =>
      cases hcall
      exact h.goto rfl (by simp)
    | none =>
      simp only [State.call] at hcall
      split_ifs at hcall with hfree
      · cases hcall
        exact h.flock ha (h.opened t hpc) hfree
      · cases hcall
        exact h.goto rfl (by simp)
  | close =>
    rw [hpc] at hcall
    cases fault <;> cases hcall <;> exact h.goto rfl (by simp)
  | ftruncate =>
    rw [hpc] at hcall
    cases fault with
    | some e =>
      cases hcall
      exact h.goto rfl (by simp)
    | none =>
      cases hcall
      exact h.goto_holding ha (by rw [hpc]; rfl) rfl
  | write =>
    rw [hpc] at hcall
    cases fault with
    | some e =>
      cases hcall
      exact h.goto rfl (by simp)
    | none =>
      have hempty : s.contents = [] := by
        rw [State.contents, h.leaves t [] ha (by rw [hpc]; rfl), Option.getD_some]
      simp only [State.call, formatPid_eq, Option.map_some, hempty, List.drop_nil,
        List.append_nil] at hcall
      cases hcall
      exact h.goto_holding ha (by rw [hpc]; rfl) rfl
  | returned r =>
    rw [hpc] at hcall
    cases fault <;> cases hcall

theorem Inv.inductive : (system pid file).Inductive (Inv pid) where
  init := ⟨by simp [system], by simp [system], by simp [system, Pc.holds],
    by simp [system, Pc.leaves]⟩
  step {s a s'} h hstep := by
    cases a with
    | step t fault =>
      simp only [system, State.step, Option.ite_none_right_eq_some] at hstep
      exact h.call hstep.1 hstep.2
    | die t =>
      simp only [system, State.step, Option.ite_none_right_eq_some] at hstep
      rw [← Option.some.inj hstep.2]
      exact h.die t

/-! ## Who owns the file -/

/-- What `write_pid_file` has answered `Ok` in. -/
def State.ok (s : State ι) (t : ι) : Prop := s.alive t = true ∧ s.pc t = .returned (.ok ())

/-- **Who does not hold the lock changes nothing.** -/
theorem Inv.contents_step (h : Inv pid s) (ht : s.lock ≠ some t) {fault : Option Errno}
    (hstep : s.step pid (.step t fault) = some s') : s'.contents = s.contents := by
  simp only [State.step, Option.ite_none_right_eq_some] at hstep
  obtain ⟨ha, hcall⟩ := hstep
  have hholds : (s.pc t).holds = false := by
    by_contra hholds
    exact ht (h.holds t ha (eq_true_of_ne_false hholds))
  cases hpc : s.pc t with
  | «open» | close =>
    rw [hpc] at hcall
    cases fault <;> cases hcall <;> rfl
  | flock =>
    rw [hpc] at hcall
    cases fault with
    | some e =>
      cases hcall
      rfl
    | none =>
      simp only [State.call] at hcall
      split_ifs at hcall <;> cases hcall <;> rfl
  | ftruncate | write =>
    rw [hpc] at hholds
    cases hholds
  | returned r =>
    rw [hpc] at hcall
    cases fault <;> cases hcall

theorem contents_die (hstep : s.step pid (.die t) = some s') : s'.contents = s.contents := by
  simp only [State.step, Option.ite_none_right_eq_some] at hstep
  rw [← Option.some.inj hstep.2]
  rfl

/-- **The next process gets the file**, when all who have opened it are dead. -/
theorem Inv.next (h : Inv pid s) (hdead : ∀ u, s.opened u = true → s.alive u = false)
    (ha : s.alive t = true) (hpc : s.pc t = .open) :
    ∃ s', (system pid file).runFrom s (List.replicate 4 (.step t none)) = some s' ∧ s'.ok t := by
  have hfree : s.lock = none := by
    cases hlock : s.lock with
    | none => rfl
    | some u =>
      obtain ⟨halive, hopened⟩ := h.lock u hlock
      rw [hdead u hopened] at halive
      cases halive
  simp [Sts.runFrom, system, State.step, State.call, State.goto, State.ok, ha, hpc, hfree,
    formatPid_eq]

/-- The file is owned by one live process at most, and by the next one when there is none. -/
structure Owned (pid : ι → Int32) (file : Option Bytes) (s : State ι) : Prop where
  /-- One process at most. -/
  one : ∀ t u, s.ok t → s.ok u → t = u
  /-- The file is its pid, as `format_pid` produces it: in decimal, without leading zeros. -/
  contents : ∀ t, s.ok t → s.file = formatPid (pid t) ∧ formatPid (pid t) = some (pidText pid t) ∧
    ((pid t).toInt.toNat ≠ 0 → (pidText pid t).head? ≠ some 48)
  /-- A process that is refused changes nothing. -/
  refused : ∀ t fault s', s.lock ≠ some t →
    (system pid file).step s (.step t fault) = some s' → s'.contents = s.contents
  /-- A process that dies changes nothing. -/
  died : ∀ t s', (system pid file).step s (.die t) = some s' → s'.contents = s.contents
  /-- When all who have opened the file are dead, the next process gets it. -/
  next : ∀ t, (∀ u, s.opened u = true → s.alive u = false) → s.alive t = true →
    s.pc t = .open →
    ∃ s', (system pid file).runFrom s (List.replicate 4 (.step t none)) = some s' ∧ s'.ok t

/-- **The pid file is owned**, whatever is in it at first and however the calls interleave. -/
theorem owned {as : List (Act ι)} (hrun : (system pid file).run as = some s) :
    Owned pid file s := by
  have h := Inv.inductive.run hrun
  have hlock : ∀ t, s.ok t → s.lock = some t := by
    rintro t ⟨ha, hpc⟩
    exact h.holds t ha (by rw [hpc]; rfl)
  refine ⟨?_, ?_, fun t fault s' ht => h.contents_step ht,
    fun t s' => @contents_die _ _ pid s s' t,
    fun t hdead ha hpc => h.next hdead ha hpc⟩
  · intro t u ht hu
    exact Option.some.inj ((hlock t ht).symm.trans (hlock u hu))
  · rintro t ⟨ha, hpc⟩
    have hfile := h.leaves t (pidText pid t) ha (by rw [hpc]; rfl)
    rw [hfile, formatPid_eq]
    exact ⟨rfl, rfl, decimal_head⟩

/-- A second process is refused by the first, over a longer stale file. -/
theorem owned_two : ∃ s, (system (fun t : Fin 2 => if t = 0 then 42 else 7)
      (some [57, 57, 57, 57, 10])).run
    [.step 0 none, .step 1 none, .step 0 none, .step 1 none, .step 0 none, .step 0 none,
      .step 1 none] = some s ∧ s.file = formatPid 42 := by
  obtain ⟨s, hs, hok⟩ : ∃ s, (system (fun t : Fin 2 => if t = 0 then 42 else 7)
        (some [57, 57, 57, 57, 10])).run
      [.step 0 none, .step 1 none, .step 0 none, .step 1 none, .step 0 none, .step 0 none,
        .step 1 none] = some s ∧ s.ok 0 := ⟨_, rfl, rfl, rfl⟩
  exact ⟨s, hs, ((owned hs).contents 0 hok).1⟩

end PidFile

end Ekostd.Daemonize
