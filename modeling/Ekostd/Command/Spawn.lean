/-
  `Command::spawn` — two pipes, a fork, and the descriptors of the program that
  the child becomes.

  * `Pipe.new`, `spawn`: the parent;
  * `childHalf`: the child from the fork on, up to the program it becomes or
    the code it exits with;
  * `childHalf_installs`: 0, 1 and 2 of the program are what they are meant to
    be, and nothing else of what was opened here is left;
  * `spawn_starts_iff`: when there is a child at all.

  Both halves work on `PosixFd.Proc`.  The fork copies the descriptors, and
  nothing else changes them in between.  What changes no descriptor has no part
  here: `O_NONBLOCK` on the read ends, which shows in what `read` answers, and
  the child's process group.
-/
import Ekostd.Command.Basic

namespace Ekostd.Command

open PosixFd

/-- The descriptors of a process that opens files by their path. -/
abbrev Proc := PosixFd.Proc Bytes

/-! ## Pipes -/

/-- `Pipe`.  `write` is `none` where the source has -1. -/
structure Pipe where
  read : ℕ
  write : Option ℕ
  done : Bool
  got : Bytes

/-- `Pipe::new`. -/
def Pipe.new (w : World) (c : Call) (p : Proc) : Option (Pipe × Proc) :=
  match w.call c (p.pipe (w.crossed c) w.linux) with
  | none => none
  | some ((r, wr), p) =>
    some (⟨r, some wr, false, []⟩, if w.linux then p else (p.setCloexec r).setCloexec wr)

/-- `Pipe::close_write`. -/
def Pipe.closeWrite (self : Pipe) (p : Proc) : Pipe × Proc :=
  match self.write with
  | none => (self, p)
  | some wr => ({ self with write := none }, p.close wr)

/-- `Pipe::drop`. -/
def Pipe.drop (self : Pipe) (p : Proc) : Proc :=
  let p := p.close self.read
  self.write.elim p p.close

/-- What `Pipe::new` makes: both ends of a new pipe, closed on `exec`. -/
structure Pipe.Made (pipe : Pipe) (p q : Proc) : Prop where
  read_fd : q.fd pipe.read = some ⟨⟨p.opened, .readEnd⟩, true⟩
  write_fd : ∃ wr, pipe.write = some wr ∧ q.fd wr = some ⟨⟨p.opened, .writeEnd⟩, true⟩
  read_free : p.fd pipe.read = none
  grows : p.Grows q
  opened : q.opened = p.opened + 1
  full : ∀ k, p.Full k → q.Full (k + 2)
  done : pipe.done = false
  got : pipe.got = []

theorem Pipe.new_eq_some {w : World} {c : Call} {p q : Proc} {pipe : Pipe}
    (h : Pipe.new w c p = some (pipe, q)) : pipe.Made p q := by
  unfold Pipe.new at h
  split at h
  · cases h
  · next r wr s hs =>
    cases h
    have hp := Proc.pipe_eq_some (World.call_eq_some hs)
    cases hl : w.linux with
    | true =>
      rw [hl] at hp
      exact ⟨hp.read, ⟨wr, rfl, hp.write⟩, hp.read_free, hp.grows, hp.opened, hp.full, rfl, rfl⟩
    | false =>
      rw [hl] at hp
      have hfd : ∀ n d, s.fd n = some d → ((s.setCloexec r).setCloexec wr).fd n =
          some ⟨d.file, (d.cloexec || decide (n = r)) || decide (n = wr)⟩ := fun n d hn =>
        Proc.setCloexec_fd (Proc.setCloexec_fd hn)
      refine ⟨by simpa using hfd _ _ hp.read, ⟨wr, rfl, by simpa using hfd _ _ hp.write⟩,
        hp.read_free, ⟨fun n d hn => ?_, fun N S hS => ?_, by simp [hp.opened]⟩, by simp [hp.opened],
        fun k hk m hm => ?_, rfl, rfl⟩
      · have hr : n ≠ r := by
          rintro rfl
          exact absurd hp.read_free (by simp [hn])
        have hwr : n ≠ wr := by
          rintro rfl
          exact absurd hp.write_free (by simp [hn])
        simpa [hr, hwr] using hfd n d (hp.keeps hn)
      · refine (hS.piped hp).setCloexec.setCloexec.mono ?_
        rintro m ⟨⟨hm | hm | hm, hr⟩, hwr⟩
        · exact absurd hm hr
        · exact absurd hm hwr
        · exact hm
      · show ((s.setCloexec r).setCloexec wr).fd m ≠ none
        rw [Ne, Proc.setCloexec_eq_none, Proc.setCloexec_eq_none]
        exact hp.full k hk m hm

/-! ## The child -/

/-- The program that a child has become. -/
structure Program where
  path : Bytes
  argv : List Bytes
  envp : List Bytes
  fds : Proc

/-- What has become of a child: a program, or the exit code of one that did not get there. -/
inductive Ended where
  | running (program : Program)
  | exited (code : ℕ)

/-- The path that `c_dev_null` is a C string of: `/dev/null`. -/
def devNull : Bytes := [47, 100, 101, 118, 47, 110, 117, 108, 108]

/-- `above_stdio`. -/
def aboveStdio (w : World) (c : Call) (fd : Option ℕ) (p : Proc) : Option ℕ × Proc :=
  match fd with
  | none => (none, p)
  | some fd =>
    if fd > 2 then (some fd, p)
    else match w.call c (PosixFd.Proc.dupfd p fd 3) with
      | none => (none, p)
      | some (n, p) => (some n, p)

/-- The loop over the candidates: the first one from the `i`-th on whose `execve` succeeds. -/
def execveEach (w : World) : ℕ → List Bytes → Option Bytes
  | _, [] => none
  | i, path :: tries => if w.fails (.execve i) then execveEach w (i + 1) tries else some path

/-- The child half of `Command::spawn`. -/
def childHalf (w : World) (self : Command) (tries : List Bytes) (out err : Pipe) (p : Proc) :
    Ended :=
  let (outW, p) := aboveStdio w .dupOut out.write p
  let (errW, p) := aboveStdio w .dupErr err.write p
  match outW, errW with
  | some outW, some errW =>
    match w.call .openNull (p.openFile devNull false) with
    | none => .exited 127
    | some (null, p) =>
      match w.call .dup2Null (PosixFd.Proc.dup2 p null 0) with
      | none => .exited 127
      | some p =>
        let p := p.close null
        match w.call .dup2Out (PosixFd.Proc.dup2 p outW 1) with
        | none => .exited 127
        | some p =>
          match w.call .dup2Err (PosixFd.Proc.dup2 p errW 2) with
          | none => .exited 127
          | some p =>
            match execveEach w 0 tries with
            | none => .exited 127
            | some path => .running
              { path := path
                argv := nulTerminated self.program :: self.args.map nulTerminated
                envp := self.environment w
                fds := p.exec }
  | _, _ => .exited 127

/-- `Child`. -/
structure Child where
  pid : ℕ
  out : Pipe
  err : Pipe
  status : Option ℤ

/-- What a fork leaves: the child as the parent knows it, and what it has become. -/
structure Spawned where
  child : Child
  ended : Ended

/-- `Command::spawn`. -/
def spawn (w : World) (self : Command) (p : Proc) : Option Spawned × Proc :=
  match Pipe.new w .outPipe p with
  | none => (none, p)
  | some (out, p) =>
    match Pipe.new w .errPipe p with
    | none => (none, out.drop p)
    | some (err, p) =>
      let tries := candidates w self.program
      if tries = [] then (none, out.drop (err.drop p))
      else match w.fork with
        | none => (none, out.drop (err.drop p))
        | some pid =>
          let ended := childHalf w self tries out err p
          let (out, p) := out.closeWrite p
          let (err, p) := err.closeWrite p
          (some ⟨⟨pid, out, err, none⟩, ended⟩, p)

/-! ## What the program finds open -/

theorem aboveStdio_eq_some {w : World} {c : Call} {fd n : ℕ} {p q : Proc} {f : File Bytes}
    (h : aboveStdio w c (some fd) p = (some n, q)) (hfd : p.fd fd = some ⟨f, true⟩) :
    2 < n ∧ q.fd n = some ⟨f, true⟩ ∧ p.Grows q ∧ q.opened = p.opened := by
  unfold aboveStdio at h
  dsimp only at h
  split_ifs at h with habove
  · cases h
    exact ⟨habove, hfd, .refl p, rfl⟩
  · split at h
    · cases h
    · next m s hs =>
      cases h
      obtain ⟨d, hd, ha⟩ := Proc.dupfd_eq_some (World.call_eq_some hs)
      cases hfd.symm.trans hd
      exact ⟨ha.above, ha.fd_self, ha.grows rfl, ha.opened⟩

/-- The three standard descriptors are `null`, `out` and `err`, and no other descriptor refers to
    a file from number `N` on. -/
structure Installed (N : ℕ) (null out err : File Bytes) (p : Proc) : Prop where
  stdin : p.fd 0 = some ⟨null, false⟩
  stdout : p.fd 1 = some ⟨out, false⟩
  stderr : p.fd 2 = some ⟨err, false⟩
  only : ∀ n d, p.fd n = some d → N ≤ d.file.id → n = 0 ∨ n = 1 ∨ n = 2

/-- The calls that a child has made when it becomes a program. -/
theorem childHalf_running {w : World} {self : Command} {tries : List Bytes} {out err : Pipe}
    {p : Proc} {program : Program} (h : childHalf w self tries out err p = .running program) :
    ∃ outW p₁ errW p₂ null p₃ p₄ p₅ p₆,
      aboveStdio w .dupOut out.write p = (some outW, p₁) ∧
      aboveStdio w .dupErr err.write p₁ = (some errW, p₂) ∧
      p₂.openFile devNull false = some (null, p₃) ∧
      PosixFd.Proc.dup2 p₃ null 0 = some p₄ ∧
      PosixFd.Proc.dup2 (p₄.close null) outW 1 = some p₅ ∧
      PosixFd.Proc.dup2 p₅ errW 2 = some p₆ ∧ program.fds = p₆.exec ∧
      execveEach w 0 tries = some program.path ∧
      program.argv = nulTerminated self.program :: self.args.map nulTerminated := by
  unfold childHalf at h
  rcases hout : aboveStdio w .dupOut out.write p with ⟨outW, p₁⟩
  rcases herr : aboveStdio w .dupErr err.write p₁ with ⟨errW, p₂⟩
  rw [hout] at h
  dsimp only at h
  rw [herr] at h
  dsimp only at h
  split at h
  · split at h
    · cases h
    · next null p₃ hopen =>
      split at h
      · cases h
      · next p₄ hnull =>
        split at h
        · cases h
        · next p₅ hout' =>
          split at h
          · cases h
          · next p₆ herr' =>
            split at h
            · cases h
            · next path hpath =>
              cases h
              exact ⟨_, p₁, _, p₂, null, p₃, p₄, p₅, p₆, rfl, herr, World.call_eq_some hopen,
                World.call_eq_some hnull, World.call_eq_some hout', World.call_eq_some herr', rfl,
                hpath, rfl⟩
  · cases h

/-- A child that does not become a program exits with 127. -/
theorem childHalf_exited {w : World} {self : Command} {tries : List Bytes} {out err : Pipe}
    {p : Proc} {code : ℕ} (h : childHalf w self tries out err p = .exited code) : code = 127 := by
  unfold childHalf at h
  dsimp only at h
  split at h
  · repeat' split at h
    all_goals cases h
    all_goals rfl
  · cases h
    rfl

/-- **The shuffle**: a program that the child becomes has its standard descriptors in place.

    The number of `/dev/null` is not 0, as 0 is in use when it is opened; so the `close` that
    nobody checks does not undo the `dup2` before it. -/
theorem childHalf_installs {w : World} {self : Command} {tries : List Bytes} {out err : Pipe}
    {p : Proc} {N a b : ℕ} {f g : File Bytes} {program : Program}
    (hout : out.write = some a) (ha : p.fd a = some ⟨f, true⟩)
    (herr : err.write = some b) (hb : p.fd b = some ⟨g, true⟩)
    (hfull : p.Full 1) (hs : p.Sealed N ∅)
    (h : childHalf w self tries out err p = .running program) :
    Installed N ⟨p.opened, .named devNull⟩ f g program.fds := by
  obtain ⟨outW, p₁, errW, p₂, null, p₃, p₄, p₅, p₆, h₁, h₂, h₃, h₄, h₅, h₆, hfds, -⟩ :=
    childHalf_running h
  rw [hout] at h₁
  rw [herr] at h₂
  obtain ⟨houtW, hf₁, hg₁, ho₁⟩ := aboveStdio_eq_some h₁ ha
  obtain ⟨herrW, hf₂, hg₂, ho₂⟩ := aboveStdio_eq_some h₂ (hg₁.keeps b _ hb)
  have hopen := Proc.openFile_eq_some h₃
  have hnull : null ≠ 0 := by
    rintro rfl
    exact (hg₁.trans hg₂).full hfull 0 Nat.one_pos hopen.free
  -- where the three files are before each `dup2`
  have houtW₃ : p₃.fd outW = some ⟨f, true⟩ := hopen.keeps (hg₂.keeps outW _ hf₁)
  have herrW₃ : p₃.fd errW = some ⟨g, true⟩ := hopen.keeps hf₂
  have hne : ∀ {n : ℕ} {e : File Bytes}, p₃.fd n = some ⟨e, true⟩ → n ≠ null := by
    rintro n e hn rfl
    rw [hopen.fd_self] at hn
    cases hn
  obtain ⟨d₀, hd₀, hfd₄, -⟩ := Proc.dup2_eq_some hnull h₄
  obtain ⟨d₁, hd₁, hfd₅, -⟩ := Proc.dup2_eq_some (by omega) h₅
  obtain ⟨d₂, hd₂, hfd₆, -⟩ := Proc.dup2_eq_some (by omega) h₆
  have he₀ : d₀.file = ⟨p.opened, .named devNull⟩ := by
    rw [hopen.fd_self] at hd₀
    cases hd₀
    rw [ho₂, ho₁]
  have he₁ : d₁.file = f := by
    rw [Proc.close_of_ne (hne houtW₃), hfd₄, Function.update_of_ne (by omega), houtW₃] at hd₁
    cases hd₁
    rfl
  have he₂ : d₂.file = g := by
    rw [hfd₅, Function.update_of_ne (by omega), Proc.close_of_ne (hne herrW₃), hfd₄,
      Function.update_of_ne (by omega), herrW₃] at hd₂
    cases hd₂
    rfl
  have hsealed : p₆.Sealed N {0, 1, 2} := by
    have h₃ : p₃.Sealed N {null} := by
      simpa using ((hg₁.trans hg₂).sealed N ∅ hs).update (p := p₂.mint) hopen.fd
    refine (((h₃.update hfd₄).close.update hfd₅).update hfd₆).mono ?_
    rintro m (hm | hm | ⟨hm | hm, hmn⟩)
    · simp [hm]
    · simp [hm]
    · simp [hm]
    · exact absurd hm hmn
  have hzero : p₆.fd 0 = some ⟨d₀.file, false⟩ := by
    rw [hfd₆, Function.update_of_ne (by omega), hfd₅, Function.update_of_ne (by omega),
      Proc.close_of_ne hnull.symm, hfd₄, Function.update_self]
  have hone : p₆.fd 1 = some ⟨d₁.file, false⟩ := by
    rw [hfd₆, Function.update_of_ne (by omega), hfd₅, Function.update_self]
  have htwo : p₆.fd 2 = some ⟨d₂.file, false⟩ := by rw [hfd₆, Function.update_self]
  rw [hfds]
  exact ⟨Proc.exec_fd.2 ⟨he₀ ▸ hzero, rfl⟩, Proc.exec_fd.2 ⟨he₁ ▸ hone, rfl⟩,
    Proc.exec_fd.2 ⟨he₂ ▸ htwo, rfl⟩, fun n d hn hN => hsealed.exec hn hN⟩

/-- What a call of `spawn` from `p` leaves when it succeeds, with `q` for the parent. -/
structure Spawned.Started (c : Spawned) (p q : Proc) : Prop where
  out_read : q.fd c.child.out.read = some ⟨⟨p.opened, .readEnd⟩, true⟩
  err_read : q.fd c.child.err.read = some ⟨⟨p.opened + 1, .readEnd⟩, true⟩
  out_new : c.child.out.done = false ∧ c.child.out.got = []
  err_new : c.child.err.done = false ∧ c.child.err.got = []
  status : c.child.status = none
  running : ∀ program, c.ended = .running program →
    Installed p.opened ⟨p.opened + 2, .named devNull⟩ ⟨p.opened, .writeEnd⟩
      ⟨p.opened + 1, .writeEnd⟩ program.fds
  exited : ∀ code, c.ended = .exited code → code = 127

/-- The way of `spawn` to a child. -/
theorem spawn_cases {w : World} {self : Command} {p q : Proc} {c : Spawned}
    (h : self.spawn w p = (some c, q)) :
    ∃ out p₁ err p₂ pid, Pipe.new w .outPipe p = some (out, p₁) ∧
      Pipe.new w .errPipe p₁ = some (err, p₂) ∧
      c = ⟨⟨pid, (out.closeWrite p₂).1, (err.closeWrite (out.closeWrite p₂).2).1, none⟩,
        childHalf w self (candidates w self.program) out err p₂⟩ ∧
      q = (err.closeWrite (out.closeWrite p₂).2).2 := by
  unfold spawn at h
  split at h
  · cases h
  · next out p₁ hout =>
    split at h
    · cases h
    · next err p₂ herr =>
      dsimp only at h
      split_ifs at h
      · cases h
      · split at h
        · cases h
        · next pid _ =>
          cases h
          exact ⟨out, p₁, err, p₂, pid, hout, herr, rfl, rfl⟩

theorem spawn_started {w : World} {self : Command} {p : Proc} {c : Spawned}
    (h : c ∈ (self.spawn w p).1) : c.Started p (self.spawn w p).2 := by
  rcases hs : self.spawn w p with ⟨o, q⟩
  obtain rfl : o = some c := by rwa [hs] at h
  obtain ⟨out, p₁, err, p₂, pid, hout, herr, rfl, rfl⟩ := spawn_cases hs
  have ho := Pipe.new_eq_some hout
  have he := Pipe.new_eq_some herr
  obtain ⟨a, ha, hfa⟩ := ho.write_fd
  obtain ⟨b, hb, hfb⟩ := he.write_fd
  have hfa₂ := he.grows.keeps a _ hfa
  have hr₂ := he.grows.keeps out.read _ ho.read_fd
  have hsealed := (ho.grows.trans he.grows).sealed p.opened ∅ (Proc.Sealed.opened p)
  have hfull : p₂.Full 1 := by
    refine he.grows.full fun m hm => ho.full 0 (fun m hm => ?_) m (by omega)
    omega
  -- descriptors of different files are different, and the write ends are not the read ends
  have hne : ∀ {m n : ℕ} {f g : File Bytes}, p₂.fd m = some ⟨f, true⟩ →
      p₂.fd n = some ⟨g, true⟩ → f ≠ g → m ≠ n := by
    rintro m n f g hm hn hfg rfl
    rw [hm] at hn
    cases hn
    exact hfg rfl
  have hkept : ∀ {m : ℕ} {i : ℕ}, p₂.fd m = some ⟨⟨i, .readEnd⟩, true⟩ →
      ((p₂.close a).close b).fd m = some ⟨⟨i, .readEnd⟩, true⟩ := by
    intro m i hm
    rw [Proc.close_of_ne (hne hm hfb (by simp)), Proc.close_of_ne (hne hm hfa₂ (by simp)), hm]
  simp only [Pipe.closeWrite, ha, hb]
  refine ⟨hkept hr₂, ?_, ⟨ho.done, ho.got⟩, ⟨he.done, he.got⟩, rfl, fun program hr => ?_,
    fun code hx => childHalf_exited hx⟩
  · rw [← ho.opened]
    exact hkept he.read_fd
  · have hi := childHalf_installs ha hfa₂ hb hfb hfull hsealed hr
    rwa [he.opened, ho.opened] at hi

/-- **The descriptors of a spawned program**: the parent holds the read ends of two new pipes; the
    program has `/dev/null` at 0, the write end of the first pipe at 1, that of the second at 2,
    and no other descriptor to any of the three.  A child that does not become the program exits
    with 127. -/
theorem spawn_installs {w : World} {self : Command} {p : Proc} {c : Spawned}
    (h : c ∈ (self.spawn w p).1) :
    let q := (self.spawn w p).2
    q.fd c.child.out.read = some ⟨⟨p.opened, .readEnd⟩, true⟩ ∧
    q.fd c.child.err.read = some ⟨⟨p.opened + 1, .readEnd⟩, true⟩ ∧
    match c.ended with
    | .running program => Installed p.opened ⟨p.opened + 2, .named devNull⟩
        ⟨p.opened, .writeEnd⟩ ⟨p.opened + 1, .writeEnd⟩ program.fds
    | .exited code => code = 127 := by
  have hs := spawn_started h
  refine ⟨hs.out_read, hs.err_read, ?_⟩
  cases he : c.ended with
  | running program => exact hs.running program he
  | exited code => exact hs.exited code he

/-- A process that has no descriptors. -/
def closed : Proc := ⟨fun _ => none, 16, 0, by simp⟩

/-- A daemon that has closed its standard descriptors, and gets its pipes on these numbers. -/
theorem spawn_installs_daemon :
    let w : World := { World.calm with crossed := fun c => c = .errPipe }
    ∃ c ∈ ((new [47, 97]).spawn w closed).1, ∃ program, c.ended = .running program ∧
      Installed 0 ⟨2, .named devNull⟩ ⟨0, .writeEnd⟩ ⟨1, .writeEnd⟩ program.fds := by
  intro w
  have hc := Option.get_mem (show (((new [47, 97]).spawn w closed).1).isSome by decide)
  refine ⟨_, hc, _, rfl, ?_⟩
  exact (spawn_installs hc).2.2

/-! ## What `None` means -/

/-- There is a child, and it exits with 127 if no candidate can be executed. -/
def Starts (w : World) (self : Command) (p : Proc) : Prop :=
  ∃ c ∈ (self.spawn w p).1,
    (∀ i < (candidates w self.program).length, w.fails (.execve i)) → c.ended = .exited 127

/-- A name with a slash is its own candidate; for any other there is one if `PATH` is more than
    separators. -/
theorem candidates_ne_nil_iff {w : World} {program : Bytes} :
    candidates w program ≠ [] ↔ PosixFs.slash ∈ program ∨ ∃ b ∈ w.path.getD [], b ≠ Env.colon := by
  unfold candidates
  split_ifs with hslash
  · simp [hslash]
  · rw [or_iff_right hslash]
    constructor
    · intro hne
      by_contra! hall
      refine hne (List.flatMap_eq_nil_iff.2 fun dir hdir => ?_)
      obtain ⟨b, bs, rfl⟩ := List.exists_cons_of_ne_nil (List.of_mem_pieces hdir).1
      have hb := List.mem_of_mem_pieces hdir List.mem_cons_self
      exact absurd (hall b hb ▸ List.mem_cons_self) (List.of_mem_pieces hdir).2
    · rintro ⟨b, hb, hsep⟩ hnil
      obtain ⟨dir, dirs, hdirs⟩ := List.exists_cons_of_ne_nil (List.pieces_ne_nil hb hsep)
      have hdir : dir ∈ Env.splitPaths (w.path.getD []) := by
        rw [Env.splitPaths, hdirs]
        exact List.mem_cons_self
      have hnone := List.flatMap_eq_nil_iff.1 hnil dir hdir
      rw [if_neg (List.of_mem_pieces hdir).1] at hnone
      cases hnone

theorem execveEach_eq_none {w : World} {tries : List Bytes} {i : ℕ}
    (h : ∀ j < tries.length, w.fails (.execve (i + j))) : execveEach w i tries = none := by
  induction tries generalizing i with
  | nil => rfl
  | cons path tries ih =>
    have hfirst : w.fails (.execve i) := h 0 (Nat.succ_pos _)
    rw [execveEach, if_pos hfirst]
    refine ih fun j hj => ?_
    rw [Nat.add_assoc, Nat.add_comm 1 j]
    exact h (j + 1) (Nat.succ_lt_succ hj)

theorem childHalf_of_fails {w : World} {self : Command} {tries : List Bytes} {out err : Pipe}
    {p : Proc} (h : ∀ i < tries.length, w.fails (.execve i)) :
    childHalf w self tries out err p = .exited 127 := by
  cases hend : childHalf w self tries out err p with
  | running program =>
    obtain ⟨_, _, _, _, _, _, _, _, _, -, -, -, -, -, -, -, hpath, -⟩ := childHalf_running hend
    rw [execveEach_eq_none (by simpa using h)] at hpath
    cases hpath
  | exited code => rw [childHalf_exited hend]

/-- **When there is a child**, the pipes and the fork having succeeded: exactly if there is
    something to try. -/
theorem spawn_starts_iff {w : World} {self : Command} {p p₁ p₂ : Proc} {out err : Pipe} {pid : ℕ}
    (hout : Pipe.new w .outPipe p = some (out, p₁))
    (herr : Pipe.new w .errPipe p₁ = some (err, p₂)) (hfork : w.fork = some pid) :
    Starts w self p ↔ PosixFs.slash ∈ self.program ∨ ∃ b ∈ w.path.getD [], b ≠ Env.colon := by
  rw [← candidates_ne_nil_iff]
  constructor
  · rintro ⟨c, hc, -⟩ hnil
    simp [spawn, hout, herr, hnil] at hc
  · intro hne
    simp only [Starts, spawn, hout, herr, if_neg hne, hfork]
    exact ⟨_, rfl, childHalf_of_fails⟩

/-- A program that is in no directory of `PATH`. -/
theorem spawn_starts_missing :
    let w : World := { World.calm with fails := fun c => c = .execve 0, path := some [47, 98] }
    Starts w (new [97]) closed := by
  intro w
  exact (spawn_starts_iff (w := w) (p := closed) rfl rfl rfl).2 (.inr ⟨47, by decide, by decide⟩)

/-- Without `PATH` there is no child, though the pipes are made and the fork is to succeed. -/
theorem spawn_none_without_path :
    (∃ out p₁ err p₂, Pipe.new .calm .outPipe closed = some (out, p₁) ∧
      Pipe.new .calm .errPipe p₁ = some (err, p₂)) ∧ World.calm.fork.isSome ∧
      ¬ Starts .calm (new [97]) closed := by
  refine ⟨⟨_, _, _, _, rfl, rfl⟩, rfl, ?_⟩
  rintro ⟨c, hc, -⟩
  cases hc

end Ekostd.Command
