/-
  `Command::output` — the parent that collects both streams, beside the child
  that writes them.

  The child goes through its writes, closes and exit, and stops at a write as
  long as the pipe is full.  The parent goes from system call to system call;
  `poll` answers with any of the descriptors that are ready, `read` with any
  number of bytes that are there, and either may fail.

  * `system`: both of them and the pipes in between;
  * `Inv`: what was read, what is in the pipe and what is still to be written
    make up what the child says on a stream, and a stream that is done has
    nothing left;
  * `output_collects`: what is returned is what the child said, and the two
    never wait for each other.
-/
import Ekostd.Lib.Sts
import Ekostd.Command.Child

namespace Ekostd.Command

/-! ## The child -/

/-- What a program does with its output.  The streams are its descriptors 1 and 2, which it has
    from `spawn` as the write ends of the two pipes (`Installed`). -/
inductive Act where
  | write (f : Stream) (bytes : Bytes)
  | close (f : Stream)
  deriving DecidableEq

/-- What is said on a stream: all that is written to it until it is closed. -/
def said (f : Stream) : List Act → Bytes
  | [] => []
  | .write g bytes :: acts => if g = f then bytes ++ said f acts else said f acts
  | .close g :: acts => if g = f then [] else said f acts

/-- What the programs do until they exit, their `wait` status, and how much a pipe holds. -/
structure Host where
  acts : Program → List Act
  status : Program → ℕ
  capacity : Stream → ℕ
  capacity_pos : ∀ f, 0 < capacity f

/-- What a child does; one that has not become a program writes nothing. -/
def Host.behaviour (host : Host) : Ended → List Act × ℕ
  | .running program => (host.acts program, host.status program)
  | .exited code => ([], code * 256)

/-- A pipe: the bytes in it, and whether its write end is open in the child, or in whoever has it
    from there. -/
structure Buffer where
  bytes : Bytes
  writer : Bool
  deriving DecidableEq

/-! ## The parent -/

/-- Where the parent is: at the head of the loop, or in a system call. -/
inductive Pc where
  | loop
  | poll (fds : List Pollfd) (watched : Bool × Bool) (ms : ℤ)
  | take (f : Stream) (fds : List Pollfd) (watched : Bool × Bool)
  | waitpid
  | returned (output : Output)

/-- `Child::read_ready` where it comes to stderr. -/
def serveErr (fds : List Pollfd) (watched : Bool × Bool) (slot : ℕ) : Pc :=
  if watched.2 ∧ (fds.getD slot default).revents then .take .err fds watched else .loop

/-- `Child::read_ready` where it comes to stdout. -/
def serveOut (fds : List Pollfd) (watched : Bool × Bool) : Pc :=
  if watched.1 then
    if (fds.getD 0 default).revents then .take .out fds watched else serveErr fds watched 1
  else serveErr fds watched 0

/-- `Child::read_ready` where `take_ready` has returned. -/
def afterTake (f : Stream) (fds : List Pollfd) (watched : Bool × Bool) : Pc :=
  match f with
  | .out => serveErr fds watched 1
  | .err => .loop

/-- `Child::read_ready` where `poll` has answered. -/
def afterPoll (child : Child) (fds : List Pollfd) (watched : Bool × Bool) :
    Except Errno (List Bool) → Child × Pc
  | .error e =>
    if e = Errno.EINTR then (child, .loop)
    else ({ child with out.done := true, err.done := true }, .loop)
  | .ok revents =>
    if true ∉ revents then (child, .loop)
    else (child, serveOut (fds.zipWith (fun p r => { p with revents := r }) revents) watched)

/-! ## The system -/

/-- The parent, the pipes, and what the child has still to do. -/
structure State where
  child : Child
  pc : Pc
  buf : Stream → Buffer
  acts : List Act
  exited : Bool

namespace State

variable (s : State)

/-- The stream that a descriptor of the parent is the read end of (`Spawned.Started`). -/
def streamOf (fd : ℕ) : Option Stream :=
  if fd = s.child.out.read then some .out
  else if fd = s.child.err.read then some .err
  else none

/-- A `read` of the descriptor would not block. -/
def ready (fd : ℕ) : Bool :=
  (s.streamOf fd).any fun f => !(s.buf f).bytes.isEmpty || !(s.buf f).writer

/-- What `poll` may answer. -/
def polls (fds : List Pollfd) (ms : ℤ) : Except Errno (List Bool) → Bool
  | .error _ => true
  | .ok revents => revents.length = fds.length ∧
      (∀ x ∈ fds.zip revents, x.2 → s.ready x.1.fd) ∧ (true ∈ revents ∨ 0 ≤ ms)

/-- What `waitpid` may answer about a child that exits with `status`. -/
def reaps (status : ℕ) : Except Errno ℕ → Bool
  | .error _ => true
  | .ok st => s.exited ∧ st = status

end State

/-- What `read` with room for 8192 bytes may answer: how many bytes it takes. -/
def Buffer.reads (b : Buffer) : Except Errno ℕ → Bool
  | .ok 0 => b.bytes = [] ∧ !b.writer
  | .ok n => n ≤ 8192 ∧ n ≤ b.bytes.length
  | .error e => e = Errno.EAGAIN → b.bytes = [] ∧ b.writer

/-- The child goes on.  A `write` hands over the first `k` bytes, if they fit in the pipe. -/
def stepChild (host : Host) (s : State) (k : ℕ) : Option State :=
  match s.acts with
  | [] =>
    if s.exited then none
    else some { s with buf := fun f => { s.buf f with writer := false }, exited := true }
  | .close f :: acts =>
    some { s with buf := Function.update s.buf f { s.buf f with writer := false }, acts := acts }
  | .write f bytes :: acts =>
    let b := s.buf f
    -- nothing to write, or a closed descriptor
    if bytes = [] ∨ !b.writer then some { s with acts := acts }
    else if 0 < k ∧ k ≤ bytes.length ∧ b.bytes.length + k ≤ host.capacity f then
      some { s with buf := Function.update s.buf f { b with bytes := b.bytes ++ bytes.take k },
                    acts := .write f (bytes.drop k) :: acts }
    else none

/-- The head of the loop of `Command::output`. -/
def stepLoop (s : State) : State :=
  if s.child.drained then
    match s.child.status with
    | some code => { s with pc := .returned (s.child.intoOutput code) }
    | none => { s with pc := .waitpid }
  else
    let (fds, watched) := s.child.watch
    if fds = [] then s else { s with pc := .poll fds watched (Child.pollMs none) }

/-- `read` answers `take_ready`. -/
def stepRead (s : State) (f : Stream) (fds : List Pollfd) (watched : Bool × Bool)
    (answer : Except Errno ℕ) : Option State :=
  match s.streamOf (s.child.pipe f).read with
  | none => none
  | some g =>
    let b := s.buf g
    if b.reads answer then
      let (pipe, goesOn) := (s.child.pipe f).takeTurn (answer.map b.bytes.take)
      some { s with
        child := s.child.setPipe f pipe
        buf := Function.update s.buf g { b with bytes := b.bytes.drop (answer.toOption.getD 0) }
        pc := if goesOn then s.pc else afterTake f fds watched }
    else none

/-- `waitpid` answers `collect`. -/
def stepWaitpid (status : ℕ) (s : State) (answer : Except Errno ℕ) : Option State :=
  if s.reaps status answer then
    match s.child.collectTurn answer with
    | (child, none) => some { s with child := child }
    | (child, some code) => some { s with child := child, pc := .returned (child.intoOutput code) }
  else none

/-- Who moves, and what the kernel answers. -/
inductive Action where
  | child (k : ℕ)
  | loop
  | poll (answer : Except Errno (List Bool))
  | read (answer : Except Errno ℕ)
  | waitpid (answer : Except Errno ℕ)

/-- No system call fails for another reason than that it was interrupted or that there is nothing
    to read yet. -/
def Action.Plain : Action → Prop
  | .poll (.error e) | .waitpid (.error e) => e = Errno.EINTR
  | .read (.error e) => e = Errno.EINTR ∨ e = Errno.EAGAIN
  | _ => True

/-- `Command::output` from where `spawn` has returned. -/
def system (host : Host) (c : Spawned) : Sts State Action where
  init := ⟨c.child, .loop, fun _ => ⟨[], true⟩, (host.behaviour c.ended).1, false⟩
  step s
    | .child k => stepChild host s k
    | .loop => match s.pc with
      | .loop => some (stepLoop s)
      | _ => none
    | .poll answer => match s.pc with
      | .poll fds watched ms =>
        if s.polls fds ms answer then
          let (child, pc) := afterPoll s.child fds watched answer
          some { s with child := child, pc := pc }
        else none
      | _ => none
    | .read answer => match s.pc with
      | .take f fds watched => stepRead s f fds watched answer
      | _ => none
    | .waitpid answer => match s.pc with
      | .waitpid => stepWaitpid (host.behaviour c.ended).2 s answer
      | _ => none

/-! ## Nothing is lost -/

/-- What is on its way: the bytes in the pipe, and those that the child has still to write. -/
def State.pending (s : State) (f : Stream) : Bytes :=
  (s.buf f).bytes ++ if (s.buf f).writer then said f s.acts else []

/-- What the parent knows where it is. -/
def Pc.Knows (child : Child) : Pc → Prop
  | .loop | .take .. => True
  | .poll fds watched _ => (fds, watched) = child.watch
  | .waitpid => child.drained
  | .returned o => child.drained ∧ o.stdout = child.out.got ∧ o.stderr = child.err.got

/-- The invariant of a child that starts with `acts`. -/
structure Inv (acts : List Act) (s : State) : Prop where
  books : ∀ f, (s.child.pipe f).got ++ s.pending f = said f acts
  done : ∀ f, (s.child.pipe f).done = true → (s.buf f).bytes = [] ∧ (s.buf f).writer = false
  ne : s.child.out.read ≠ s.child.err.read
  knows : s.pc.Knows s.child

variable {host : Host} {acts : List Act} {s t : State}

/-- **The child's step** moves what is on its way, and no byte of it is lost. -/
theorem stepChild_pending {k : ℕ} (h : stepChild host s k = some t) (f : Stream) :
    t.pending f = s.pending f := by
  unfold stepChild at h
  split at h
  · next hacts =>
    split_ifs at h
    cases h
    simp [State.pending, hacts, said]
  · next g acts hacts =>
    cases h
    by_cases hf : f = g
    · subst hf
      simp [State.pending, hacts, said]
    · simp [State.pending, hacts, said, hf, Ne.symm hf]
  · next g bytes acts hacts =>
    dsimp only at h
    split_ifs at h with hnone hk
    · cases h
      by_cases hf : f = g
      · subst hf
        rcases hnone with rfl | hw
        · simp [State.pending, hacts, said]
        · have hw : (s.buf f).writer = false := by simpa using hw
          simp [State.pending, hw]
      · simp [State.pending, hacts, said, Ne.symm hf]
    · cases h
      by_cases hf : f = g
      · subst hf
        have hw : (s.buf f).writer = true := by simpa using (not_or.1 hnone).2
        have hsplit : bytes.take k ++ (bytes.drop k ++ said f acts) = bytes ++ said f acts := by
          rw [← List.append_assoc, List.take_append_drop]
        simp [State.pending, hacts, said, hw, hsplit]
      · simp [State.pending, hacts, said, hf, Ne.symm hf]

theorem stepChild_closed {k : ℕ} (h : stepChild host s k = some t) {f : Stream}
    (hw : (s.buf f).writer = false) :
    (t.buf f).bytes = (s.buf f).bytes ∧ (t.buf f).writer = false := by
  unfold stepChild at h
  split at h
  · split_ifs at h
    cases h
    exact ⟨rfl, rfl⟩
  · next g acts hacts =>
    cases h
    by_cases hf : f = g
    · subst hf
      simp
    · simpa [hf] using hw
  · next g bytes acts hacts =>
    dsimp only at h
    split_ifs at h with hnone hk
    · cases h
      exact ⟨rfl, hw⟩
    · cases h
      have hf : f ≠ g := by
        rintro rfl
        exact hnone (Or.inr (by simp [hw]))
      simpa [hf] using hw

theorem stepChild_ended {k : ℕ} (h : stepChild host s k = some t) {f : Stream}
    (hb : (s.buf f).bytes = []) (hw : (s.buf f).writer = false) :
    (t.buf f).bytes = [] ∧ (t.buf f).writer = false := by
  rw [← hb]
  exact stepChild_closed h hw

theorem stepChild_parent {k : ℕ} (h : stepChild host s k = some t) :
    t.child = s.child ∧ t.pc = s.pc := by
  unfold stepChild at h
  split at h
  · split_ifs at h
    cases h
    exact ⟨rfl, rfl⟩
  · cases h
    exact ⟨rfl, rfl⟩
  · dsimp only at h
    split_ifs at h <;> cases h <;> exact ⟨rfl, rfl⟩

theorem streamOf_read (h : s.child.out.read ≠ s.child.err.read) (f : Stream) :
    s.streamOf (s.child.pipe f).read = some f := by
  cases f with
  | out => simp [State.streamOf, Child.pipe]
  | err => simp [State.streamOf, Child.pipe, h.symm]

theorem knows_serveErr (child : Child) (fds : List Pollfd) (watched : Bool × Bool) (slot : ℕ) :
    (serveErr fds watched slot).Knows child := by
  unfold serveErr
  split_ifs <;> trivial

theorem knows_serveOut (child : Child) (fds : List Pollfd) (watched : Bool × Bool) :
    (serveOut fds watched).Knows child := by
  unfold serveOut
  split_ifs
  · trivial
  · exact knows_serveErr child fds watched 1
  · exact knows_serveErr child fds watched 0

theorem knows_afterTake (child : Child) (f : Stream) (fds : List Pollfd)
    (watched : Bool × Bool) : (afterTake f fds watched).Knows child := by
  cases f with
  | out => exact knows_serveErr child fds watched 1
  | err => trivial

/-- **One turn of `take_ready`** moves bytes from the pipe to what was got, and finds the end only
    where it is. -/
theorem takeTurn_spec {b : Buffer} {answer : Except Errno ℕ} (hp : (Action.read answer).Plain)
    (hr : b.reads answer = true) (self : Pipe) :
    let pipe := (self.takeTurn (answer.map b.bytes.take)).1
    pipe.got ++ b.bytes.drop (answer.toOption.getD 0) = self.got ++ b.bytes ∧
      pipe.read = self.read ∧
      (pipe.done = true → self.done = true ∨ b.bytes = [] ∧ b.writer = false) := by
  cases answer with
  | error e =>
    have hturn : (self.takeTurn ((Except.error e).map b.bytes.take)).1 = self := by
      rcases hp with rfl | rfl <;> rfl
    simp only [hturn]
    exact ⟨rfl, trivial, Or.inl⟩
  | ok n =>
    cases n with
    | zero =>
      have hend : b.bytes = [] ∧ b.writer = false := by simpa [Buffer.reads] using hr
      exact ⟨rfl, rfl, fun _ => Or.inr hend⟩
    | succ n =>
      have hle : n + 1 ≤ b.bytes.length := by
        simp only [Buffer.reads, decide_eq_true_eq] at hr
        exact hr.2
      obtain ⟨x, chunk, hchunk⟩ : ∃ x chunk, b.bytes.take (n + 1) = x :: chunk :=
        List.exists_cons_of_length_pos (by rw [List.length_take]; omega)
      have hsplit := List.take_append_drop (n + 1) b.bytes
      rw [hchunk] at hsplit
      simp only [Except.map, hchunk, Pipe.takeTurn]
      refine ⟨?_, trivial, fun hd => Or.inl hd⟩
      show (self.got ++ x :: chunk) ++ b.bytes.drop (n + 1) = _
      rw [List.append_assoc, hsplit]

theorem Inv.of_child (h : Inv acts s) {k : ℕ} (ht : stepChild host s k = some t) :
    Inv acts t := by
  obtain ⟨hc, hpc⟩ := stepChild_parent ht
  refine ⟨fun f => ?_, fun f hd => ?_, ?_, ?_⟩
  · rw [hc, stepChild_pending ht, h.books]
  · rw [hc] at hd
    exact stepChild_ended ht (h.done f hd).1 (h.done f hd).2
  · rw [hc]
    exact h.ne
  · rw [hc, hpc]
    exact h.knows

theorem Inv.of_loop (h : Inv acts s) : Inv acts (stepLoop s) := by
  unfold stepLoop
  split_ifs with hd
  · split
    · exact ⟨h.books, h.done, h.ne, hd, rfl, rfl⟩
    · exact ⟨h.books, h.done, h.ne, hd⟩
  · dsimp only
    split_ifs
    · exact h
    · exact ⟨h.books, h.done, h.ne, rfl⟩

theorem afterPoll_spec (child : Child) (fds : List Pollfd) (watched : Bool × Bool)
    {answer : Except Errno (List Bool)} (hp : (Action.poll answer).Plain) :
    (afterPoll child fds watched answer).1 = child ∧
      (afterPoll child fds watched answer).2.Knows child := by
  cases answer with
  | error e =>
    cases hp
    exact ⟨rfl, trivial⟩
  | ok revents =>
    simp only [afterPoll]
    split_ifs
    · exact ⟨rfl, knows_serveOut child _ watched⟩
    · exact ⟨rfl, trivial⟩

theorem Inv.of_poll (h : Inv acts s) {fds : List Pollfd} {watched : Bool × Bool}
    {answer : Except Errno (List Bool)} (hp : (Action.poll answer).Plain) :
    Inv acts { s with
      child := (afterPoll s.child fds watched answer).1
      pc := (afterPoll s.child fds watched answer).2 } := by
  obtain ⟨hchild, hknows⟩ := afterPoll_spec s.child fds watched hp
  rw [hchild]
  exact ⟨h.books, h.done, h.ne, hknows⟩

/-- **A `read`** is answered by the pipe of its stream. -/
theorem stepRead_some {f : Stream} {fds : List Pollfd} {watched : Bool × Bool}
    {answer : Except Errno ℕ} (hne : s.child.out.read ≠ s.child.err.read)
    (h : stepRead s f fds watched answer = some t) :
    (s.buf f).reads answer = true ∧ t =
      { s with
        child := s.child.setPipe f
          ((s.child.pipe f).takeTurn (answer.map (s.buf f).bytes.take)).1
        buf := Function.update s.buf f
          { s.buf f with bytes := (s.buf f).bytes.drop (answer.toOption.getD 0) }
        pc := if ((s.child.pipe f).takeTurn (answer.map (s.buf f).bytes.take)).2 then s.pc
          else afterTake f fds watched } := by
  unfold stepRead at h
  rw [streamOf_read hne] at h
  dsimp only at h
  have hr : (s.buf f).reads answer = true := by
    by_contra hr
    rw [if_neg hr] at h
    cases h
  rw [if_pos hr] at h
  exact ⟨hr, (Option.some.inj h).symm⟩

theorem Inv.of_read (h : Inv acts s) {f : Stream} {fds : List Pollfd} {watched : Bool × Bool}
    {answer : Except Errno ℕ} (hp : (Action.read answer).Plain) (hpc : s.pc = .take f fds watched)
    (ht : stepRead s f fds watched answer = some t) : Inv acts t := by
  obtain ⟨hr, rfl⟩ := stepRead_some h.ne ht
  obtain ⟨hgot, hread, hdone⟩ := takeTurn_spec hp hr (s.child.pipe f)
  refine ⟨fun g => ?_, fun g hd => ?_, ?_, ?_⟩
  · by_cases hg : g = f
    · subst hg
      have := h.books g
      simp only [Child.pipe_setPipe, State.pending, Function.update_self, if_true] at this ⊢
      rw [← List.append_assoc, hgot, List.append_assoc, this]
    · simpa [Child.pipe_setPipe, State.pending, hg] using h.books g
  · by_cases hg : g = f
    · subst hg
      simp only [Child.pipe_setPipe, if_true] at hd
      obtain ⟨hb, hw⟩ := (hdone hd).elim (h.done g) id
      simp [hb, hw]
    · simp only [Child.pipe_setPipe, hg, if_false] at hd
      simpa [hg] using h.done g hd
  · cases f with
    | out => exact fun he => h.ne (hread.symm.trans he)
    | err => exact fun he => h.ne (he.trans hread)
  · cases ((s.child.pipe f).takeTurn (answer.map (s.buf f).bytes.take)).2 with
    | true =>
      show s.pc.Knows _
      rw [hpc]
      trivial
    | false => exact knows_afterTake _ _ _ _

theorem Inv.of_waitpid (h : Inv acts s) {status : ℕ} {answer : Except Errno ℕ}
    (hpc : s.pc = .waitpid) (ht : stepWaitpid status s answer = some t) : Inv acts t := by
  have hd : s.child.drained = true := by simpa [hpc, Pc.Knows] using h.knows
  unfold stepWaitpid at ht
  split_ifs at ht
  cases answer with
  | ok st =>
    cases ht
    exact ⟨h.books, h.done, h.ne, hd, rfl, rfl⟩
  | error e =>
    simp only [Child.collectTurn] at ht
    split_ifs at ht <;> cases ht
    · exact ⟨h.books, h.done, h.ne, h.knows⟩
    · exact ⟨h.books, h.done, h.ne, hd, rfl, rfl⟩

theorem Inv.init {c : Spawned} {p q : Proc} (hc : c.Started p q) :
    Inv (host.behaviour c.ended).1 (system host c).init := by
  have hpipe : ∀ f, (c.child.pipe f).got = [] ∧ (c.child.pipe f).done = false := by
    rintro (_ | _)
    · exact ⟨hc.out_new.2, hc.out_new.1⟩
    · exact ⟨hc.err_new.2, hc.err_new.1⟩
  refine ⟨fun f => ?_, fun f hd => ?_, fun hne => ?_, trivial⟩
  · show (c.child.pipe f).got ++ ([] ++ said f _) = said f _
    rw [(hpipe f).1, List.nil_append, List.nil_append]
    rfl
  · have hdone : (c.child.pipe f).done = true := hd
    rw [(hpipe f).2] at hdone
    cases hdone
  · have hread := hc.out_read
    rw [show c.child.out.read = c.child.err.read from hne, hc.err_read] at hread
    simp at hread

theorem Inv.step {c : Spawned} {a : Action} (h : Inv acts s) (hp : a.Plain)
    (ht : (system host c).step s a = some t) : Inv acts t := by
  cases a with
  | child k => exact h.of_child ht
  | loop =>
    simp only [system] at ht
    split at ht
    · cases ht
      exact h.of_loop
    · cases ht
  | poll answer =>
    simp only [system] at ht
    split at ht
    · split_ifs at ht
      cases ht
      exact h.of_poll hp
    · cases ht
  | read answer =>
    simp only [system] at ht
    split at ht
    · next hpc => exact h.of_read hp hpc ht
    · cases ht
  | waitpid answer =>
    simp only [system] at ht
    split at ht
    · next hpc => exact h.of_waitpid hpc ht
    · cases ht

theorem inv_run {c : Spawned} {p q : Proc} (hc : c.Started p q) {as : List Action}
    (ha : ∀ a ∈ as, a.Plain) (hr : (system host c).run as = some s) :
    Inv (host.behaviour c.ended).1 s :=
  Sts.run_of_meets (C := fun _ a => a.Plain) (.init hc) Inv.step
    (fun pre a post he _ _ => ha a (by simp [he])) hr

/-! ## Nobody waits for the other -/

/-- The child is at a write to a pipe that is full. -/
def State.ChildBlocked (host : Host) (s : State) : Prop :=
  ∃ f b bytes acts, s.acts = .write f (b :: bytes) :: acts ∧ (s.buf f).writer = true ∧
    host.capacity f ≤ (s.buf f).bytes.length

/-- The parent is in a `poll` of which no descriptor is ready, or in `waitpid` for a child that
    has not exited. -/
def State.ParentBlocked (s : State) : Prop :=
  match s.pc with
  | .poll fds _ _ => ∀ p ∈ fds, s.ready p.fd = false
  | .waitpid => s.exited = false
  | _ => False

/-- A child that is blocked is one that can do nothing and has not done everything. -/
theorem childBlocked_iff :
    s.ChildBlocked host ↔ s.acts ≠ [] ∧ ∀ k, stepChild host s k = none := by
  constructor
  · rintro ⟨f, b, bytes, acts, hacts, hw, hfull⟩
    refine ⟨by simp [hacts], fun k => ?_⟩
    have hk : ¬ (0 < k ∧ k ≤ (b :: bytes).length ∧
        (s.buf f).bytes.length + k ≤ host.capacity f) := by omega
    simp only [stepChild, hacts, hw, if_neg hk]
    simp
  · rintro ⟨hne, hstuck⟩
    cases hacts : s.acts with
    | nil => exact absurd hacts hne
    | cons a acts =>
      have hone := hstuck 1
      cases a with
      | close f => simp [stepChild, hacts] at hone
      | write f bytes =>
        simp only [stepChild, hacts] at hone
        split_ifs at hone with hnone hk
        obtain ⟨hbytes, hw⟩ := not_or.1 hnone
        obtain ⟨b, bytes, rfl⟩ := List.exists_cons_of_ne_nil hbytes
        refine ⟨f, b, bytes, acts, hacts, by simpa using hw, ?_⟩
        have hlen : 1 ≤ (b :: bytes).length := by simp
        omega

theorem polls_map {fds : List Pollfd} {ms : ℤ} {found : Pollfd → Bool}
    (h : ∀ p ∈ fds, found p = true → s.ready p.fd = true) (hany : ∃ p ∈ fds, found p = true) :
    s.polls fds ms (.ok (fds.map found)) = true := by
  simp only [State.polls, decide_eq_true_eq]
  refine ⟨by simp, fun x hx => ?_, Or.inl (List.mem_map.2 hany)⟩
  rw [← List.map_id fds, List.map_map, List.zip_map'] at hx
  obtain ⟨q, hq, rfl⟩ := List.mem_map.1 hx
  exact h q hq

theorem exists_polls_iff {fds : List Pollfd} :
    (∃ revents, s.polls fds (-1) (.ok revents) = true) ↔ ∃ p ∈ fds, s.ready p.fd = true := by
  constructor
  · rintro ⟨revents, h⟩
    simp only [State.polls, decide_eq_true_eq] at h
    obtain ⟨hlen, hready, hany⟩ := h
    obtain ⟨i, hi, htrue⟩ := List.mem_iff_getElem.1 (hany.resolve_right (by omega))
    have hi' : i < fds.length := by omega
    have hzip : (fds[i], true) ∈ fds.zip revents := by
      rw [← htrue, ← List.getElem_zip (h := by rw [List.length_zip]; omega)]
      exact List.getElem_mem _
    exact ⟨fds[i], List.getElem_mem hi', hready _ hzip rfl⟩
  · exact fun hany => ⟨_, polls_map (fun _ _ hready => hready) hany⟩

/-- A parent that is blocked is in a system call that can answer nothing but an error. -/
theorem parentBlocked_iff : s.ParentBlocked ↔ match s.pc with
    | .poll fds _ _ => ∀ revents, s.polls fds (-1) (.ok revents) = false
    | .waitpid => ∀ status, s.reaps status (.ok status) = false
    | _ => False := by
  unfold State.ParentBlocked
  split
  · next fds watched ms hpc =>
    have h : (¬ ∃ revents, s.polls fds (-1) (.ok revents) = true) ↔
        ¬ ∃ p ∈ fds, s.ready p.fd = true := not_congr exists_polls_iff
    simpa using h.symm
  · simp [State.reaps]
  · rfl

/-- **The two never wait for each other**: a pipe that is full is watched and ready, unless the
    parent has found its end; but then the child has closed it. -/
theorem Inv.not_blocked (h : Inv acts s) : ¬ (s.ChildBlocked host ∧ s.ParentBlocked) := by
  rintro ⟨⟨f, b, bytes, rest, -, hw, hfull⟩, hpar⟩
  have hdone : (s.child.pipe f).done = false := by
    by_contra hd
    rw [(h.done f (by simpa using hd)).2] at hw
    cases hw
  have hk := h.knows
  unfold State.ParentBlocked at hpar
  split at hpar
  · next fds watched ms hpc =>
    rw [hpc] at hk
    have hmem : ⟨(s.child.pipe f).read, false⟩ ∈ fds := by
      rw [show fds = s.child.watch.1 from congrArg Prod.fst hk]
      exact s.child.mem_watch.2 ⟨f, hdone, rfl⟩
    have hready := hpar _ hmem
    simp only [State.ready, streamOf_read h.ne, Option.any_some, hw] at hready
    have hempty : (s.buf f).bytes = [] := by simpa using hready
    have hpos := host.capacity_pos f
    rw [hempty] at hfull
    exact absurd hfull (Nat.not_le.2 hpos)
  · next hpc =>
    rw [hpc] at hk
    exact absurd (s.child.drained_iff.1 hk f) (by simp [hdone])
  · exact hpar

theorem Inv.returned (h : Inv acts s) {o : Output} (ho : s.pc = .returned o) :
    o.stdout = said .out acts ∧ o.stderr = said .err acts := by
  have hk := h.knows
  rw [ho] at hk
  obtain ⟨hd, hout, herr⟩ := hk
  have hgot : ∀ f, (s.child.pipe f).got = said f acts := by
    intro f
    obtain ⟨hb, hw⟩ := h.done f (s.child.drained_iff.1 hd f)
    simpa [State.pending, hb, hw] using h.books f
  exact ⟨hout.trans (hgot .out), herr.trans (hgot .err)⟩

/-- **`output` collects everything and cannot deadlock.** -/
theorem output_collects {w : World} {self : Command} {p : Proc} {c : Spawned}
    (hc : c ∈ (self.spawn w p).1) {as : List Action} (ha : ∀ a ∈ as, a.Plain)
    (hr : (system host c).run as = some s) :
    (∀ o, s.pc = .returned o → o.stdout = said .out (host.behaviour c.ended).1 ∧
      o.stderr = said .err (host.behaviour c.ended).1) ∧
    ¬ (s.ChildBlocked host ∧ s.ParentBlocked) := by
  have h := inv_run (spawn_started hc) ha hr
  exact ⟨fun o ho => h.returned ho, h.not_blocked⟩

/-- A program that writes more to stderr than the pipe holds before it writes to stdout. -/
theorem output_collects_chatty :
    let host : Host := ⟨fun _ => [.write .err [1, 2], .write .out [3], .close .err], fun _ => 0,
      fun _ => 1, fun _ => Nat.one_pos⟩
    ∃ c ∈ ((new [47, 97]).spawn .calm closed).1, ∃ as s o, (system host c).run as = some s ∧
      s.pc = .returned o ∧ o.stdout = [3] ∧ o.stderr = [1, 2] := by
  intro host
  have hc := Option.get_mem (show ((new [47, 97]).spawn .calm closed).1.isSome by decide)
  let as : List Action :=
    [.loop, .child 1, .poll (.ok [false, true]), .read (.ok 1), .child 1, .read (.ok 1),
      .read (.error Errno.EAGAIN), .child 0, .loop, .poll (.error Errno.EINTR), .child 1, .child 0,
      .child 0, .loop, .poll (.ok [true, true]), .read (.ok 1), .read (.error Errno.EAGAIN),
      .read (.ok 0), .loop, .child 0, .poll (.ok [true]), .read (.ok 0), .loop,
      .waitpid (.error Errno.EINTR), .waitpid (.ok 0)]
  have ha : ∀ a ∈ as, a.Plain := by
    simp [as, Action.Plain]
  have hrun : (((system host (((new [47, 97]).spawn .calm closed).1.get (by decide))).run as).any
      fun s => s.pc matches .returned _) = true := by decide +kernel
  obtain ⟨s, hr, hpc⟩ := (Option.any_eq_true _ _).1 hrun
  have h := (output_collects hc ha hr).1
  cases ho : s.pc with
  | returned o =>
    exact ⟨_, hc, as, s, o, hr, ho, (h o ho).1.trans (by decide +kernel),
      (h o ho).2.trans (by decide +kernel)⟩
  | _ => simp [ho] at hpc

end Ekostd.Command
