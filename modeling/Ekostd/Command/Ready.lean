/-
  `Child::read_ready` — when a call comes back.

  `take_ready` reads until the pipe is empty, which is up to the child: as long
  as it writes as fast as it is read, there is no end.  Only a stream that the
  child has closed gives a bound, by what is still in the pipe.

  * `caller`: a parent that calls `read_ready` again and again, with any
    timeouts, beside the child;
  * `ComesBack`: there is a bound on the reads of a call, whatever the child goes
    on to write;
  * `read_ready_comes_back`: exactly if no stream that is still read can be written to.
-/
import Ekostd.Command.Output

namespace Ekostd.Command

/-- `Child::read_ready` up to its `poll`. -/
def readReady (child : Child) (timeout : Option ℕ) : Pc :=
  let (fds, watched) := child.watch
  if fds = [] then .loop else .poll fds watched (Child.pollMs timeout)

/-- The actions within a call. -/
def Action.within : Action → Bool
  | .child _ | .poll _ | .read _ => true
  | .loop | .waitpid _ => false

/-- A call of `read_ready`, and the child. -/
def call (host : Host) (c : Spawned) : Sts State Action where
  init := (system host c).init
  step s a := if a.within then (system host c).step s a else none

/-- What a caller of `read_ready` does, and what goes on meanwhile. -/
inductive Move where
  | readReady (timeout : Option ℕ)
  | go (a : Action)

/-- A parent that calls `read_ready` as it likes. -/
def caller (host : Host) (c : Spawned) : Sts State Move where
  init := (system host c).init
  step s
    | .readReady timeout => match s.pc with
      | .loop => some { s with pc := readReady s.child timeout }
      | _ => none
    | .go a => (call host c).step s a

/-- A `read(2)`. -/
def Action.isRead : Action → Bool
  | .read _ => true
  | _ => false

/-- A `read(2)` that a signal has interrupted. -/
def Action.isInterrupted : Action → Bool
  | .read (.error e) => e = Errno.EINTR
  | _ => false

/-- There is a bound on the reads of a call, but for those that signals interrupt, whatever the
    child goes on to do and however the two take turns. -/
def ComesBack (host : Host) (c : Spawned) (s : State) (timeout : Option ℕ) : Prop :=
  ∃ bound, ∀ acts as t,
    (call host c).runFrom { s with pc := readReady s.child timeout, acts := acts } as = some t →
    as.countP Action.isRead ≤ bound + as.countP Action.isInterrupted

variable {host : Host} {c : Spawned} {s t : State} {a : Action} {f : Stream}

/-- **What happens within a call.** -/
theorem call_cases (h : (call host c).step s a = some t) :
    (∃ k, a = .child k ∧ stepChild host s k = some t) ∨
    (∃ fds watched ms answer, a = .poll answer ∧ s.pc = .poll fds watched ms ∧
      s.polls fds ms answer = true ∧ t = { s with
        child := (afterPoll s.child fds watched answer).1
        pc := (afterPoll s.child fds watched answer).2 }) ∨
    (∃ g fds watched answer, a = .read answer ∧ s.pc = .take g fds watched ∧
      stepRead s g fds watched answer = some t) := by
  cases a with
  | child k => exact .inl ⟨k, rfl, h⟩
  | loop => cases h
  | poll answer =>
    simp only [call, Action.within, if_true, system] at h
    split at h
    · next fds watched ms hpc =>
      split_ifs at h with hp
      exact .inr (.inl ⟨fds, watched, ms, answer, rfl, hpc, hp, (Option.some.inj h).symm⟩)
    · cases h
  | read answer =>
    simp only [call, Action.within, if_true, system] at h
    split at h
    · next g fds watched hpc => exact .inr (.inr ⟨g, fds, watched, answer, rfl, hpc, h⟩)
    · cases h
  | waitpid answer => cases h

/-! ## The pipes -/

/-- The two pipes are different ones, and hold no more than they can. -/
structure Piped (host : Host) (s : State) : Prop where
  ne : (s.child.pipe .out).read ≠ (s.child.pipe .err).read
  room : ∀ f, (s.buf f).bytes.length ≤ host.capacity f

theorem takeTurn_read (self : Pipe) (answer : Except Errno Bytes) :
    (self.takeTurn answer).1.read = self.read := by
  unfold Pipe.takeTurn
  split
  · rfl
  · rfl
  · split_ifs <;> rfl

theorem setPipe_read {pipe : Pipe} (h : pipe.read = (s.child.pipe f).read) (g : Stream) :
    ((s.child.setPipe f pipe).pipe g).read = (s.child.pipe g).read := by
  rw [Child.pipe_setPipe]
  split_ifs with hg
  · rw [h, hg]
  · rfl

theorem afterPoll_read (child : Child) (fds : List Pollfd) (watched : Bool × Bool)
    (answer : Except Errno (List Bool)) (g : Stream) :
    ((afterPoll child fds watched answer).1.pipe g).read = (child.pipe g).read := by
  unfold afterPoll
  split
  · split_ifs
    · rfl
    · cases g <;> rfl
  · split_ifs <;> rfl

theorem stepChild_room {k : ℕ} (h : stepChild host s k = some t)
    (hs : ∀ f, (s.buf f).bytes.length ≤ host.capacity f) (f : Stream) :
    (t.buf f).bytes.length ≤ host.capacity f := by
  unfold stepChild at h
  split at h
  · split_ifs at h
    cases h
    exact hs f
  · next g acts hacts =>
    cases h
    by_cases hf : f = g
    · subst hf
      simpa using hs f
    · simpa [hf] using hs f
  · next g bytes acts hacts =>
    dsimp only at h
    split_ifs at h with hnone hk
    · cases h
      exact hs f
    · cases h
      by_cases hf : f = g
      · subst hf
        simp only [Function.update_self, List.length_append, List.length_take]
        omega
      · simpa [hf] using hs f

theorem Piped.step (h : Piped host s) (ht : (call host c).step s a = some t) : Piped host t := by
  rcases call_cases ht with ⟨k, rfl, hchild⟩ | ⟨fds, watched, ms, answer, rfl, -, -, rfl⟩ |
    ⟨g, fds, watched, answer, rfl, -, hread⟩
  · obtain ⟨hc, -⟩ := stepChild_parent hchild
    exact ⟨by rw [hc]; exact h.ne, stepChild_room hchild h.room⟩
  · refine ⟨?_, h.room⟩
    rw [afterPoll_read, afterPoll_read]
    exact h.ne
  · obtain ⟨-, rfl⟩ := stepRead_some h.ne hread
    have hsame := setPipe_read (s := s) (f := g)
      (takeTurn_read (s.child.pipe g) (answer.map (s.buf g).bytes.take))
    refine ⟨?_, fun f => ?_⟩
    · rw [hsame, hsame]
      exact h.ne
    · by_cases hf : f = g
      · subst hf
        have hroom := h.room f
        simp only [Function.update_self, List.length_drop]
        omega
      · simpa [hf] using h.room f

theorem Piped.init {p q : Proc} (hc : c.Started p q) : Piped host (system host c).init := by
  refine ⟨fun hne => ?_, fun f => Nat.zero_le _⟩
  have hread := hc.out_read
  rw [show c.child.out.read = c.child.err.read from hne, hc.err_read] at hread
  simp at hread

theorem Piped.run {p q : Proc} (hc : c.Started p q) {ms : List Move}
    (hr : (caller host c).run ms = some s) : Piped host s := by
  refine Sts.Inductive.run (M := caller host c) ⟨.init hc, fun {s m s'} h hs => ?_⟩ hr
  cases m with
  | readReady timeout =>
    simp only [caller] at hs
    split at hs
    · cases hs
      exact ⟨h.ne, h.room⟩
    · cases hs
  | go a => exact h.step hs

/-! ## A bound -/

/-- What is still to be read of a stream: the bytes in its pipe, and then its end. -/
def State.weight (s : State) (f : Stream) : ℕ :=
  if (s.child.pipe f).done then 0 else (s.buf f).bytes.length + 1

/-- What is still to be read. -/
def State.left (s : State) : ℕ := s.weight .out + s.weight .err

theorem left_add_le {n : ℕ} (hf : t.weight f + n ≤ s.weight f)
    (hother : ∀ g, g ≠ f → t.weight g ≤ s.weight g) : t.left + n ≤ s.left := by
  unfold State.left
  cases f with
  | out =>
    have herr := hother .err (by decide)
    omega
  | err =>
    have hout := hother .out (by decide)
    omega

/-- What a call knows of the streams where it is. -/
def Pc.Serves (child : Child) : Pc → Prop
  | .poll _ watched _ => watched = (!child.out.done, !child.err.done)
  | .take .out _ watched => child.out.done = false ∧ watched.2 = !child.err.done
  | .take .err _ _ => child.err.done = false
  | _ => True

/-- Nothing comes any more on the streams that are still read. -/
structure Closed (host : Host) (s : State) : Prop extends Piped host s where
  closed : ∀ f, (s.child.pipe f).done = true ∨ (s.buf f).writer = false
  serves : s.pc.Serves s.child

theorem serves_readReady (child : Child) (timeout : Option ℕ) :
    (readReady child timeout).Serves child := by
  unfold readReady Child.watch
  dsimp only
  split_ifs <;> simp [Pc.Serves]

theorem serves_serveErr {child : Child} {fds : List Pollfd} {watched : Bool × Bool} {slot : ℕ}
    (h : watched.2 = !child.err.done) : (serveErr fds watched slot).Serves child := by
  unfold serveErr
  split_ifs with hw
  · simpa [Pc.Serves, h] using hw.1
  · trivial

theorem serves_serveOut {child : Child} {fds : List Pollfd} {watched : Bool × Bool}
    (h : watched = (!child.out.done, !child.err.done)) : (serveOut fds watched).Serves child := by
  subst h
  unfold serveOut
  split_ifs with hout
  · exact ⟨by simpa using hout, rfl⟩
  · exact serves_serveErr rfl
  · exact serves_serveErr rfl

/-- What a step costs: a read that is not interrupted is one. -/
def Action.cost (a : Action) : ℕ := if a.isRead ∧ ¬ a.isInterrupted then 1 else 0

theorem countP_isRead (as : List Action) :
    as.countP Action.isRead = (as.map Action.cost).sum + as.countP Action.isInterrupted := by
  induction as with
  | nil => rfl
  | cons a as ih =>
    have hcost : (if a.isRead then 1 else 0) = a.cost + if a.isInterrupted then 1 else 0 := by
      unfold Action.cost
      cases a with
      | read answer => cases h : (Action.read answer).isInterrupted <;> simp [Action.isRead]
      | _ => rfl
    rw [List.countP_cons, List.countP_cons, List.map_cons, List.sum_cons, ih]
    omega

theorem cost_le_one (a : Action) : a.cost ≤ 1 := by
  unfold Action.cost
  split_ifs <;> omega

/-- A turn takes what it costs off what is left, and goes on only before the end. -/
def Turned (b : Buffer) (answer : Except Errno ℕ) (turn : Pipe × Bool) : Prop :=
  (if turn.1.done then 0 else (b.bytes.drop (answer.toOption.getD 0)).length + 1) +
    (Action.read answer).cost ≤ b.bytes.length + 1 ∧
  (turn.2 = true → turn.1.done = false)

theorem turned_end (b : Buffer) (answer : Except Errno ℕ) (self : Pipe) :
    Turned b answer ({ self with done := true }, false) := by
  refine ⟨?_, fun h => absurd h (by simp)⟩
  have hone := cost_le_one (.read answer)
  rw [if_pos rfl]
  omega

/-- **A turn of `take_ready`** on a stream that is closed reads some of what is left, or is
    interrupted. -/
theorem turned_takeTurn {b : Buffer} {answer : Except Errno ℕ} {self : Pipe}
    (hr : b.reads answer = true) (hw : b.writer = false) (hd : self.done = false) :
    Turned b answer (self.takeTurn (answer.map b.bytes.take)) := by
  cases answer with
  | error e =>
    by_cases hintr : e = Errno.EINTR
    · subst hintr
      have hturn : self.takeTurn (.error Errno.EINTR) = (self, true) := rfl
      rw [Except.map, hturn]
      simp [Turned, hd, Action.cost, Action.isInterrupted, Except.toOption]
    · have hagain : e ≠ Errno.EAGAIN := by
        rintro rfl
        simp [Buffer.reads, hw] at hr
      have hturn : self.takeTurn (.error e) = ({ self with done := true }, false) := by
        simp only [Pipe.takeTurn, if_neg hintr]
        rw [if_pos ⟨hagain, hagain⟩]
      rw [Except.map, hturn]
      exact turned_end b _ self
  | ok n =>
    cases n with
    | zero => exact turned_end b _ self
    | succ n =>
      have hle : n + 1 ≤ b.bytes.length := by
        simp only [Buffer.reads, decide_eq_true_eq] at hr
        exact hr.2
      obtain ⟨x, chunk, hchunk⟩ : ∃ x chunk, b.bytes.take (n + 1) = x :: chunk :=
        List.exists_cons_of_length_pos (by rw [List.length_take]; omega)
      have hturn : self.takeTurn ((Except.ok (n + 1)).map b.bytes.take) =
          ({ self with got := self.got ++ x :: chunk }, true) := by
        simp only [Except.map, hchunk, Pipe.takeTurn]
      have hone := cost_le_one (.read (.ok (n + 1)))
      rw [hturn]
      refine ⟨?_, fun _ => hd⟩
      simp only [hd, Except.toOption, Option.getD_some, List.length_drop]
      rw [if_neg (by simp)]
      omega

theorem Closed.of_child (h : Closed host s) {k : ℕ} (ht : stepChild host s k = some t) :
    (∀ f, (t.child.pipe f).done = true ∨ (t.buf f).writer = false) ∧ t.left = s.left := by
  obtain ⟨hc, -⟩ := stepChild_parent ht
  have hweight : ∀ f, ((t.child.pipe f).done = true ∨ (t.buf f).writer = false) ∧
      t.weight f = s.weight f := by
    intro f
    rw [State.weight, State.weight, hc]
    rcases h.closed f with hd | hw
    · simp [hd]
    · obtain ⟨hbytes, hw'⟩ := stepChild_closed ht hw
      exact ⟨.inr hw', by rw [hbytes]⟩
  exact ⟨fun f => (hweight f).1, by rw [State.left, State.left, (hweight .out).2, (hweight .err).2]⟩

theorem Closed.of_poll (h : Closed host s) {fds : List Pollfd} {watched : Bool × Bool} {ms : ℤ}
    (hpc : s.pc = .poll fds watched ms) (answer : Except Errno (List Bool)) :
    (∀ f, ((afterPoll s.child fds watched answer).1.pipe f).done = true ∨
      (s.child.pipe f).done = ((afterPoll s.child fds watched answer).1.pipe f).done) ∧
    (afterPoll s.child fds watched answer).2.Serves (afterPoll s.child fds watched answer).1 := by
  have hserves := h.serves
  rw [hpc] at hserves
  unfold afterPoll
  split
  · split_ifs
    · exact ⟨fun f => .inr rfl, trivial⟩
    · refine ⟨fun f => .inl ?_, trivial⟩
      cases f <;> rfl
  · split_ifs
    · exact ⟨fun f => .inr rfl, serves_serveOut hserves⟩
    · exact ⟨fun f => .inr rfl, trivial⟩

theorem serves_afterTake {child : Child} {fds : List Pollfd} {watched : Bool × Bool}
    (h : (Pc.take f fds watched).Serves child) (pipe : Pipe) :
    (afterTake f fds watched).Serves (child.setPipe f pipe) := by
  cases f with
  | out =>
    have herr : watched.2 = !(child.setPipe .out pipe).err.done := h.2
    exact serves_serveErr herr
  | err => trivial

theorem serves_take {child : Child} {fds : List Pollfd} {watched : Bool × Bool}
    (h : (Pc.take f fds watched).Serves child) {pipe : Pipe} (hd : pipe.done = false) :
    (Pc.take f fds watched).Serves (child.setPipe f pipe) := by
  cases f with
  | out => exact ⟨hd, h.2⟩
  | err => exact hd

theorem Pc.Serves.done {child : Child} {fds : List Pollfd} {watched : Bool × Bool}
    (h : (Pc.take f fds watched).Serves child) : (child.pipe f).done = false := by
  cases f with
  | out => exact h.1
  | err => exact h

/-- **A step within a call** takes its cost off what is left, where nothing more comes. -/
theorem Closed.step (h : Closed host s) (ht : (call host c).step s a = some t) :
    Closed host t ∧ t.left + a.cost ≤ s.left := by
  have hpiped := h.toPiped.step ht
  rcases call_cases ht with ⟨k, rfl, hchild⟩ | ⟨fds, watched, ms, answer, rfl, hpc, -, rfl⟩ |
    ⟨g, fds, watched, answer, rfl, hpc, hread⟩
  · obtain ⟨hclosed, hleft⟩ := h.of_child hchild
    obtain ⟨hc, hpc⟩ := stepChild_parent hchild
    exact ⟨⟨hpiped, hclosed, by rw [hc, hpc]; exact h.serves⟩, hleft.le⟩
  · obtain ⟨hdone, hserves⟩ := h.of_poll hpc answer
    refine ⟨⟨hpiped, fun f => ?_, hserves⟩, ?_⟩
    · rcases hdone f with hd | hd
      · exact .inl hd
      · exact (h.closed f).imp_left fun hold => hd ▸ hold
    · have hweight : ∀ f, State.weight { s with
          child := (afterPoll s.child fds watched answer).1
          pc := (afterPoll s.child fds watched answer).2 } f ≤ s.weight f := by
        intro f
        unfold State.weight
        rcases hdone f with hd | hd
        · simp [hd]
        · rw [hd]
      exact @left_add_le _ _ .out 0 (hweight .out) fun g _ => hweight g
  · obtain ⟨hr, rfl⟩ := stepRead_some h.ne hread
    have hserves := h.serves
    rw [hpc] at hserves
    have hd := hserves.done
    have hw := (h.closed g).resolve_left (by simp [hd])
    obtain ⟨hleft, hgoes⟩ := turned_takeTurn hr hw hd
    refine ⟨⟨hpiped, fun f => ?_, ?_⟩, ?_⟩
    · by_cases hf : f = g
      · subst hf
        exact .inr (by simpa using hw)
      · simpa [Child.pipe_setPipe, hf] using h.closed f
    · dsimp only
      split_ifs with hon
      · rw [hpc]
        exact serves_take hserves (hgoes hon)
      · exact serves_afterTake hserves _
    · refine @left_add_le _ _ g _ ?_ fun f hf => ?_
      · have hmine : s.weight g = (s.buf g).bytes.length + 1 := by simp [State.weight, hd]
        rw [hmine]
        refine le_of_eq_of_le ?_ hleft
        simp [State.weight, Child.pipe_setPipe]
      · simp [State.weight, Child.pipe_setPipe, hf]

/-- **Where nothing more comes there is a bound.** -/
theorem comesBack_of_closed (hp : Piped host s)
    (h : ∀ f, (s.child.pipe f).done = true ∨ (s.buf f).writer = false) (timeout : Option ℕ) :
    ComesBack host c s timeout := by
  refine ⟨s.left, fun acts as t hr => ?_⟩
  have hstart : Closed host { s with pc := readReady s.child timeout, acts := acts } :=
    ⟨⟨hp.ne, hp.room⟩, h, serves_readReady s.child timeout⟩
  have hcost := Sts.cost_le (M := call host c) (fun hs ha => hs.step ha) hstart hr
  rw [countP_isRead]
  exact Nat.add_le_add_right hcost _

/-! ## A child that keeps writing -/

/-- The pipe of a stream is not empty, and the child has at least `n` more bytes to write to it. -/
structure Feeds (host : Host) (f : Stream) (n : ℕ) (s : State) : Prop extends Piped host s where
  there : (s.buf f).bytes ≠ []
  writer : (s.buf f).writer = true
  acts : ∃ bytes, s.acts = [.write f bytes] ∧ n ≤ bytes.length

/-- Such a stream is what `take_ready` reads. -/
structure Refills (host : Host) (f : Stream) (n : ℕ) (s : State) : Prop
    extends Feeds host f n s where
  taking : ∃ fds watched, s.pc = .take f fds watched

/-- `s` when `b` was read from the stream `f`, with `bs` left in its pipe. -/
def State.taken (s : State) (f : Stream) (b : UInt8) (bs : Bytes) : State := { s with
  child := s.child.setPipe f { s.child.pipe f with got := (s.child.pipe f).got ++ [b] }
  buf := Function.update s.buf f { s.buf f with bytes := bs } }

/-- `s` when the child has written the first of `bytes` to the stream `f`. -/
def State.wrote (s : State) (f : Stream) (bytes : Bytes) : State := { s with
  buf := Function.update s.buf f { s.buf f with bytes := (s.buf f).bytes ++ bytes.take 1 }
  acts := [.write f (bytes.drop 1)] }

theorem call_read_one {b : UInt8} {bs : Bytes} {fds : List Pollfd} {watched : Bool × Bool}
    (hne : (s.child.pipe .out).read ≠ (s.child.pipe .err).read) (hpc : s.pc = .take f fds watched)
    (hb : (s.buf f).bytes = b :: bs) :
    (call host c).step s (.read (.ok 1)) = some (s.taken f b bs) := by
  have hr : (s.buf f).reads (.ok 1) = true := by simp [Buffer.reads, hb]
  have hturn : (s.child.pipe f).takeTurn ((Except.ok 1).map (s.buf f).bytes.take) =
      ({ s.child.pipe f with got := (s.child.pipe f).got ++ [b] }, true) := by
    simp [Except.map, hb, Pipe.takeTurn]
  simp only [call, Action.within, if_true, system, hpc, stepRead, streamOf_read hne, hr, hturn]
  simp [hb, Except.toOption, State.taken, hpc]

theorem call_write_one {bytes : Bytes} (hacts : s.acts = [.write f bytes]) (hne : bytes ≠ [])
    (hw : (s.buf f).writer = true) (hroom : (s.buf f).bytes.length + 1 ≤ host.capacity f) :
    (call host c).step s (.child 1) = some (s.wrote f bytes) := by
  have hgoes : ¬ (bytes = [] ∨ (!(s.buf f).writer) = true) := by simp [hne, hw]
  have hfits : 0 < 1 ∧ 1 ≤ bytes.length ∧ (s.buf f).bytes.length + 1 ≤ host.capacity f :=
    ⟨Nat.one_pos, List.length_pos_of_ne_nil hne, hroom⟩
  show stepChild host s 1 = some (s.wrote f bytes)
  simp only [stepChild, hacts, if_neg hgoes, if_pos hfits, State.wrote]

/-- **A round**: one byte is read, and the child writes the next. -/
theorem Refills.round {n : ℕ} (h : Refills host f (n + 1) s) :
    ∃ t, (call host c).runFrom s [.read (.ok 1), .child 1] = some t ∧ Refills host f n t := by
  obtain ⟨fds, watched, hpc⟩ := h.taking
  obtain ⟨bytes, hacts, hn⟩ := h.acts
  obtain ⟨b, bs, hbytes⟩ := List.exists_cons_of_ne_nil h.there
  have hroom := h.room f
  rw [hbytes, List.length_cons] at hroom
  have hsome : bytes ≠ [] := List.ne_nil_of_length_pos (by omega)
  have h₁ : (call host c).step s (.read (.ok 1)) = some (s.taken f b bs) :=
    call_read_one h.ne hpc hbytes
  have h₂ : (call host c).step (s.taken f b bs) (.child 1) =
      some ((s.taken f b bs).wrote f bytes) := by
    refine call_write_one hacts hsome ?_ ?_
    · simpa [State.taken] using h.writer
    · simpa [State.taken] using hroom
  refine ⟨_, by simp [h₁, h₂], ⟨(h.toPiped.step h₁).step h₂, ?_, ?_, _, rfl, ?_⟩,
    fds, watched, hpc⟩
  · simp [State.wrote, hsome]
  · simpa [State.wrote, State.taken] using h.writer
  · rw [List.length_drop]
    omega

theorem serveOut_take {child : Child} (hne : (child.pipe .out).read ≠ (child.pipe .err).read)
    (hd : (child.pipe f).done = false) :
    ∃ fds, serveOut (child.watch.1.zipWith (fun p r => { p with revents := r })
      (child.watch.1.map fun p => decide (p.fd = (child.pipe f).read))) child.watch.2 =
        .take f fds child.watch.2 := by
  simp only [Child.pipe] at hne
  cases f with
  | out =>
    simp only [Child.pipe] at hd
    cases herr : child.err.done <;> simp [Child.watch, Child.pipe, hd, herr, serveOut]
  | err =>
    simp only [Child.pipe] at hd
    cases hout : child.out.done <;>
      simp [Child.watch, Child.pipe, hd, hout, hne, serveOut, serveErr]

/-- **A call gets to read a stream** that is not empty. -/
theorem Feeds.poll {n : ℕ} (h : Feeds host f n s) (hd : (s.child.pipe f).done = false)
    {timeout : Option ℕ} (hpc : s.pc = readReady s.child timeout) :
    ∃ answer t, (call host c).step s (.poll answer) = some t ∧ Refills host f n t := by
  have hmem : ⟨(s.child.pipe f).read, false⟩ ∈ s.child.watch.1 := s.child.mem_watch.2 ⟨f, hd, rfl⟩
  have hpoll : readReady s.child timeout =
      .poll s.child.watch.1 s.child.watch.2 (Child.pollMs timeout) :=
    if_neg (List.ne_nil_of_mem hmem)
  let found : Pollfd → Bool := fun p => decide (p.fd = (s.child.pipe f).read)
  have htrue : true ∈ s.child.watch.1.map found := List.mem_map.2 ⟨_, hmem, by simp [found]⟩
  have hpolls : s.polls s.child.watch.1 (Child.pollMs timeout) (.ok (s.child.watch.1.map found)) =
      true := by
    refine polls_map (fun p _ hp => ?_) ⟨_, hmem, by simp [found]⟩
    have hfd : p.fd = (s.child.pipe f).read := by simpa [found] using hp
    have hstream := streamOf_read h.ne f
    rw [← hfd] at hstream
    simp [State.ready, hstream, h.there]
  obtain ⟨fds, htake⟩ := serveOut_take h.ne hd
  have hafter : afterPoll s.child s.child.watch.1 s.child.watch.2
      (.ok (s.child.watch.1.map found)) =
      (s.child, .take f fds s.child.watch.2) := by
    rw [← htake]
    exact if_neg (not_not.2 htrue)
  have hstep : (call host c).step s (.poll (.ok (s.child.watch.1.map found))) =
      some { s with pc := .take f fds s.child.watch.2 } := by
    simp only [call, Action.within, if_true, system, hpc, hpoll, hpolls, hafter]
  exact ⟨_, _, hstep, ⟨h.toPiped.step hstep, h.there, h.writer, h.acts⟩, fds, _, rfl⟩

theorem exists_feeds (hp : Piped host s) (hw : (s.buf f).writer = true) (n : ℕ) :
    ∃ acts as t, (call host c).runFrom { s with acts := acts } as = some t ∧
      Feeds host f n t ∧ t.child = s.child ∧ t.pc = s.pc := by
  by_cases hempty : (s.buf f).bytes = []
  · let s₁ : State := { s with acts := [.write f (0 :: List.replicate n 0)] }
    let s₂ : State := { s₁ with
      buf := Function.update s.buf f { s.buf f with bytes := [0] }
      acts := [.write f (List.replicate n 0)] }
    have hcap := host.capacity_pos f
    have hstep : (call host c).step s₁ (.child 1) = some s₂ := by
      show stepChild host s₁ 1 = some s₂
      simp [stepChild, s₁, s₂, hw, hempty, hcap.ne']
    have hpiped : Piped host s₁ := ⟨hp.ne, hp.room⟩
    have hrun : (call host c).runFrom s₁ [.child 1] = some s₂ := by
      rw [Sts.runFrom_cons, hstep]
      rfl
    refine ⟨[.write f (0 :: List.replicate n 0)], [.child 1], s₂, hrun,
      ⟨hpiped.step hstep, ?_, ?_, _, rfl, by simp⟩, rfl, rfl⟩
    · simp [s₂]
    · simpa [s₂] using hw
  · exact ⟨[.write f (List.replicate n 0)], [], _, rfl,
      ⟨⟨hp.ne, hp.room⟩, hempty, hw, _, rfl, by simp⟩, rfl, rfl⟩

/-- **A child that keeps writing** keeps the call from coming back. -/
theorem not_comesBack (hp : Piped host s) (hd : (s.child.pipe f).done = false)
    (hw : (s.buf f).writer = true) (timeout : Option ℕ) : ¬ ComesBack host c s timeout := by
  rintro ⟨bound, h⟩
  let s₀ : State := { s with pc := readReady s.child timeout }
  obtain ⟨acts, as, s₁, h₁, hfeeds, hchild, hpc⟩ :=
    exists_feeds (c := c) (s := s₀) ⟨hp.ne, hp.room⟩ hw (bound + 1)
  have hcall : s₁.pc = readReady s₁.child timeout := by rw [hpc, hchild]
  obtain ⟨answer, s₂, h₂, hrefills⟩ := hfeeds.poll (c := c) (by rw [hchild]; exact hd) hcall
  have hround : ∀ {n s}, Refills host f (n + 1) s → ∃ as t,
      (call host c).runFrom s as = some t ∧ Refills host f n t ∧ 1 ≤ (as.map Action.cost).sum := by
    intro n s h
    obtain ⟨t, ht, hn⟩ := h.round (c := c)
    exact ⟨_, t, ht, hn, le_of_eq rfl⟩
  obtain ⟨bs, t, h₃, hcost⟩ := Sts.exists_run_cost hround hrefills
  have hrun : (call host c).runFrom { s with pc := readReady s.child timeout, acts := acts }
      (as ++ .poll answer :: bs) = some t := by
    rw [Sts.runFrom_append, h₁, Option.bind_some, Sts.runFrom_cons, h₂]
    exact h₃
  have hle := h acts _ t hrun
  rw [countP_isRead, List.map_append, List.sum_append, List.map_cons, List.sum_cons] at hle
  omega

/-- **When a call comes back**: in every state that a caller gets to and with every timeout, exactly
    if a stream that is still read can be written no more: by the child, or by whoever else has the
    write end of it. -/
theorem read_ready_comes_back {w : World} {self : Command} {p : Proc}
    (hc : c ∈ (self.spawn w p).1) {ms : List Move} (hr : (caller host c).run ms = some s)
    (timeout : Option ℕ) :
    ComesBack host c s timeout ↔ ∀ f, (s.child.pipe f).done = true ∨ (s.buf f).writer = false := by
  have hp := Piped.run (spawn_started hc) hr
  constructor
  · intro h f
    by_contra hnot
    rw [not_or, Bool.not_eq_true, Bool.not_eq_false] at hnot
    exact not_comesBack hp hnot.1 hnot.2 timeout h
  · exact fun h => comesBack_of_closed hp h timeout

/-- A host on which programs do nothing. -/
def quiet : Host := ⟨fun _ => [], fun _ => 0, fun _ => 1, fun _ => Nat.one_pos⟩

/-- `/a` has been spawned, and exits. -/
theorem read_ready_comes_back_exited :
    ∃ c ∈ ((new [47, 97]).spawn .calm closed).1, ∃ s,
      (caller quiet c).run [.go (.child 0)] = some s ∧ (ComesBack quiet c s (some 0) ↔
        ∀ f, (s.child.pipe f).done = true ∨ (s.buf f).writer = false) := by
  have hc := Option.get_mem (show ((new [47, 97]).spawn .calm closed).1.isSome by decide)
  have hrun : ((caller quiet (((new [47, 97]).spawn .calm closed).1.get (by decide))).run
      [.go (.child 0)]).isSome := by decide +kernel
  obtain ⟨s, hr⟩ := Option.isSome_iff_exists.1 hrun
  exact ⟨_, hc, s, hr, read_ready_comes_back hc hr (some 0)⟩

/-- **`/a` has just been spawned**: there is no bound on the reads of a call, even with a timeout of
    zero. -/
theorem read_ready_stays :
    ∃ c ∈ ((new [47, 97]).spawn .calm closed).1,
      ¬ ComesBack quiet c (caller quiet c).init (some 0) := by
  have hc := Option.get_mem (show ((new [47, 97]).spawn .calm closed).1.isSome by decide)
  have hstarted := spawn_started hc
  exact ⟨_, hc, @not_comesBack _ _ _ .out (.init hstarted) hstarted.out_new.1 rfl (some 0)⟩

end Ekostd.Command
