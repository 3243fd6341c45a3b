/-
  Who owns the descriptors: `File`, `socket::Fd` and `command::Pipe`.

  Each of these closes its descriptor when it is dropped.  A process makes and
  drops them in any order, in a table that others have descriptors in too; calls
  may fail at any point.

  * `Handle`, `Event`, `Process.step`: what the process does;
  * `Makes`: what a function leaves in the table that it was given;
  * `handles_own_descriptors`: at any time the descriptors that were opened here
    and are open are those of the handles, and nobody else's are touched.
-/
import Ekostd.Command.Spawn
import Ekostd.File.Open
import Ekostd.Lib.Parts
import Ekostd.Lib.Sts
import Ekostd.Socket.Address

namespace Ekostd

open PosixFs PosixName
open PosixFd (Desc)
open Command (Proc Pipe Child)

/-! ## Calls on the table -/

/-- A call on the table; `fd` is the descriptor that was opened by those before it.  A `close` that
    reports an error has closed it all the same. -/
def perform (answer : Syscall → Option Errno) (s : Option ℕ × Proc) (c : Syscall) :
    Option (Option ℕ × Proc) :=
  match c.name with
  | .close => some (none, s.1.elim s.2 s.2.close)
  | .open flags =>
    if (answer c).isSome then some s
    else (s.2.openFile (cstr (c.buffers.headD [])) (decide (OpenFlag.O_CLOEXEC ∈ flags))).map
      fun (n, p) => (some n, p)
  | .socket =>
    if (answer c).isSome then some s
    else (s.2.openFile [] false).map fun (n, p) => (some n, p)
  | _ => some s

/-- The calls of a function, and the descriptor that it leaves open; `none` if an answer is not what
    the table can give. -/
def performs (answer : Syscall → Option Errno) (d : Done) (p : Proc) : Option (Option ℕ × Proc) :=
  d.calls.foldlM (perform answer) (none, p)

/-- `Listener::accept`, by the answers of the calls; `none` if it waits. -/
def Socket.Listener.accept : List (Option Errno) → Proc → Option (Option ℕ × Proc)
  | [], _ => none
  | some e :: answers, p =>
    if e = Errno.EINTR then Socket.Listener.accept answers p else some (none, p)
  | none :: _, p => (p.openFile [] false).map fun (n, p) => (some n, p)

/-- `Fd::duplicate`. -/
def Socket.duplicate (fd : ℕ) (answer : Option Errno) (p : Proc) : Option (Option ℕ × Proc) :=
  match answer with
  | some _ => some (none, p)
  | none => (p.dup fd).map fun (n, p) => (some n, p)

/-! ## The process -/

/-- What owns descriptors. -/
inductive Handle where
  | file (fd : ℕ)
  | listener (fd : ℕ)
  | stream (fd : ℕ)
  | lines (fd : ℕ)
  | child (c : Child)

/-- The descriptors of a pipe. -/
def Command.Pipe.fds (self : Pipe) : List ℕ := self.read :: self.write.toList

/-- The descriptors that are closed with it. -/
def Handle.fds : Handle → List ℕ
  | .file fd | .listener fd | .stream fd | .lines fd => [fd]
  | .child c => c.out.fds ++ c.err.fds

/-- `drop`. -/
def Handle.drop : Handle → Proc → Proc
  | .file fd, p | .listener fd, p | .stream fd, p | .lines fd, p => p.close fd
  | .child c, p => c.err.drop (c.out.drop p)

/-- The table, what the variables hold, and for each of them and for all others what their
    descriptors were opened as. -/
structure Process where
  table : Proc
  handles : ℕ → Option Handle
  parts : Option ℕ → ℕ → Option (Desc Bytes)

/-- What happens; `x` is the variable that gets the handle. -/
inductive Event where
  | opens (x : ℕ) (o : File.Opener) (answer : Syscall → Option Errno) (path : Bytes)
  | bind (x sunPath : ℕ) (answer : Syscall → Option Errno) (path : Bytes) (backlog : ℤ)
  | connect (x sunPath : ℕ) (answer : Syscall → Option Errno) (path : Bytes)
  | accept (x listener : ℕ) (answers : List (Option Errno))
  | duplicate (x stream : ℕ) (answer : Option Errno)
  | lines (x : ℕ)
  | spawn (x : ℕ) (w : Command.World) (command : Command)
  | drop (x : ℕ)
  /-- Others open a file, or close one of theirs. -/
  | othersOpen (name : Bytes) (cloexec : Bool)
  | othersClose (fd : ℕ)

namespace Process

/-- A variable gets a handle, whose descriptors have just been opened. -/
def hold (s : Process) (x : ℕ) (h : Handle) (table : Proc) : Process where
  table := table
  handles := Function.update s.handles x (some h)
  parts := Function.update s.parts (some x) fun n => if n ∈ h.fds then table.fd n else none

/-- A function has left a descriptor, or failed. -/
def leave (s : Process) (x : ℕ) (h : ℕ → Handle) : Option ℕ × Proc → Process
  | (some n, table) => s.hold x (h n) table
  | (none, table) => { s with table }

def step (s : Process) : Event → Option Process
  | .opens x o answer path =>
    if (s.handles x).isNone then
      (performs answer ((File.PathCall.opener o).run answer path) s.table).map (s.leave x .file)
    else none
  | .bind x sunPath answer path backlog =>
    if (s.handles x).isNone then
      (performs answer (Socket.Listener.bind sunPath answer path backlog) s.table).map
        (s.leave x .listener)
    else none
  | .connect x sunPath answer path =>
    if (s.handles x).isNone then
      (performs answer (Socket.Stream.connect sunPath answer path) s.table).map
        (s.leave x .stream)
    else none
  | .accept x l answers =>
    match s.handles x, s.handles l with
    | none, some (.listener _) =>
      (Socket.Listener.accept answers s.table).map (s.leave x .stream)
    | _, _ => none
  | .duplicate x y answer =>
    match s.handles x, s.handles y with
    | none, some (.stream fd) => (Socket.duplicate fd answer s.table).map (s.leave x .stream)
    | _, _ => none
  | .lines x =>
    match s.handles x with
    | some (.stream fd) => some { s with handles := Function.update s.handles x (some (.lines fd)) }
    | _ => none
  | .spawn x w command =>
    if (s.handles x).isNone then
      match command.spawn w s.table with
      | (some c, table) => some (s.hold x (.child c.child) table)
      | (none, table) => some { s with table }
    else none
  | .drop x =>
    (s.handles x).map fun h =>
      ⟨h.drop s.table, Function.update s.handles x none,
        Function.update s.parts (some x) fun _ => none⟩
  | .othersOpen name cloexec =>
    (s.table.openFile name cloexec).map fun (n, table) => { s with
      table
      parts := Function.update s.parts none (Function.update (s.parts none) n (table.fd n)) }
  | .othersClose fd =>
    if (s.parts none fd).isSome then some { s with
      table := s.table.close fd
      parts := Function.update s.parts none (Function.update (s.parts none) fd none) }
    else none

/-- A process that starts with descriptors of others. -/
def system (start : Proc) : Sts Process Event where
  init := ⟨start, fun _ => none, fun o => if o = none then start.fd else fun _ => none⟩
  step := step

end Process

/-! ## What a function leaves in the table -/

/-- The descriptors of `S` are new, and nothing else has changed. -/
structure Makes (S : Set ℕ) (p q : Proc) : Prop where
  same : ∀ n, n ∉ S → q.fd n = p.fd n
  new : ∀ n, n ∈ S → p.fd n = none ∧ q.fd n ≠ none

variable {p q r : Proc} {S T : Set ℕ} {n : ℕ} {answer : Syscall → Option Errno} {d : Done}
  {c : Syscall} {o : Option ℕ}

theorem Makes.refl (p : Proc) : Makes ∅ p p where
  same _ _ := rfl
  new n hn := absurd hn (Set.notMem_empty n)

theorem Makes.trans (h : Makes S p q) (h' : Makes T q r) : Makes (S ∪ T) p r := by
  constructor
  · intro n hn
    rw [h'.same n fun hT => hn (.inr hT), h.same n fun hS => hn (.inl hS)]
  · intro n hn
    by_cases hT : n ∈ T
    · have hS : n ∉ S := fun hS => (h.new n hS).2 (h'.new n hT).1
      exact ⟨by rw [← h.same n hS, (h'.new n hT).1], (h'.new n hT).2⟩
    · have hS : n ∈ S := hn.resolve_right hT
      exact ⟨(h.new n hS).1, by rw [h'.same n hT]; exact (h.new n hS).2⟩

theorem Makes.disjoint (h : Makes S p q) (h' : Makes T q r) (hS : n ∈ S) : n ∉ T :=
  fun hT => (h.new n hS).2 (h'.new n hT).1

/-- **What was made is closed again.** -/
theorem Makes.close (h : Makes S p q) (hn : n ∈ S) : Makes (S \ {n}) p (q.close n) := by
  constructor
  · intro m hm
    by_cases hmn : m = n
    · subst hmn
      rw [PosixFd.Proc.close_self, (h.new m hn).1]
    · rw [PosixFd.Proc.close_of_ne hmn]
      exact h.same m fun hS => hm ⟨hS, hmn⟩
  · rintro m ⟨hS, hmn⟩
    rw [PosixFd.Proc.close_of_ne hmn]
    exact h.new m hS

theorem makes_allocated {k : ℕ} {desc : Desc Bytes}
    (h : PosixFd.Proc.Allocated k desc n p q) : Makes {n} p q := by
  constructor
  · intro m hm
    exact h.fd_of_ne hm
  · rintro m rfl
    exact ⟨h.free, by simp [h.fd_self]⟩

theorem makes_openFile {name : Bytes} {cloexec : Bool} (h : p.openFile name cloexec = some (n, q)) :
    Makes {n} p q := by
  have hmade := makes_allocated (PosixFd.Proc.openFile_eq_some h)
  exact ⟨hmade.same, hmade.new⟩

/-- What a function does that opens one descriptor: it leaves it, or nothing. -/
def Leaves (p : Proc) : Option ℕ × Proc → Prop
  | (some n, q) => Makes {n} p q
  | (none, q) => Makes ∅ p q

/-- A call that neither opens nor closes. -/
def Neutral (c : Syscall) : Prop := ∀ answer s, perform answer s c = some s

theorem foldlM_neutral {calls : List Syscall} (h : ∀ c ∈ calls, Neutral c)
    (s : Option ℕ × Proc) : calls.foldlM (perform answer) s = some s := by
  induction calls with
  | nil => rfl
  | cons c calls ih =>
    rw [List.foldlM_cons, h c List.mem_cons_self answer s]
    exact ih fun c' hc' => h c' (List.mem_cons_of_mem c hc')

/-- A call that opens a descriptor. -/
def Opening (c : Syscall) : Prop := (∃ flags, c.name = .open flags) ∨ c.name = .socket

theorem perform_opening (hopen : Opening c) (hc : answer c = none) {s : Option ℕ × Proc}
    (h : perform answer (none, p) c = some s) : ∃ n q, s = (some n, q) ∧ Makes {n} p q := by
  have hno : (answer c).isSome = false := by rw [hc, Option.isSome_none]
  rcases hopen with ⟨flags, hname⟩ | hname
  all_goals
    simp only [perform, hname, hno, Bool.false_eq_true, if_false] at h
    obtain ⟨⟨n, q⟩, hopen, rfl⟩ := Option.map_eq_some_iff.1 h
    exact ⟨n, q, rfl, makes_openFile hopen⟩

theorem perform_opening_fails (hopen : Opening c) {e : Errno} (hc : answer c = some e) :
    perform answer (none, p) c = some (none, p) := by
  have hyes : (answer c).isSome = true := by rw [hc, Option.isSome_some]
  rcases hopen with ⟨flags, hname⟩ | hname <;> simp only [perform, hname, hyes, if_true]

/-- **What is opened is closed again** if what follows fails. -/
theorem performs_closing (hopen : Opening c) (hd : ∀ c' ∈ d.calls, Neutral c')
    {s : Option ℕ × Proc}
    (h : performs answer (call answer c (closing d)) p = some s) : Leaves p s := by
  rw [performs, call] at h
  cases hc : answer c with
  | some e =>
    rw [hc] at h
    rw [List.foldlM_cons, perform_opening_fails hopen hc] at h
    cases h
    exact .refl p
  | none =>
    rw [hc] at h
    rw [List.foldlM_cons] at h
    obtain ⟨s₁, h₁, h⟩ := Option.bind_eq_some_iff.1 h
    obtain ⟨n, q, rfl, hmakes⟩ := perform_opening hopen hc h₁
    rw [closing] at h
    split_ifs at h with hfailed
    · rw [foldlM_neutral hd] at h
      cases h
      exact hmakes
    · rw [List.foldlM_append, foldlM_neutral hd] at h
      cases h
      have hclosed := hmakes.close (Set.mem_singleton n)
      rwa [Set.sdiff_self] at hclosed

theorem leaves_opener (f : File.Opener) (path : Bytes) {s : Option ℕ × Proc}
    (h : performs answer ((File.PathCall.opener f).run answer path) p = some s) : Leaves p s := by
  exact performs_closing (d := done) (.inl ⟨f.flags, rfl⟩) (by simp [done]) h

theorem leaves_socket {sunPath : ℕ} {path : Bytes} {next : Bytes → Done}
    (hnext : ∀ addr, ∀ c ∈ (next addr).calls, Neutral c) {s : Option ℕ × Proc}
    (h : performs answer (call answer ⟨.socket, []⟩ (Socket.withAddress sunPath path next)) p =
      some s) : Leaves p s := by
  rw [Socket.withAddress] at h
  refine performs_closing (.inr rfl) ?_ h
  cases Socket.address sunPath path with
  | error e => simp [fail]
  | ok addr => exact hnext addr

theorem mem_call {c' : Syscall} (h : c' ∈ (call answer c d).calls) : c' = c ∨ c' ∈ d.calls := by
  rw [call] at h
  split at h
  · exact .inl (List.mem_singleton.1 h)
  · exact List.mem_cons.1 h

theorem leaves_bind (sunPath : ℕ) (path : Bytes) (backlog : ℤ) {s : Option ℕ × Proc}
    (h : performs answer (Socket.Listener.bind sunPath answer path backlog) p = some s) :
    Leaves p s := by
  refine leaves_socket (fun addr c hc => ?_) h
  rcases mem_call hc with rfl | hc
  · exact fun _ _ => rfl
  · rcases mem_call hc with rfl | hc
    · exact fun _ _ => rfl
    · simp [done] at hc

theorem leaves_connect (sunPath : ℕ) (path : Bytes) {s : Option ℕ × Proc}
    (h : performs answer (Socket.Stream.connect sunPath answer path) p = some s) :
    Leaves p s := by
  refine leaves_socket (fun addr c hc => ?_) h
  rcases mem_call hc with rfl | hc
  · exact fun _ _ => rfl
  · simp [done] at hc

theorem leaves_accept {answers : List (Option Errno)} {s : Option ℕ × Proc}
    (h : Socket.Listener.accept answers p = some s) : Leaves p s := by
  induction answers with
  | nil => cases h
  | cons a answers ih =>
    cases a with
    | none =>
      obtain ⟨⟨n, q⟩, hopen, rfl⟩ := Option.map_eq_some_iff.1 h
      exact makes_openFile hopen
    | some e =>
      rw [Socket.Listener.accept] at h
      split_ifs at h
      · exact ih h
      · cases h
        exact .refl p

theorem leaves_duplicate {fd : ℕ} {a : Option Errno} {s : Option ℕ × Proc}
    (h : Socket.duplicate fd a p = some s) : Leaves p s := by
  cases a with
  | some e =>
    cases h
    exact .refl p
  | none =>
    obtain ⟨⟨n, q⟩, hdup, rfl⟩ := Option.map_eq_some_iff.1 h
    obtain ⟨desc, -, hmade⟩ := PosixFd.Proc.dup_eq_some hdup
    exact makes_allocated hmade

/-! ## What `spawn` leaves -/

theorem Command.Pipe.new_makes {w : Command.World} {c : Command.Call} {pipe : Pipe}
    (h : Pipe.new w c p = some (pipe, q)) :
    ∃ wr, pipe.write = some wr ∧ pipe.read ≠ wr ∧ Makes {pipe.read, wr} p q := by
  rw [Pipe.new] at h
  split at h
  · cases h
  · next r wr s hs =>
    have hp := PosixFd.Proc.pipe_eq_some (Command.World.call_eq_some hs)
    have hmakes : Makes {r, wr} p s := by
      refine ⟨fun n hn => ?_, fun n hn => ?_⟩
      · simp only [Set.mem_insert_iff, Set.mem_singleton_iff, not_or] at hn
        exact hp.fd_of_ne n hn.1 hn.2
      · rcases hn with rfl | rfl
        · exact ⟨hp.read_free, by simp [hp.read]⟩
        · exact ⟨hp.write_free, by simp [hp.write]⟩
    cases h
    refine ⟨wr, rfl, hp.ne, ?_⟩
    split_ifs
    · exact hmakes
    · refine ⟨fun n hn => ?_, fun n hn => ⟨(hmakes.new n hn).1, ?_⟩⟩
      · have hn' := hn
        simp only [Set.mem_insert_iff, Set.mem_singleton_iff, not_or] at hn'
        rw [PosixFd.Proc.setCloexec_of_ne hn'.2, PosixFd.Proc.setCloexec_of_ne hn'.1]
        exact hmakes.same n hn
      · rw [Ne, PosixFd.Proc.setCloexec_eq_none, PosixFd.Proc.setCloexec_eq_none]
        exact (hmakes.new n hn).2

theorem Makes.drop {pipe : Pipe} {wr : ℕ} (h : Makes S p q) (hwrite : pipe.write = some wr)
    (hne : pipe.read ≠ wr) (hr : pipe.read ∈ S) (hw : wr ∈ S) :
    Makes (S \ {pipe.read, wr}) p (pipe.drop q) := by
  have hclosed := (h.close hr).close (n := wr) ⟨hw, hne.symm⟩
  rw [Pipe.drop, hwrite, Option.elim_some]
  rwa [Set.sdiff_sdiff, Set.singleton_union] at hclosed

/-- **What `spawn` leaves**: the read ends of two pipes, or nothing. -/
theorem Command.spawn_makes (self : Command) (w : Command.World) (p : Proc) :
    match self.spawn w p with
    | (some c, q) => c.child.out.fds = [c.child.out.read] ∧ c.child.err.fds = [c.child.err.read] ∧
        c.child.out.read ≠ c.child.err.read ∧ Makes {c.child.out.read, c.child.err.read} p q
    | (none, q) => Makes ∅ p q := by
  rw [spawn]
  cases hout : Pipe.new w .outPipe p with
  | none => exact .refl p
  | some r =>
    obtain ⟨out, p₁⟩ := r
    obtain ⟨ow, how, hone, hmake₁⟩ := Pipe.new_makes hout
    dsimp only
    cases herr : Pipe.new w .errPipe p₁ with
    | none =>
      have hgone := hmake₁.drop how hone (by simp) (by simp)
      rw [Set.sdiff_self] at hgone
      exact hgone
    | some r =>
      obtain ⟨err, p₂⟩ := r
      obtain ⟨ew, hew, hene, hmake₂⟩ := Pipe.new_makes herr
      have hmade := hmake₁.trans hmake₂
      have hother : ∀ n, n = out.read ∨ n = ow → n ≠ err.read ∧ n ≠ ew := by
        intro n hn
        simpa using hmake₁.disjoint hmake₂ hn
      have hgone : Makes ∅ p (out.drop (err.drop p₂)) := by
        have hfirst := hmade.drop hew hene (by simp) (by simp)
        have hboth := hfirst.drop how hone ⟨by simp, by simpa using hother out.read (.inl rfl)⟩
          ⟨by simp, by simpa using hother ow (.inr rfl)⟩
        rwa [Set.union_sdiff_right, Set.sdiff_sdiff_comm, Set.sdiff_self, Set.empty_sdiff] at hboth
      dsimp only
      split_ifs
      · exact hgone
      · cases w.fork with
        | none => exact hgone
        | some pid =>
          dsimp only
          have hclosed := (hmade.close (n := ow) (by simp)).close (n := ew)
            ⟨by simp, by simpa using (hother ow (.inr rfl)).2.symm⟩
          simp only [Pipe.closeWrite, how, hew, Pipe.fds, Option.toList_none, true_and]
          refine ⟨(hother out.read (.inl rfl)).1, ?_⟩
          convert hclosed using 1
          ext n
          simp only [Set.mem_insert_iff, Set.mem_singleton_iff, Set.mem_sdiff, Set.mem_union]
          constructor
          · rintro (rfl | rfl)
            · exact ⟨⟨.inl (.inl rfl), hone⟩, (hother out.read (.inl rfl)).2⟩
            · exact ⟨⟨.inr (.inl rfl), fun h => (hother ow (.inr rfl)).1 h.symm⟩, hene⟩
          · rintro ⟨⟨(h | h) | (h | h), hnow⟩, hnew⟩
            · exact .inl h
            · exact absurd h hnow
            · exact .inr h
            · exact absurd h hnew

/-! ## Whose descriptors they are -/

/-- **Every descriptor has one owner**: the part of a handle is its descriptors, and the rest of the
    table is what the others have. -/
structure Process.Owned (s : Process) : Prop where
  cut : Parts.Cut s.table.fd s.parts
  held : ∀ x n, s.parts (some x) n ≠ none ↔ ∃ h, s.handles x = some h ∧ n ∈ h.fds

variable {s s' : Process} {x : ℕ} {h : Handle}

theorem Handle.drop_fd (h : Handle) (p : Proc) (n : ℕ) :
    (h.drop p).fd n = if n ∈ h.fds then none else p.fd n := by
  have hclose : ∀ (p : Proc) (fd : ℕ), (p.close fd).fd n = if n = fd then none else p.fd n := by
    intro p fd
    by_cases hn : n = fd
    · rw [hn, PosixFd.Proc.close_self, if_pos rfl]
    · rw [PosixFd.Proc.close_of_ne hn, if_neg hn]
  have hpipe : ∀ (p : Proc) (pipe : Pipe),
      (pipe.drop p).fd n = if n ∈ pipe.fds then none else p.fd n := by
    intro p pipe
    rw [Pipe.drop, Pipe.fds]
    cases pipe.write with
    | none => simp [hclose]
    | some wr =>
      simp only [Option.elim_some, hclose, Option.toList_some, List.mem_cons, List.not_mem_nil,
        or_false]
      by_cases hwr : n = wr <;> by_cases hr : n = pipe.read <;> simp [hwr, hr]
  cases h with
  | file fd | listener fd | stream fd | lines fd => simp [Handle.drop, Handle.fds, hclose]
  | child c =>
    simp only [Handle.drop, Handle.fds, hpipe, List.mem_append]
    by_cases hout : n ∈ c.out.fds <;> by_cases herr : n ∈ c.err.fds <;> simp [hout, herr]

namespace Process

theorem Owned.same (hs : s.Owned) (hm : Makes ∅ s.table p) : Owned { s with table := p } where
  cut := hs.cut.congr fun n => hm.same n (Set.notMem_empty n)
  held := hs.held

theorem Owned.part_eq_none (hs : s.Owned) (hx : s.handles x = none) (n : ℕ) :
    s.parts (some x) n = none := by
  by_contra hn
  obtain ⟨h, hh, -⟩ := (hs.held x n).1 hn
  cases hx.symm.trans hh

/-- **A new handle** has the descriptors that were made for it. -/
theorem Owned.hold (hs : s.Owned) (hx : s.handles x = none)
    (hm : Makes {n | n ∈ h.fds} s.table p) : (s.hold x h p).Owned := by
  have hpart : ∀ n, (if n ∈ h.fds then p.fd n else none) ≠ none ↔ n ∈ h.fds := by
    intro n
    constructor
    · intro hn
      by_contra hout
      exact hn (if_neg hout)
    · intro hn
      rw [if_pos hn]
      exact (hm.new n hn).2
  constructor
  · refine hs.cut.update (fun n hn => .inr (hm.new n ((hpart n).1 hn)).1) (fun n hn => ?_)
      fun n _ hn => ?_
    · have hin := (hpart n).1 (hn.resolve_left fun hold => hold (hs.part_eq_none hx n))
      exact (if_pos hin).symm
    · exact hm.same n fun hin => (hpart n).2 hin hn
  · intro y n
    by_cases hyx : y = x
    · subst hyx
      simpa [Process.hold] using hpart n
    · have hne : some y ≠ some x := fun heq => hyx (Option.some.inj heq)
      simpa [Process.hold, hyx, hne] using hs.held y n

theorem Owned.leave (hs : s.Owned) (hx : s.handles x = none) {f : ℕ → Handle}
    (hf : ∀ n, (f n).fds = [n]) {r : Option ℕ × Proc} (hr : Leaves s.table r) :
    (s.leave x f r).Owned := by
  rcases r with ⟨_ | n, p⟩
  · exact hs.same hr
  · refine hs.hold hx ?_
    simp only [hf, List.mem_singleton]
    exact hr

/-- **A handle is dropped**: its descriptors are closed, and no others. -/
theorem Owned.drop (hs : s.Owned) (hx : s.handles x = some h) :
    Owned ⟨h.drop s.table, Function.update s.handles x none,
      Function.update s.parts (some x) fun _ => none⟩ := by
  have hpart : ∀ n, s.parts (some x) n ≠ none ↔ n ∈ h.fds := by
    intro n
    rw [hs.held, hx]
    simp
  constructor
  · refine hs.cut.update (fun n hn => absurd rfl hn) (fun n hn => ?_) fun n hn _ => ?_
    · have hin := (hpart n).1 (hn.resolve_right fun hno => hno rfl)
      rw [h.drop_fd, if_pos hin]
    · have hout : n ∉ h.fds := fun hin => (hpart n).2 hin hn
      rw [h.drop_fd, if_neg hout]
  · intro y n
    by_cases hyx : y = x
    · subst hyx
      simp
    · have hne : some y ≠ some x := fun heq => hyx (Option.some.inj heq)
      simpa [hyx, hne] using hs.held y n

theorem Owned.become (hs : s.Owned) (hx : s.handles x = some h) {h' : Handle}
    (hfds : h'.fds = h.fds) :
    Owned { s with handles := Function.update s.handles x (some h') } where
  cut := hs.cut
  held y n := by
    by_cases hyx : y = x
    · subst hyx
      rw [hs.held, hx]
      simp [hfds]
    · simpa [hyx] using hs.held y n

/-- The others change one of their descriptors, or one that is free. -/
theorem Owned.others (hs : s.Owned) (hn : s.parts none n ≠ none ∨ s.table.fd n = none)
    (hp : ∀ m, p.fd m = if m = n then p.fd n else s.table.fd m) :
    Owned { s with
      table := p
      parts := Function.update s.parts none (Function.update (s.parts none) n (p.fd n)) } where
  cut := by
    have hcut : Parts.Cut s.table.fd (Function.update s.parts none (s.parts none)) := by
      rw [Function.update_eq_self]
      exact hs.cut
    exact hcut.set hn hp
  held y m := by
    simpa using hs.held y m

/-- **Every step keeps it.** -/
theorem Owned.step (hs : s.Owned) {e : Event} (h : Process.step s e = some s') : s'.Owned := by
  cases e with
  | opens x o answer path =>
    simp only [Process.step, Option.isNone_iff_eq_none] at h
    split_ifs at h with hx
    obtain ⟨r, hr, rfl⟩ := Option.map_eq_some_iff.1 h
    exact hs.leave hx (fun _ => rfl) (leaves_opener o path hr)
  | bind x sunPath answer path backlog =>
    simp only [Process.step, Option.isNone_iff_eq_none] at h
    split_ifs at h with hx
    obtain ⟨r, hr, rfl⟩ := Option.map_eq_some_iff.1 h
    exact hs.leave hx (fun _ => rfl) (leaves_bind sunPath path backlog hr)
  | connect x sunPath answer path =>
    simp only [Process.step, Option.isNone_iff_eq_none] at h
    split_ifs at h with hx
    obtain ⟨r, hr, rfl⟩ := Option.map_eq_some_iff.1 h
    exact hs.leave hx (fun _ => rfl) (leaves_connect sunPath path hr)
  | accept x l answers =>
    simp only [Process.step] at h
    split at h
    · next hx _ =>
      obtain ⟨r, hr, rfl⟩ := Option.map_eq_some_iff.1 h
      exact hs.leave hx (fun _ => rfl) (leaves_accept hr)
    · cases h
  | duplicate x y answer =>
    simp only [Process.step] at h
    split at h
    · next hx _ =>
      obtain ⟨r, hr, rfl⟩ := Option.map_eq_some_iff.1 h
      exact hs.leave hx (fun _ => rfl) (leaves_duplicate hr)
    · cases h
  | lines x =>
    simp only [Process.step] at h
    split at h
    · next hx =>
      cases h
      exact hs.become hx rfl
    · cases h
  | spawn x w command =>
    simp only [Process.step, Option.isNone_iff_eq_none] at h
    split_ifs at h with hx
    have hspawn := command.spawn_makes w s.table
    split at h
    · next c table heq =>
      cases h
      rw [heq] at hspawn
      obtain ⟨hout, herr, -, hm⟩ := hspawn
      refine hs.hold hx ?_
      simp only [Handle.fds, hout, herr, List.mem_append, List.mem_singleton]
      exact hm
    · next table heq =>
      cases h
      rw [heq] at hspawn
      exact hs.same hspawn
  | drop x =>
    obtain ⟨h', hx, rfl⟩ := Option.map_eq_some_iff.1 h
    exact hs.drop hx
  | othersOpen name cloexec =>
    obtain ⟨⟨n, p⟩, hopen, rfl⟩ := Option.map_eq_some_iff.1 h
    have hm := makes_openFile hopen
    refine hs.others (.inr (hm.new n rfl).1) fun m => ?_
    by_cases hmn : m = n
    · rw [if_pos hmn, hmn]
    · rw [if_neg hmn]
      exact hm.same m hmn
  | othersClose fd =>
    simp only [Process.step] at h
    split_ifs at h with hfd
    cases h
    have hclosed := hs.others (p := s.table.close fd) (.inl (Option.isSome_iff_ne_none.1 hfd))
      fun m => by
        by_cases hmn : m = fd
        · rw [if_pos hmn, hmn]
        · rw [if_neg hmn]
          exact PosixFd.Proc.close_of_ne hmn
    rwa [PosixFd.Proc.close_self] at hclosed

theorem owned_start (start : Proc) : (system start).init.Owned where
  cut := by
    constructor
    · intro n d
      constructor
      · intro hn
        exact ⟨none, hn⟩
      · rintro ⟨_ | x, hn⟩
        · exact hn
        · cases hn
    · rintro (_ | x) (_ | y) n ho ho'
      · rfl
      · exact absurd rfl ho'
      · exact absurd rfl ho
      · exact absurd rfl ho
  held x n := by simp [system]

theorem owned_inductive (start : Proc) : (system start).Inductive Owned where
  init := owned_start start
  step hs h := hs.step h

/-- **Descriptors are those of the handles.**  After any run, whatever has failed in it, every open
    descriptor is of one handle or is what the others have made of theirs; and with every handle
    dropped, only the latter are left. -/
theorem handles_own_descriptors {start : Proc} {as : List Event} {s : Process}
    (hr : (system start).run as = some s) :
    s.Owned ∧ ((∀ x, s.handles x = none) → s.table.fd = s.parts none) := by
  have hs := (owned_inductive start).run hr
  refine ⟨hs, fun hnone => ?_⟩
  funext n
  cases hn : s.parts none n with
  | some d => exact hs.cut.live hn
  | none =>
    by_contra hlive
    obtain ⟨_ | x, ho⟩ := hs.cut.live_iff.1 hlive
    · exact ho hn
    · exact ho (hs.part_eq_none (hnone x) n)

/-- A server takes a connection, duplicates it and starts a program, with a descriptor of others
    open all the while; only this one is left. -/
theorem handles_own_descriptors_served :
    let start : Proc := ⟨fun n => if n = 1 then some ⟨⟨0, .named [99]⟩, false⟩ else none, 16, 1, by
      intro n d h
      split_ifs at h
      cases h
      decide⟩
    let w : Command.World := ⟨true, fun _ => false, fun c => c = .outPipe, some 7, none, []⟩
    ∃ s, (system start).run [.bind 0 108 (fun _ => none) [97] 5,
        .accept 1 0 [some Errno.EINTR, none], .duplicate 2 1 none,
        .spawn 3 w (Command.new [47, 97]), .drop 1, .lines 2, .drop 0, .drop 3, .drop 2] = some s ∧
      s.table.fd = start.fd := by
  intro start w
  refine ⟨_, rfl, (handles_own_descriptors (rfl : (system start).run [
    .bind 0 108 (fun _ => none) [97] 5, .accept 1 0 [some Errno.EINTR, none], .duplicate 2 1 none,
    .spawn 3 w (Command.new [47, 97]), .drop 1, .lines 2, .drop 0, .drop 3, .drop 2] = _)).2 ?_⟩
  intro x
  rcases x with _ | _ | _ | _ | x <;> rfl

end Process

end Ekostd
