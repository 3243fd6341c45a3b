/-
  `signal.rs` — signals that a handler writes to a pipe.

  The process has one write end, and the handler has nothing else to go by; a
  disposition is of one signal.  Each call of `Signals::install` makes a pipe of
  its own, so that handles are numbered by their order.

  * `note`: the handler; `Signals.recv`: what a call of `recv` makes of what
    its `read` has answered;
  * `machine`: installs, deliveries, and any number of threads in `recv`, whose
    `read` is one step and whose return is another;
  * `Event`: what is observed of a run, the last event first;
  * `Inv`: what holds in every state that is reached.
-/
import Ekostd.Lib.PosixFs
import Ekostd.Lib.Slices
import Ekostd.Lib.Sts

namespace Ekostd

open PosixFs

/-- `Signal`. -/
inductive Signal where
  | term
  | int
  | hup
  deriving DecidableEq

namespace Signal

/-- `Signal::ALL`. -/
def ALL : List Signal := [term, int, hup]

/-- `Signal::number`. -/
def number : Signal → ℕ
  | term => 15
  | int => 2
  | hup => 1

/-- `Signal::from_number`. -/
def fromNumber (number : ℕ) : Option Signal := ALL.find? fun signal => signal.number = number

/-- The payload of a signal, `signal as u8`. -/
def byte (self : Signal) : UInt8 := UInt8.ofNat self.number

theorem fromNumber_byte (self : Signal) : fromNumber self.byte.toNat = some self := by
  cases self <;> rfl

theorem byte_injective : Function.Injective byte := by
  intro a b h
  have hnum := congrArg (fun x : UInt8 => fromNumber x.toNat) h
  simpa only [fromNumber_byte, Option.some.injEq] using hnum

end Signal

/-- `Errno::would_block`. -/
def wouldBlock (e : Errno) : Bool := e = Errno.EAGAIN || e = Errno.EWOULDBLOCK

namespace Signals

/-- `Signals::recv`, after its `read`. -/
def recv : Except Errno Bytes → Except Errno (Option Signal)
  | .error error => if wouldBlock error then .ok none else .error error
  | .ok bytes => .ok (bytes.findSome? fun byte => Signal.fromNumber byte.toNat)

/-- The length of the buffer of `recv`. -/
def chunk : ℕ := 64

/-- A non-blocking `read` of a pipe with a writer: its answer, and what is left. -/
def readPipe (pipe : Bytes) : Except Errno Bytes × Bytes :=
  if pipe = [] then (.error Errno.EAGAIN, []) else (.ok (pipe.take chunk), pipe.drop chunk)

/-- What is observed of a run. -/
inductive Event (ι : Type*) where
  | installed (signals : List Signal)
  | noted (signal : Signal)
  | got (t : ι) (h : ℕ) (read : Except Errno Bytes)
  | answered (t : ι) (answer : Except Errno (Option Signal))

/-- A process that installs handlers. -/
structure State (ι : Type*) where
  /-- The sets installed so far. -/
  installed : List (List Signal)
  /-- `WRITE_END`: the handle of the pipe, or none for `-1`. -/
  writeEnd : Option ℕ
  /-- The signals whose disposition is `note`. -/
  noting : List Signal
  /-- What is in the pipe of each handle. -/
  pipes : ℕ → Bytes
  /-- The answer of `read` to a thread that has not returned from `recv` yet. -/
  reading : ι → Option (Except Errno Bytes)
  log : List (Event ι)

/-- A step of the process. -/
inductive Action (ι : Type*) where
  | install (signals : List Signal)
  | deliver (signal : Signal)
  | read (t : ι) (h : ℕ)
  | ret (t : ι)

variable {ι : Type*} [DecidableEq ι]

/-- `note`, on a pipe with room for `capacity` bytes. -/
def note (capacity : ℕ) (s : State ι) (signal : Signal) : State ι :=
  match s.writeEnd with
  | none => s
  | some fd =>
    if (s.pipes fd).length < capacity then
      { s with pipes := Function.update s.pipes fd (s.pipes fd ++ [signal.byte]) }
    else s

/-- `Signals::install`. -/
def install (s : State ι) (signals : List Signal) : State ι :=
  { s with
    writeEnd := some s.installed.length
    noting := signals ++ s.noting
    installed := s.installed ++ [signals] }

/-- The process. -/
def machine (capacity : ℕ) : Sts (State ι) (Action ι) where
  init := ⟨[], none, [], fun _ => [], fun _ => none, []⟩
  step s
    | .install signals => some { install s signals with log := .installed signals :: s.log }
    | .deliver signal =>
      -- a signal with another disposition does not get here
      if signal ∈ s.noting then
        some { note capacity s signal with log := .noted signal :: s.log }
      else none
    | .read t h =>
      if h < s.installed.length ∧ s.reading t = none then
        let (read, left) := readPipe (s.pipes h)
        some { s with
          pipes := Function.update s.pipes h left
          reading := Function.update s.reading t (some read)
          log := .got t h read :: s.log }
      else none
    | .ret t => (s.reading t).map fun read =>
        { s with
          reading := Function.update s.reading t none
          log := .answered t (recv read) :: s.log }

variable {capacity : ℕ} {s s' : State ι} {a : Action ι} {signal : Signal} {t : ι} {h : ℕ}
  {read : Except Errno Bytes} {signals : List Signal}

/-! ## What a step does -/

theorem step_deliver (hs : (machine capacity).step s (.deliver signal) = some s') :
    signal ∈ s.noting ∧ s' = { note capacity s signal with log := .noted signal :: s.log } := by
  simp only [machine] at hs
  split_ifs at hs with hn
  exact ⟨hn, (Option.some.inj hs).symm⟩

theorem step_read (hs : (machine capacity).step s (.read t h) = some s') :
    h < s.installed.length ∧ s.reading t = none ∧
      s' = { s with
        pipes := Function.update s.pipes h (readPipe (s.pipes h)).2
        reading := Function.update s.reading t (some (readPipe (s.pipes h)).1)
        log := .got t h (readPipe (s.pipes h)).1 :: s.log } := by
  simp only [machine] at hs
  split_ifs at hs with hn
  exact ⟨hn.1, hn.2, (Option.some.inj hs).symm⟩

theorem step_ret (hs : (machine capacity).step s (.ret t) = some s') :
    ∃ read, s.reading t = some read ∧
      s' = { s with
        reading := Function.update s.reading t none
        log := .answered t (recv read) :: s.log } := by
  simp only [machine, Option.map_eq_some_iff] at hs
  obtain ⟨read, hread, rfl⟩ := hs
  exact ⟨read, hread, rfl⟩

omit [DecidableEq ι] in
/-- The handler writes to the pipe of the write end, if there is room. -/
theorem note_eq {fd : ℕ} (h : s.writeEnd = some fd) :
    note capacity s signal = { s with
      pipes := Function.update s.pipes fd
        (if (s.pipes fd).length < capacity then s.pipes fd ++ [signal.byte] else s.pipes fd) } := by
  unfold note
  split
  next hnone => rw [h] at hnone; cases hnone
  next fd' hfd =>
    obtain rfl : fd = fd' := Option.some.inj (h.symm.trans hfd)
    split_ifs
    · rfl
    · rw [Function.update_eq_self]

/-- The bytes that a `read` has taken. -/
def taken : Except Errno Bytes → Bytes
  | .ok bytes => bytes
  | .error _ => []

theorem taken_readPipe (pipe : Bytes) : taken (readPipe pipe).1 ++ (readPipe pipe).2 = pipe := by
  unfold readPipe
  split_ifs with hp
  · exact hp.symm
  · exact List.take_append_drop chunk pipe

theorem mem_noted {pipes : ℕ → Bytes} {k : ℕ} {b : UInt8}
    (hb : b ∈ Function.update pipes h
      (if (pipes h).length < capacity then pipes h ++ [signal.byte] else pipes h) k) :
    b ∈ pipes k ∨ k = h ∧ b = signal.byte := by
  by_cases hk : k = h
  · subst hk
    rw [Function.update_self] at hb
    split_ifs at hb
    · exact (List.mem_append.1 hb).imp_right fun hb => ⟨rfl, List.mem_singleton.1 hb⟩
    · exact .inl hb
  · rw [Function.update_of_ne hk] at hb
    exact .inl hb

theorem mem_left {pipes : ℕ → Bytes} {k : ℕ} {b : UInt8}
    (hb : b ∈ Function.update pipes h (readPipe (pipes h)).2 k) : b ∈ pipes k := by
  by_cases hk : k = h
  · subst hk
    rw [Function.update_self] at hb
    rw [← taken_readPipe (pipes k)]
    exact List.mem_append_right _ hb
  · rwa [Function.update_of_ne hk] at hb

omit [DecidableEq ι] in
theorem suffix_of_ne {e e' : Event ι} {pre log : List (Event ι)} (h : e :: pre <:+ e' :: log)
    (hne : e ≠ e') : e :: pre <:+ log :=
  (List.suffix_cons_iff.1 h).resolve_left fun heq => hne (List.cons.inj heq).1

theorem recv_readPipe_cons (x : Signal) (rest : Bytes) :
    recv (readPipe (x.byte :: rest)).1 = .ok (some x) := by
  unfold readPipe
  rw [if_neg (List.cons_ne_nil _ _), recv, chunk, List.take_succ_cons, List.findSome?_cons,
    Signal.fromNumber_byte]

/-! ## What holds in every state -/

/-- The sets installed in a run. -/
def installs : List (Event ι) → List (List Signal)
  | [] => []
  | .installed signals :: log => installs log ++ [signals]
  | _ :: log => installs log

/-- What the last `read` of a thread has answered. -/
def lastRead (t : ι) : List (Event ι) → Option (Except Errno Bytes)
  | [] => none
  | .got t' _ read :: log => if t' = t then some read else lastRead t log
  | _ :: log => lastRead t log

/-- What holds in every state. -/
structure Inv (s : State ι) : Prop where
  /-- The write end is that of the latest handle. -/
  latest : s.writeEnd = if s.installed = [] then none else some (s.installed.length - 1)
  noting : ∀ x, x ∈ s.noting ↔ ∃ signals ∈ s.installed, x ∈ signals
  known : ∀ h, ∀ b ∈ s.pipes h, ∃ x : Signal, b = x.byte
  unused : ∀ h, s.installed.length ≤ h → s.pipes h = []
  installs : installs s.log = s.installed
  reading : ∀ t read, s.reading t = some read → lastRead t s.log = some read

/-- A handler runs only after an install, and has the write end of the latest one. -/
theorem Inv.writeEnd (hs : Inv s) (hn : signal ∈ s.noting) :
    s.installed ≠ [] ∧ s.writeEnd = some (s.installed.length - 1) := by
  obtain ⟨signals, hmem, -⟩ := (hs.noting signal).1 hn
  have hne : s.installed ≠ [] := List.ne_nil_of_mem hmem
  exact ⟨hne, by rw [hs.latest, if_neg hne]⟩

theorem inv_step (hs : Inv s) (ha : (machine capacity).step s a = some s') : Inv s' := by
  cases a with
  | install signals =>
    obtain rfl := Option.some.inj ha
    refine ⟨?_, ?_, hs.known, ?_, ?_, hs.reading⟩
    · simp [install]
    · intro x
      simp only [install, List.mem_append, hs.noting, List.mem_singleton]
      constructor
      · rintro (hx | ⟨set, hset, hx⟩)
        · exact ⟨signals, .inr rfl, hx⟩
        · exact ⟨set, .inl hset, hx⟩
      · rintro ⟨set, hset | rfl, hx⟩
        · exact .inr ⟨set, hset, hx⟩
        · exact .inl hx
    · intro h hle
      simp only [install, List.length_append, List.length_singleton] at hle
      exact hs.unused h (by omega)
    · simp only [Signals.installs, hs.installs, install]
  | deliver signal =>
    obtain ⟨hn, rfl⟩ := step_deliver ha
    obtain ⟨hne, hw⟩ := hs.writeEnd hn
    have hpos := List.length_pos_iff.2 hne
    rw [note_eq hw]
    refine ⟨hs.latest, hs.noting, ?_, ?_, hs.installs, hs.reading⟩
    · intro k b hb
      rcases mem_noted hb with hb | ⟨-, rfl⟩
      · exact hs.known k b hb
      · exact ⟨signal, rfl⟩
    · intro h hle
      have hh : h ≠ s.installed.length - 1 := by
        dsimp only at hle
        omega
      dsimp only
      rw [Function.update_of_ne hh]
      exact hs.unused h hle
  | read t h =>
    obtain ⟨hlt, hnone, rfl⟩ := step_read ha
    refine ⟨hs.latest, hs.noting, ?_, ?_, hs.installs, ?_⟩
    · intro k b hb
      exact hs.known k b (mem_left hb)
    · intro k hle
      have hk : k ≠ h := by
        dsimp only at hle
        omega
      dsimp only
      rw [Function.update_of_ne hk]
      exact hs.unused k hle
    · intro u read hread
      dsimp only at hread ⊢
      by_cases hu : u = t
      · subst hu
        rw [Function.update_self] at hread
        rw [lastRead, if_pos rfl, hread]
      · rw [Function.update_of_ne hu] at hread
        rw [lastRead, if_neg (Ne.symm hu)]
        exact hs.reading u read hread
  | ret t =>
    obtain ⟨read, hread, rfl⟩ := step_ret ha
    refine ⟨hs.latest, hs.noting, hs.known, hs.unused, hs.installs, ?_⟩
    intro u read hu
    dsimp only at hu
    by_cases hut : u = t
    · subst hut
      rw [Function.update_self] at hu
      cases hu
    · rw [Function.update_of_ne hut] at hu
      exact hs.reading u read hu

/-- **The invariant of the process.** -/
theorem inv_inductive (capacity : ℕ) : (machine (ι := ι) capacity).Inductive Inv where
  init := by
    refine ⟨rfl, ?_, ?_, fun _ _ => rfl, rfl, ?_⟩
    · intro x
      simp [machine]
    · intro h b hb
      cases hb
    · intro t read hread
      cases hread
  step := inv_step

end Signals

end Ekostd
