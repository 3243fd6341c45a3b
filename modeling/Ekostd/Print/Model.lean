/-
  `print.rs` — lines that threads print to one pipe.

  * `writeFd`, `emit`, `Call.expand`: what a macro hands to `write`, and in how
    many pieces;
  * `machine`: threads that make their calls in any interleaving, a step being
    one call of `write`; its answer is part of the action;
  * `Atomic`: what is assumed of a pipe, and `step_cases`: the steps of the
    machine on such a pipe.

  `println!` and `eprintln!` differ in the descriptor, and either of the two may
  be an end of the pipe.
-/
import Ekostd.Lib.PosixRead
import Ekostd.Lib.Sts

namespace Ekostd.Print

open PosixFs
open PosixRead (newline)

/-! ## The macros -/

/-- What is left to be written by a call of `write_fd`. -/
structure WriteFd where
  fd : ℕ
  bytes : Bytes
  deriving DecidableEq

/-- One turn of the loop of `write_fd`, by the answer of `write`: what arrives, and what is left. -/
def writeFd (bytes : Bytes) : Except Errno ℕ → Bytes × Bytes
  | .ok n => if n = 0 then ([], []) else (bytes.take n, bytes.drop n)
  | .error e => ([], if e = Errno.EINTR then bytes else [])

/-- `emit`, of a text that has been formatted. -/
def emit (fd : ℕ) (text : Bytes) : List WriteFd := [⟨fd, text⟩]

/-- The macros that print a line. -/
inductive Printer where
  | println
  | eprintln
  deriving DecidableEq

/-- Their descriptors. -/
def Printer.fd : Printer → ℕ
  | println => 1
  | eprintln => 2

/-- A call of one of them, and the text of its arguments if it has any. -/
structure Call where
  printer : Printer
  args : Option Bytes
  deriving DecidableEq

/-- What a call expands to. -/
def Call.expand (c : Call) : List WriteFd :=
  match c.args with
  | none => [⟨c.printer.fd, [newline]⟩]
  | some text => emit c.printer.fd text ++ [⟨c.printer.fd, [newline]⟩]

/-- The formatted text. -/
def Call.text (c : Call) : Bytes := c.args.getD []

/-- The line that a call is meant to print. -/
def Call.line (c : Call) : Bytes := c.text ++ [newline]

/-! ## Threads -/

/-- A thread: the calls that have not returned, and what is left of the first of them if it has
    begun. -/
structure Thread where
  todo : List Call
  left : List WriteFd
  deriving DecidableEq

/-- The threads, and what has arrived in the pipe. -/
structure State (ι : Type*) where
  threads : ι → Thread
  pipe : Bytes

inductive Action (ι : Type*) where
  | begins (t : ι)
  | writes (t : ι) (a : Except Errno ℕ)

/-- Up to the next call of `write`: `write_fd` returns when there is nothing left. -/
def onward (ws : List WriteFd) : List WriteFd := ws.dropWhile fun w => w.bytes = []

/-- A call begins. -/
def Thread.begins (x : Thread) : Option Thread :=
  match x.left, x.todo with
  | [], c :: todo => some ⟨c :: todo, onward c.expand⟩
  | _, _ => none

/-- `write` answers; when nothing is left the call returns. -/
def Thread.writes (x : Thread) (a : Except Errno ℕ) : Option (Bytes × Thread) :=
  match x.left with
  | [] => none
  | w :: ws =>
    let (arrived, rest) := writeFd w.bytes a
    let left := onward (⟨w.fd, rest⟩ :: ws)
    some (arrived, ⟨if left = [] then x.todo.tail else x.todo, left⟩)

variable {ι : Type*} [DecidableEq ι]

/-- Threads that make the calls `calls`. -/
def machine (calls : ι → List Call) : Sts (State ι) (Action ι) where
  init := ⟨fun t => ⟨calls t, []⟩, []⟩
  step s
    | .begins t => (s.threads t).begins.map fun x => ⟨Function.update s.threads t x, s.pipe⟩
    | .writes t a => ((s.threads t).writes a).map fun (arrived, x) =>
      ⟨Function.update s.threads t x, s.pipe ++ arrived⟩

/-- What a thread has written of a line that it has not ended. -/
def Thread.said (x : Thread) : Bytes :=
  match x.todo, x.left with
  | c :: _, [_] => c.text
  | _, _ => []

/-- What is assumed of the pipe: no more than `pipeBuf` bytes are written at once and in full. -/
def Atomic (pipeBuf : ℕ) (s : State ι) : Action ι → Prop
  | .begins _ => True
  | .writes t a => ∀ w ∈ (s.threads t).left.head?, w.bytes.length ≤ pipeBuf →
      a = .ok w.bytes.length

/-! ## What a thread does -/

variable {pipeBuf : ℕ}

/-- Where a thread is: between calls, or before one of the writes of the first of its calls. -/
inductive Thread.Fits : Thread → Prop where
  | idle (todo : List Call) : Fits ⟨todo, []⟩
  | text {c : Call} (h : c.text ≠ []) (todo : List Call) :
    Fits ⟨c :: todo, [⟨c.printer.fd, c.text⟩, ⟨c.printer.fd, [newline]⟩]⟩
  | newline (c : Call) (todo : List Call) : Fits ⟨c :: todo, [⟨c.printer.fd, [newline]⟩]⟩

theorem onward_expand (c : Call) :
    onward c.expand = if c.text = [] then [⟨c.printer.fd, [newline]⟩]
      else [⟨c.printer.fd, c.text⟩, ⟨c.printer.fd, [newline]⟩] := by
  obtain ⟨printer, args⟩ := c
  cases args with
  | none => rfl
  | some text =>
    by_cases htext : text = []
    · subst htext
      rfl
    · simp [Call.expand, Call.text, emit, onward, htext]

theorem begins_cases {x y : Thread} (h : x.begins = some y) :
    y.Fits ∧ y.todo = x.todo ∧ x.said = [] ∧ y.said = [] := by
  obtain ⟨todo, left⟩ := x
  unfold Thread.begins at h
  split at h
  · next c todo hleft htodo =>
    subst hleft htodo
    cases h
    rw [onward_expand]
    split_ifs with htext
    · exact ⟨.newline c todo, rfl, rfl, htext⟩
    · exact ⟨.text htext todo, rfl, rfl, rfl⟩
  · cases h

theorem Thread.Fits.length_head_le {x : Thread} (hx : x.Fits)
    (hshort : ∀ c ∈ x.todo, c.text.length + 1 < pipeBuf) {w : WriteFd} (hw : w ∈ x.left.head?) :
    w.bytes.length ≤ pipeBuf := by
  cases hx with
  | idle todo => cases hw
  | @text c htext todo =>
    cases hw
    have hc := hshort c List.mem_cons_self
    show c.text.length ≤ pipeBuf
    omega
  | newline c todo =>
    cases hw
    have hc := hshort c List.mem_cons_self
    show 1 ≤ pipeBuf
    omega

/-- **A thread writes the text of a call, or its newline.** -/
theorem writes_cases {x y : Thread} {a : Except Errno ℕ} {arrived : Bytes} (hx : x.Fits)
    (ha : ∀ w ∈ x.left.head?, a = .ok w.bytes.length) (h : x.writes a = some (arrived, y)) :
    y.Fits ∧ ∃ c todo, x.todo = c :: todo ∧
      ((c.text ≠ [] ∧ arrived = c.text ∧ x.said = [] ∧ y.todo = x.todo ∧ y.said = c.text) ∨
        (arrived = [newline] ∧ x.said = c.text ∧ y.todo = todo ∧ y.said = [])) := by
  cases hx with
  | idle todo => cases h
  | @text c htext todo =>
    obtain rfl := ha _ rfl
    have hlength : c.text.length ≠ 0 := by simpa using htext
    have hwrites : Thread.writes ⟨c :: todo, [⟨c.printer.fd, c.text⟩, ⟨c.printer.fd, [newline]⟩]⟩
        (.ok c.text.length) = some (c.text, ⟨c :: todo, [⟨c.printer.fd, [newline]⟩]⟩) := by
      simp [Thread.writes, writeFd, onward, hlength]
    obtain ⟨rfl, rfl⟩ := Prod.mk.inj (Option.some.inj (hwrites.symm.trans h))
    exact ⟨.newline c todo, c, todo, rfl, .inl ⟨htext, rfl, rfl, rfl, rfl⟩⟩
  | newline c todo =>
    obtain rfl := ha _ rfl
    have hwrites : Thread.writes ⟨c :: todo, [⟨c.printer.fd, [newline]⟩]⟩ (.ok 1) =
        some ([newline], ⟨todo, []⟩) := rfl
    obtain ⟨rfl, rfl⟩ := Prod.mk.inj (Option.some.inj (hwrites.symm.trans h))
    refine ⟨.idle todo, c, todo, rfl, .inr ⟨rfl, rfl, rfl, ?_⟩⟩
    cases todo <;> rfl

/-! ## What the threads do -/

/-- The calls of a thread that have not returned. -/
def State.todo (s : State ι) (t : ι) : List Call := (s.threads t).todo

/-- What a thread has written of a line that it has not ended. -/
def State.said (s : State ι) (t : ι) : Bytes := (s.threads t).said

/-- Every thread is where it can be, with calls whose lines the pipe takes at once. -/
structure Good (pipeBuf : ℕ) (s : State ι) : Prop where
  fits : ∀ t, (s.threads t).Fits
  short : ∀ t, ∀ c ∈ s.todo t, c.text.length + 1 < pipeBuf

/-- What a step does: a call begins, or a text is written, or the newline after one. -/
inductive Step (s s' : State ι) : Action ι → Prop where
  | begins (t : ι) (hpipe : s'.pipe = s.pipe) (htodo : s'.todo = s.todo)
    (hsaid : s'.said = s.said) : Step s s' (.begins t)
  | text (t : ι) (a : Except Errno ℕ) (c : Call) (todo : List Call) (hc : s.todo t = c :: todo)
    (htext : c.text ≠ []) (hsaid : s.said t = []) (hpipe : s'.pipe = s.pipe ++ c.text)
    (htodo : s'.todo = s.todo) (hsaid' : s'.said = Function.update s.said t c.text) :
    Step s s' (.writes t a)
  | newline (t : ι) (a : Except Errno ℕ) (c : Call) (todo : List Call) (hc : s.todo t = c :: todo)
    (hsaid : s.said t = c.text) (hpipe : s'.pipe = s.pipe ++ [newline])
    (htodo : s'.todo = Function.update s.todo t todo)
    (hsaid' : s'.said = Function.update s.said t []) :
    Step s s' (.writes t a)

variable {calls : ι → List Call} {s s' : State ι}

theorem update_todo (s : State ι) (t : ι) (x : Thread) (pipe : Bytes) :
    (⟨Function.update s.threads t x, pipe⟩ : State ι).todo = Function.update s.todo t x.todo := by
  funext u
  by_cases hu : u = t
  · subst hu
    simp [State.todo]
  · simp [State.todo, hu]

theorem update_said (s : State ι) (t : ι) (x : Thread) (pipe : Bytes) :
    (⟨Function.update s.threads t x, pipe⟩ : State ι).said = Function.update s.said t x.said := by
  funext u
  by_cases hu : u = t
  · subst hu
    simp [State.said]
  · simp [State.said, hu]

theorem Good.update (hs : Good pipeBuf s) {t : ι} {x : Thread} (hx : x.Fits)
    (htodo : x.todo ⊆ s.todo t) (pipe : Bytes) :
    Good pipeBuf ⟨Function.update s.threads t x, pipe⟩ := by
  constructor
  · intro u
    by_cases hu : u = t
    · subst hu
      simpa using hx
    · simpa [hu] using hs.fits u
  · intro u c hc
    rw [update_todo] at hc
    by_cases hu : u = t
    · subst hu
      rw [Function.update_self] at hc
      exact hs.short u c (htodo hc)
    · rw [Function.update_of_ne hu] at hc
      exact hs.short u c hc

/-- **The steps of the machine**, on a pipe that takes a line at once. -/
theorem step_cases {act : Action ι} (hs : Good pipeBuf s) (ha : Atomic pipeBuf s act)
    (h : (machine calls).step s act = some s') : Good pipeBuf s' ∧ Step s s' act := by
  cases act with
  | begins t =>
    obtain ⟨x, hx, rfl⟩ := Option.map_eq_some_iff.1 h
    obtain ⟨hfits, htodo, hsaid, hsaid'⟩ := begins_cases hx
    have hsub : x.todo ⊆ s.todo t := by
      rw [htodo]
      exact List.Subset.refl _
    refine ⟨hs.update hfits hsub s.pipe, .begins t rfl ?_ ?_⟩
    · rw [update_todo, htodo]
      exact Function.update_eq_self t s.todo
    · rw [update_said, hsaid', ← hsaid]
      exact Function.update_eq_self t s.said
  | writes t a =>
    obtain ⟨⟨arrived, x⟩, hx, rfl⟩ := Option.map_eq_some_iff.1 h
    have hfull : ∀ w ∈ (s.threads t).left.head?, a = .ok w.bytes.length := by
      intro w hw
      exact ha w hw ((hs.fits t).length_head_le (hs.short t) hw)
    obtain ⟨hfits, c, todo, hc, htext | hnewline⟩ := writes_cases (hs.fits t) hfull hx
    · obtain ⟨hne, rfl, hsaid, htodo, hsaid'⟩ := htext
      have hsub : x.todo ⊆ s.todo t := by
        rw [htodo]
        exact List.Subset.refl _
      refine ⟨hs.update hfits hsub _, .text t a c todo hc hne hsaid rfl ?_ ?_⟩
      · rw [update_todo, htodo]
        exact Function.update_eq_self t s.todo
      · rw [update_said, hsaid']
    · obtain ⟨rfl, hsaid, htodo, hsaid'⟩ := hnewline
      refine ⟨hs.update hfits (fun d hd => ?_) _, .newline t a c todo hc hsaid rfl ?_ ?_⟩
      · rw [htodo] at hd
        show d ∈ (s.threads t).todo
        rw [hc]
        exact List.mem_cons_of_mem c hd
      · rw [update_todo, htodo]
      · rw [update_said, hsaid']

end Ekostd.Print
