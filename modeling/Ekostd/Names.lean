/-
  The names that the kernel reads: those of files, of programs and their
  arguments, and of sockets.

  * `names_read_whole`: what is read is what was given exactly if there is no
    NUL in it; a path that does not fit into the address of a socket is the one
    name that is refused, when the socket has been opened.
-/
import Ekostd.Command.Names
import Ekostd.File.Open
import Ekostd.Socket.Address

namespace Ekostd

open PosixFs PosixName File Socket

/-- **Names are read whole** exactly if there is no NUL in them, whatever the kernel answers; and
    two of them that are seen are not read as the same. -/
theorem names_read_whole (f : PathCall) (g : TwoPathCall) (self : Command) (sunPath : ℕ)
    (backlog : ℤ) (answer : Syscall → Option Errno) (p q : Bytes) :
    (Sees [p] (f.run answer p) ↔ 0 ∉ p) ∧
    (Sees [p, q] (g.run answer p q) ↔ 0 ∉ p ∧ 0 ∉ q) ∧
    ((∀ w : Command.World, (∀ v, w.path = some v → 0 ∉ v) → self.Named w) ↔
      0 ∉ self.program ∧ ∀ a ∈ self.args, 0 ∉ a) ∧
    ((∀ answer, Sees [p] (Listener.bind sunPath answer p backlog)) ↔
      0 ∉ p ∨ sunPath ≤ p.length) ∧
    ((∀ answer, Sees [p] (Stream.connect sunPath answer p)) ↔ 0 ∉ p ∨ sunPath ≤ p.length) ∧
    (answer ⟨.socket, []⟩ = none →
      (SeesAtOnce [p] (Listener.bind sunPath answer p backlog) ↔ 0 ∉ p ∧ p.length < sunPath) ∧
      (SeesAtOnce [p] (Stream.connect sunPath answer p) ↔ 0 ∉ p ∧ p.length < sunPath)) ∧
    ∀ (names names' : List Bytes) (d d' : Done), Sees names d → Sees names' d' → d.read ≠ [] →
      d.read = d'.read → names = names' := by
  refine ⟨f.sees_iff, g.sees_iff, self.named_iff, Listener.bind_sees backlog, Stream.connect_sees,
    ?_, ?_⟩
  · intro hsocket
    exact ⟨Listener.bind_seesAtOnce backlog hsocket, Stream.connect_seesAtOnce hsocket⟩
  · intro names names' d d' h h' hne heq
    exact h.names_eq h' hne heq

/-- A NUL in the middle of a name: another file is opened, another socket is bound and connected
    to, and another argument is passed. -/
theorem nul_cuts_names :
    let p : Bytes := [97, 0, 98]
    let answer : Syscall → Option Errno := fun _ => none
    let w : Command.World := ⟨true, fun _ => false, fun _ => false, none, some [47], []⟩
    let program := (Command.new [97]).arg p
    let opened := (PathCall.opener .open_).run answer
    (¬ Sees [p] (opened p) ∧ (opened p).read = (opened [97]).read) ∧
    ¬ Sees [p] (Listener.bind 108 answer p 128) ∧
    ¬ Sees [p] (Stream.connect 108 answer p) ∧
    (∀ v, w.path = some v → 0 ∉ v) ∧ ¬ program.Named w ∧
    (program.execs w).map (fun c => c.buffers.map cstr) = [[[47, 97], [97], [97]]] := by
  intro p answer w program opened
  have hopened : (opened p).read = [[97]] := rfl
  have hbound : (Listener.bind 108 answer p 128).read = [[97]] := by decide
  have hconnected : (Stream.connect 108 answer p).read = [[97]] := by decide
  have hexecs : (program.execs w).map (fun c => c.buffers.map cstr) = [[[47, 97], [97], [97]]] := by
    decide
  refine ⟨⟨?_, rfl⟩, ?_, ?_, ?_, ?_, hexecs⟩
  · simp [Sees, hopened, p]
  · simp [Sees, hbound, p]
  · simp [Sees, hconnected, p]
  · rintro v ⟨⟩
    decide
  · intro h
    obtain ⟨dir, -, hread⟩ := h ⟨.execve, [[47, 97, 0], [97, 0], [97, 0, 98, 0]]⟩ (by decide)
    simp [program, Command.new, Command.arg, p, cstr] at hread

end Ekostd
