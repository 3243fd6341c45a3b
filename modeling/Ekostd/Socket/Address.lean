/-
  `Listener::bind` and `Stream::connect` — a path in a `sockaddr_un`.

  The address has room for `sunPath` bytes, how many depends on the platform,
  and starts as zeros.  A path that leaves no room for a NUL is refused; the
  socket has been opened by then.
-/
import Ekostd.Lib.PosixName

namespace Ekostd.Socket

open PosixFs PosixName

/-- `address`: the bytes of `sun_path`. -/
def address (sunPath : ℕ) (path : Bytes) : Except Errno Bytes :=
  if path.length ≥ sunPath then .error Errno.ENAMETOOLONG
  else .ok (path ++ List.replicate (sunPath - path.length) 0)

/-- What follows the opening of a socket: the address, and what is done with it. -/
def withAddress (sunPath : ℕ) (path : Bytes) (next : Bytes → Done) : Done :=
  closing (match address sunPath path with
    | .error e => fail e
    | .ok addr => next addr)

/-- `Listener::bind`. -/
def Listener.bind (sunPath : ℕ) (answer : Syscall → Option Errno) (path : Bytes) (backlog : ℤ) :
    Done :=
  call answer ⟨.socket, []⟩ (withAddress sunPath path fun addr =>
    call answer ⟨.bind, [addr]⟩ (call answer ⟨.listen backlog, []⟩ done))

/-- `Stream::connect`. -/
def Stream.connect (sunPath : ℕ) (answer : Syscall → Option Errno) (path : Bytes) : Done :=
  call answer ⟨.socket, []⟩ (withAddress sunPath path fun addr =>
    call answer ⟨.connect, [addr]⟩ done)

variable {sunPath : ℕ} {answer : Syscall → Option Errno} {p : Bytes}

theorem address_of_long (h : sunPath ≤ p.length) :
    address sunPath p = .error Errno.ENAMETOOLONG := if_pos h

/-- **A path that fits is read up to its first NUL.** -/
theorem address_of_fits (h : p.length < sunPath) :
    ∃ addr, address sunPath p = .ok addr ∧ (cstr addr = p ↔ 0 ∉ p) := by
  refine ⟨_, if_neg (Nat.not_le.2 h), ?_⟩
  have hzeros : List.replicate (sunPath - p.length) (0 : UInt8) =
      0 :: List.replicate (sunPath - p.length - 1) 0 := by
    rw [← List.replicate_succ, Nat.sub_add_cancel (Nat.sub_pos_of_lt h)]
  rw [hzeros]
  exact cstr_eq_iff _

/-- **A path that does not fit is refused** by the code, and no name is read. -/
theorem refused_of_long (h : sunPath ≤ p.length) (hsocket : answer ⟨.socket, []⟩ = none)
    (next : Bytes → Done) :
    call answer ⟨.socket, []⟩ (withAddress sunPath p next) =
      ⟨[⟨.socket, []⟩, ⟨.close, []⟩], some Errno.ENAMETOOLONG⟩ := by
  simp [call, hsocket, withAddress, address_of_long h, closing, fail]

section
variable {next : (Syscall → Option Errno) → Bytes → Done}
  (hnext : ∀ answer addr, (next answer addr).read = [cstr addr])
include hnext

theorem read_of_fits (h : p.length < sunPath) (hsocket : answer ⟨.socket, []⟩ = none) :
    ∃ name, (call answer ⟨.socket, []⟩ (withAddress sunPath p (next answer))).read = [name] ∧
      (name = p ↔ 0 ∉ p) := by
  obtain ⟨addr, haddr, hcstr⟩ := address_of_fits h
  refine ⟨cstr addr, ?_, hcstr⟩
  rw [read_call_none hsocket, withAddress, haddr, read_closing]
  exact hnext answer addr

/-- What is done with the address of a path, whatever it is: `next` reads its name. -/
theorem sees_iff :
    (∀ answer, Sees [p] (call answer ⟨.socket, []⟩ (withAddress sunPath p (next answer)))) ↔
      0 ∉ p ∨ sunPath ≤ p.length := by
  constructor
  · intro h
    by_contra! hne
    obtain ⟨hmem, hlt⟩ := hne
    let answer : Syscall → Option Errno := fun _ => none
    have hsocket : answer ⟨.socket, []⟩ = none := rfl
    obtain ⟨name, hread, hname⟩ := read_of_fits hnext hlt hsocket
    rcases h answer with ⟨-, hnil⟩ | hsees
    · rw [hread] at hnil
      cases hnil
    · rw [hread, List.cons.injEq] at hsees
      exact hname.1 hsees.1 hmem
  · intro h answer
    cases hsocket : answer ⟨.socket, []⟩ with
    | some e =>
      refine .inl ⟨?_, read_call_some hsocket⟩
      rw [failed_call_some hsocket]
      exact Option.some_ne_none e
    | none =>
      by_cases hlong : sunPath ≤ p.length
      · rw [refused_of_long hlong hsocket]
        exact .inl ⟨Option.some_ne_none _, rfl⟩
      · obtain ⟨name, hread, hname⟩ := read_of_fits hnext (Nat.not_le.1 hlong) hsocket
        rw [hname.2 (h.resolve_right hlong)] at hread
        exact .inr hread

/-- A path that is too long is not refused at once: the socket has been opened. -/
theorem seesAtOnce_iff (hsocket : answer ⟨.socket, []⟩ = none) :
    SeesAtOnce [p] (call answer ⟨.socket, []⟩ (withAddress sunPath p (next answer))) ↔
      0 ∉ p ∧ p.length < sunPath := by
  rw [seesAtOnce_call]
  by_cases hlong : sunPath ≤ p.length
  · rw [refused_of_long hlong hsocket]
    simp [Done.read, Nat.not_lt.2 hlong]
  · have hlt := Nat.not_le.1 hlong
    obtain ⟨name, hread, hname⟩ := read_of_fits hnext hlt hsocket
    rw [hread, List.cons.injEq, hname]
    simp [hlt]

end

theorem Listener.bind_read (addr : Bytes) (backlog : ℤ) :
    (call answer ⟨.bind, [addr]⟩ (call answer ⟨.listen backlog, []⟩ done)).read = [cstr addr] := by
  cases hb : answer ⟨.bind, [addr]⟩ with
  | some e => exact read_call_some hb
  | none =>
    rw [read_call_none hb, read_call_done]
    rfl

theorem Stream.connect_read (addr : Bytes) :
    (call answer ⟨.connect, [addr]⟩ done).read = [cstr addr] :=
  read_call_done answer _

/-- **A listener is bound to the path given**, or it is refused, exactly if the path has no NUL or
    is too long. -/
theorem Listener.bind_sees (backlog : ℤ) :
    (∀ answer, Sees [p] (Listener.bind sunPath answer p backlog)) ↔ 0 ∉ p ∨ sunPath ≤ p.length :=
  sees_iff fun _ addr => Listener.bind_read addr backlog

theorem Listener.bind_seesAtOnce (backlog : ℤ) (hsocket : answer ⟨.socket, []⟩ = none) :
    SeesAtOnce [p] (Listener.bind sunPath answer p backlog) ↔ 0 ∉ p ∧ p.length < sunPath :=
  seesAtOnce_iff (fun _ addr => Listener.bind_read addr backlog) hsocket

/-- **A stream is connected to the path given**, or it is refused, in the same cases. -/
theorem Stream.connect_sees :
    (∀ answer, Sees [p] (Stream.connect sunPath answer p)) ↔ 0 ∉ p ∨ sunPath ≤ p.length :=
  sees_iff fun _ addr => Stream.connect_read addr

theorem Stream.connect_seesAtOnce (hsocket : answer ⟨.socket, []⟩ = none) :
    SeesAtOnce [p] (Stream.connect sunPath answer p) ↔ 0 ∉ p ∧ p.length < sunPath :=
  seesAtOnce_iff (fun _ addr => Stream.connect_read addr) hsocket

end Ekostd.Socket
