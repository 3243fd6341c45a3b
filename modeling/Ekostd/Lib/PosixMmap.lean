/-
  POSIX mappings: `mmap`, `mprotect` and `munmap` over an address space of pages.

  Where a mapping goes is up to the system, and so is whether a call fails; a
  `mprotect` that fails may have changed some of the pages, and a `munmap` that
  fails may have taken some of them away.

  * `Prot.ofBits`: what the `PROT_*` bits of a call let a page be used for;
  * `Touches`: the pages that have a byte of a range;
  * `mmap`, `mprotect`, `munmap`, and a store and a load, which may fault.
-/
import Ekostd.Lib.CRes
import Ekostd.Lib.PosixFs

namespace PosixMmap

open PosixFs

def PROT_NONE : BitVec 32 := 0
def PROT_READ : BitVec 32 := 1
def PROT_WRITE : BitVec 32 := 2
def PROT_EXEC : BitVec 32 := 4

/-- What a page may be used for. -/
structure Prot where
  read : Bool
  write : Bool
  exec : Bool
  deriving DecidableEq

/-- What the bits of a `c_int` ask for; the others, that a system may have, are not about this. -/
def Prot.ofBits (bits : BitVec 32) : Prot where
  read := bits.getLsbD 0
  write := bits.getLsbD 1
  exec := bits.getLsbD 2

/-- A page that may be written and executed. -/
def Prot.WriteExec (p : Prot) : Bool := p.write && p.exec

@[simp] theorem Prot.ofBits_or (a b : BitVec 32) : Prot.ofBits (a ||| b) =
    ⟨(ofBits a).read || (ofBits b).read, (ofBits a).write || (ofBits b).write,
      (ofBits a).exec || (ofBits b).exec⟩ := by
  simp [Prot.ofBits]

/-- An address space: the protection of each page that is mapped, and what is at each address. -/
structure Space where
  prot : ℕ → Option Prot
  mem : ℕ → UInt8

/-- A byte of the range is in the page `i`. -/
def Touches (page ptr len i : ℕ) : Prop := ∃ k < len, (ptr + k) / page = i

instance (page ptr len i : ℕ) : Decidable (Touches page ptr len i) :=
  inferInstanceAs (Decidable (∃ k < len, _))

theorem Touches.mono {page ptr len off len' i : ℕ} (h : Touches page (ptr + off) len' i)
    (hle : off + len' ≤ len) : Touches page ptr len i := by
  obtain ⟨k, hk, rfl⟩ := h
  exact ⟨off + k, by omega, by rw [Nat.add_assoc]⟩

/-- All of the range is mapped. -/
def Space.Mapped (page ptr len : ℕ) (s : Space) : Prop :=
  ∀ k < len, (s.prot ((ptr + k) / page)).isSome

instance (page ptr len : ℕ) (s : Space) : Decidable (s.Mapped page ptr len) :=
  inferInstanceAs (Decidable (∀ k < len, _))

/-- Nothing of the range is mapped. -/
def Space.Free (page ptr len : ℕ) (s : Space) : Prop :=
  ∀ k < len, s.prot ((ptr + k) / page) = none

instance (page ptr len : ℕ) (s : Space) : Decidable (s.Free page ptr len) :=
  inferInstanceAs (Decidable (∀ k < len, _))

namespace Space

variable (page : ℕ) {s : Space} {ptr len i : ℕ}

/-- The pages of a range get another protection, or none. -/
def set (ptr len : ℕ) (p : Option Prot) (s : Space) : Space :=
  { s with prot := fun i => if Touches page ptr len i then p else s.prot i }

/-- The pages of a range are filled. -/
def fill (ptr len : ℕ) (bytes : Bytes) (s : Space) : Space :=
  { s with mem := fun a =>
      if Touches page ptr len (a / page) then bytes.getD (a - ptr) 0 else s.mem a }

/-- `mmap`, private, of these bytes and zeros after them. -/
def mmap (len : ℕ) (prot : BitVec 32) (bytes : Bytes) (ans : Except Errno ℕ) (s : Space) :
    CRes (Except Errno ℕ × Space) :=
  if len = 0 then .ok (.error Errno.EINVAL, s)
  else match ans with
    | .error e => .ok (.error e, s)
    | .ok ptr =>
      if page ∣ ptr ∧ s.Free page ptr len then
        .ok (.ok ptr, (s.fill page ptr len bytes).set page ptr len (some (.ofBits prot)))
      else .never

/-- `mprotect`; where it fails, it may have been through some of the bytes. -/
def mprotect (ptr len : ℕ) (prot : BitVec 32) (ans : Option (Errno × ℕ)) (s : Space) :
    CRes (Errno × Space) :=
  if ¬page ∣ ptr then .ok (Errno.EINVAL, s)
  else match ans with
    | none =>
      if s.Mapped page ptr len then .ok (0, s.set page ptr len (some (.ofBits prot))) else .never
    | some (e, done) =>
      if e ≠ 0 ∧ done ≤ len ∧ s.Mapped page ptr done then
        .ok (e, s.set page ptr done (some (.ofBits prot)))
      else .never

/-- `munmap`; where it fails, it may have been through some of the bytes. -/
def munmap (ptr len : ℕ) (ans : Option (Errno × ℕ)) (s : Space) : CRes (Errno × Space) :=
  if len = 0 ∨ ¬page ∣ ptr then .ok (Errno.EINVAL, s)
  else match ans with
    | none => .ok (0, s.set page ptr len none)
    | some (e, done) => if e ≠ 0 ∧ done ≤ len then .ok (e, s.set page ptr done none) else .never

/-- A store, which faults where the page may not be written. -/
def store (a : ℕ) (b : UInt8) (s : Space) : CRes Space :=
  if (s.prot (a / page)).any Prot.write then .ok { s with mem := Function.update s.mem a b }
  else .undefined

/-- A load, which faults where the page may not be read. -/
def load (a : ℕ) (s : Space) : CRes UInt8 :=
  if (s.prot (a / page)).any Prot.read then .ok (s.mem a) else .undefined

/-- The memory is the same, and outside the range so is what is mapped. -/
structure Within (ptr len : ℕ) (s s' : Space) : Prop where
  prot : ∀ i, ¬Touches page ptr len i → s'.prot i = s.prot i
  mem : s'.mem = s.mem

/-! ## What they leave -/

variable {page}

theorem touches_self {k : ℕ} (hk : k < len) : Touches page ptr len ((ptr + k) / page) :=
  ⟨k, hk, rfl⟩

@[simp] theorem set_mem (ptr len : ℕ) (p : Option Prot) (s : Space) :
    (s.set page ptr len p).mem = s.mem := rfl

@[simp] theorem fill_prot (ptr len : ℕ) (bytes : Bytes) (s : Space) :
    (s.fill page ptr len bytes).prot = s.prot := rfl

theorem set_prot_of_touches {p : Option Prot} (h : Touches page ptr len i) :
    (s.set page ptr len p).prot i = p := if_pos h

theorem set_prot_of_not {p : Option Prot} (h : ¬Touches page ptr len i) :
    (s.set page ptr len p).prot i = s.prot i := if_neg h

theorem fill_mem_self {bytes : Bytes} {k : ℕ} (hk : k < len) :
    (s.fill page ptr len bytes).mem (ptr + k) = bytes.getD k 0 := by
  refine (if_pos (touches_self hk)).trans ?_
  rw [Nat.add_sub_cancel_left]

theorem fill_mem_of_not {bytes : Bytes} {a : ℕ} (h : ¬Touches page ptr len (a / page)) :
    (s.fill page ptr len bytes).mem a = s.mem a := if_neg h

@[simp] theorem set_zero (ptr : ℕ) (p : Option Prot) (s : Space) : s.set page ptr 0 p = s := by
  simp [set, Touches]

@[simp] theorem fill_zero (ptr : ℕ) (bytes : Bytes) (s : Space) :
    s.fill page ptr 0 bytes = s := by
  simp [fill, Touches]

theorem Within.refl (s : Space) : Within page ptr len s s := ⟨fun _ _ => rfl, rfl⟩

theorem Within.trans {s₁ s₂ : Space} (h₁ : Within page ptr len s s₁)
    (h₂ : Within page ptr len s₁ s₂) : Within page ptr len s s₂ where
  prot i hi := (h₂.prot i hi).trans (h₁.prot i hi)
  mem := h₂.mem.trans h₁.mem

theorem set_within (off : ℕ) {done : ℕ} (hle : off + done ≤ len) (p : Option Prot) :
    Within page ptr len s (s.set page (ptr + off) done p) where
  prot _ hi := set_prot_of_not fun hpart => hi (hpart.mono hle)
  mem := rfl

/-- **`mmap`** fails, or maps what was free. -/
theorem mmap_gives {prot : BitVec 32} {bytes : Bytes} {ans : Except Errno ℕ} :
    (s.mmap page len prot bytes ans).Gives fun r =>
      (∃ e, (len ≠ 0 → ans = .error e) ∧ r = (.error e, s)) ∨
      ∃ ptr, ans = .ok ptr ∧ page ∣ ptr ∧ s.Free page ptr len ∧
        r = (.ok ptr, (s.fill page ptr len bytes).set page ptr len (some (.ofBits prot))) := by
  unfold mmap
  split_ifs with hlen
  · exact .inl ⟨_, fun h => absurd hlen h, rfl⟩
  · cases ans with
    | error e => exact .inl ⟨e, fun _ => rfl, rfl⟩
    | ok ptr =>
      dsimp only
      split_ifs with hfree
      · exact .inr ⟨ptr, rfl, hfree.1, hfree.2, rfl⟩
      · trivial

/-- **`mprotect`** changes the pages of all or of some of the range. -/
theorem mprotect_gives {prot : BitVec 32} {ans : Option (Errno × ℕ)} :
    (s.mprotect page ptr len prot ans).Gives fun r => ∃ done ≤ len, s.Mapped page ptr done ∧
      r.2 = s.set page ptr done (some (.ofBits prot)) ∧ (r.1 = 0 → done = len) := by
  unfold mprotect
  by_cases hptr : page ∣ ptr
  · rw [if_neg (not_not.2 hptr)]
    rcases ans with _ | ⟨e, done⟩
    · dsimp only
      split_ifs with hmapped
      · exact ⟨len, le_rfl, hmapped, rfl, fun _ => rfl⟩
      · trivial
    · dsimp only
      split_ifs with hdone
      · exact ⟨done, hdone.2.1, hdone.2.2, rfl, fun h => absurd h hdone.1⟩
      · trivial
  · rw [if_pos hptr]
    exact ⟨0, Nat.zero_le _, by simp [Mapped], (set_zero ..).symm, fun h => by cases h⟩

/-- **`munmap`** of a mapping takes its pages away, or some of them. -/
theorem munmap_gives (hptr : page ∣ ptr) {ans : Option (Errno × ℕ)} :
    (s.munmap page ptr len ans).Gives fun r => Within page ptr len s r.2 ∧
      (ans = none → ∀ i, Touches page ptr len i → r.2.prot i = none) := by
  unfold munmap
  split_ifs with hnone
  · obtain rfl : len = 0 := hnone.resolve_right (not_not.2 hptr)
    exact ⟨.refl s, fun _ i ⟨k, hk, _⟩ => absurd hk (Nat.not_lt_zero k)⟩
  · rcases ans with _ | ⟨e, done⟩
    · exact ⟨set_within 0 (by omega) none, fun _ i hi => set_prot_of_touches hi⟩
    · dsimp only
      split_ifs with hdone
      · exact ⟨set_within 0 (by omega) none, nofun⟩
      · trivial

end Space

end PosixMmap
