/-
  What a processor can do — `CPUID`, `XGETBV`, and the code that relies on it.

  The answers of `CPUID` are by leaf and subleaf, and mean something up to the
  last leaf of their range.  Wide registers can be used if the system keeps them
  over a switch, which `XCR0` tells; it can be read where `OSXSAVE` is set.

  * `ask`, `xgetbv`: the instructions, which fail where they are not defined;
  * `Has`, `Saves`, `Offers`: what there is on a machine;
  * `run`: code, which traps at an instruction that is not there;
  * `Below`: a machine that has whatever another one has.
-/
import Mathlib.Data.BitVec

namespace Cpuid

/-- The registers that `CPUID` writes. -/
inductive Reg where
  | eax
  | ebx
  | ecx
  | edx
  deriving DecidableEq

/-- An answer of `CPUID`. -/
structure Answer where
  eax : BitVec 32
  ebx : BitVec 32
  ecx : BitVec 32
  edx : BitVec 32

def Answer.get (a : Answer) : Reg → BitVec 32
  | .eax => a.eax
  | .ebx => a.ebx
  | .ecx => a.ecx
  | .edx => a.edx

/-- A processor, with the registers that its system keeps. -/
structure Machine where
  cpuid : BitVec 32 → BitVec 32 → Answer
  xcr0 : BitVec 64

/-- A bit of an answer. -/
structure Flag where
  leaf : BitVec 32
  sub : BitVec 32
  reg : Reg
  bit : ℕ

/-- What an instruction needs: flags, and registers that are kept. -/
structure Needs where
  flags : List Flag
  state : BitVec 64

/-- The first leaf of the extended range. -/
def extended : BitVec 32 := 0x80000000#32

def xsave : Flag := ⟨1#32, 0#32, .ecx, 26⟩

def osxsave : Flag := ⟨1#32, 0#32, .ecx, 27⟩

namespace Machine

variable (m : Machine)

/-- The last leaf of the range of `leaf`. -/
def maxLeaf (leaf : BitVec 32) : BitVec 32 :=
  (m.cpuid (if leaf < extended then 0#32 else extended) 0#32).eax

/-- The answer for `leaf` means something. -/
def HasLeaf (leaf : BitVec 32) : Prop := leaf ≤ m.maxLeaf leaf

instance (leaf : BitVec 32) : Decidable (m.HasLeaf leaf) :=
  inferInstanceAs (Decidable (leaf ≤ m.maxLeaf leaf))

/-- The flag is set. -/
def Has (f : Flag) : Prop :=
  m.HasLeaf f.leaf ∧ ((m.cpuid f.leaf f.sub).get f.reg).getLsbD f.bit = true

instance (f : Flag) : Decidable (m.Has f) := inferInstanceAs (Decidable (_ ∧ _))

/-- The system keeps the registers `state`. -/
def Saves (state : BitVec 64) : Prop :=
  m.Has xsave ∧ m.Has osxsave ∧ m.xcr0 &&& state = state

instance (state : BitVec 64) : Decidable (m.Saves state) := inferInstanceAs (Decidable (_ ∧ _))

/-- An instruction with these needs is there. -/
def Offers (x : Needs) : Prop := (∀ f ∈ x.flags, m.Has f) ∧ (x.state ≠ 0 → m.Saves x.state)

instance (x : Needs) : Decidable (m.Offers x) := inferInstanceAs (Decidable (_ ∧ _))

/-- `CPUID`; the first leaf of a range is always there. -/
def ask (leaf sub : BitVec 32) : Option Answer :=
  if leaf = 0#32 ∨ leaf = extended ∨ m.HasLeaf leaf then some (m.cpuid leaf sub) else none

/-- `XGETBV`. -/
def xgetbv : Option (BitVec 64) := if m.Has osxsave then some m.xcr0 else none

/-- Code, each instruction by its needs; it traps at one that is not there. -/
def run : List Needs → Option Unit
  | [] => some ()
  | x :: code => if m.Offers x then run code else none

/-- What `m` has, `m'` has. -/
structure Below (m m' : Machine) : Prop where
  flags : ∀ f, m.Has f → m'.Has f
  state : ∀ state, m.Saves state → m'.Saves state

variable {m} {m' : Machine}

theorem Offers.mono {x : Needs} (h : m.Offers x) (hle : m.Below m') : m'.Offers x :=
  ⟨fun f hf => hle.flags f (h.1 f hf), fun hstate => hle.state _ (h.2 hstate)⟩

/-- **Code runs** on a machine that offers all its instructions. -/
theorem run_of_offers {code : List Needs} (h : ∀ x ∈ code, m.Offers x) : m.run code = some () := by
  induction code with
  | nil => rfl
  | cons x code ih =>
    rw [run, if_pos (h x List.mem_cons_self)]
    exact ih fun y hy => h y (List.mem_cons_of_mem _ hy)

theorem ask_of_hasLeaf {leaf : BitVec 32} (h : m.HasLeaf leaf) (sub : BitVec 32) :
    m.ask leaf sub = some (m.cpuid leaf sub) := if_pos (.inr (.inr h))

theorem and_eq_right_iff {n : ℕ} {x a : BitVec n} :
    x &&& a = a ↔ ∀ i, a.getLsbD i = true → x.getLsbD i = true := by
  constructor
  · intro h i ha
    rw [← h, BitVec.getLsbD_and, Bool.and_eq_true] at ha
    exact ha.1
  · intro h
    refine BitVec.eq_of_getLsbD_eq fun i _ => ?_
    rw [BitVec.getLsbD_and]
    cases ha : a.getLsbD i with
    | false => rw [Bool.and_false]
    | true => rw [h i ha, Bool.and_true]

theorem saves_or {a b : BitVec 64} : m.Saves (a ||| b) ↔ m.Saves a ∧ m.Saves b := by
  have hbits : m.xcr0 &&& (a ||| b) = a ||| b ↔ m.xcr0 &&& a = a ∧ m.xcr0 &&& b = b := by
    simp only [and_eq_right_iff, BitVec.getLsbD_or, Bool.or_eq_true]
    exact ⟨fun h => ⟨fun i hi => h i (.inl hi), fun i hi => h i (.inr hi)⟩,
      fun h i hi => hi.elim (h.1 i) (h.2 i)⟩
  unfold Saves
  tauto

end Machine

end Cpuid
