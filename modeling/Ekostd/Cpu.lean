/-
  `cpu.rs` — what an x86-64 processor can do.

  `detect_x86` reads a few words of `CPUID`, and `XCR0` where that can be read.
  A flag that it sets wrongly is a trap in the code that is generated for it.

  * `detectX86`: the reads, and the features that come of them;
  * `Feature.needs`: what an instruction of each feature needs;
  * `Reads`: the words tell the flags of the machine;
  * `detect_x86_exact`: the reads are all defined, the features are those the
    machine offers, and code that uses no others runs, there and on any machine
    that has as much.
-/
import Ekostd.Lib.Cpuid

namespace Ekostd.Cpu

open Cpuid

/-- `X86Features`. -/
structure X86Features where
  sse2 : Bool := false
  cmpxchg16b : Bool := false
  sse3 : Bool := false
  ssse3 : Bool := false
  sse41 : Bool := false
  sse42 : Bool := false
  popcnt : Bool := false
  avx : Bool := false
  avx2 : Bool := false
  fma : Bool := false
  avxVnni : Bool := false
  avx512vnni : Bool := false
  bmi1 : Bool := false
  bmi2 : Bool := false
  avx512bitalg : Bool := false
  avx512dq : Bool := false
  avx512f : Bool := false
  avx512vl : Bool := false
  avx512vbmi : Bool := false
  lzcnt : Bool := false
  deriving DecidableEq

/-- `bit`. -/
def bit (word : BitVec 32) (n : ℕ) : Bool := word &&& (1#32 <<< n) ≠ 0

/-- The words that the features are read from. -/
structure Words where
  infoEcx : BitVec 32
  infoEdx : BitVec 32
  extEbx : BitVec 32
  extEcx : BitVec 32
  extEax1 : BitVec 32
  extInfoEcx : BitVec 32

/-- The `CPUID`s of `detect_x86` after the first. -/
def words (m : Machine) (maxLeaf : BitVec 32) : Option Words := do
  let info ← m.ask 1#32 0#32
  let (extEbx, extEcx, extEax1) ←
    if 7#32 ≤ maxLeaf then do
      let ext ← m.ask 7#32 0#32
      let ext1 ← m.ask 7#32 1#32
      pure (ext.ebx, ext.ecx, ext1.eax)
    else pure (0#32, 0#32, 0#32)
  let maxExt ← m.ask 0x80000000#32 0#32
  let extInfoEcx ←
    if 0x80000001#32 ≤ maxExt.eax then do
      let extInfo ← m.ask 0x80000001#32 0#32
      pure extInfo.ecx
    else pure 0#32
  pure ⟨info.ecx, info.edx, extEbx, extEcx, extEax1, extInfoEcx⟩

/-- The features that need nothing of the system. -/
def Words.plain (w : Words) : X86Features where
  sse3 := bit w.infoEcx 0
  ssse3 := bit w.infoEcx 9
  cmpxchg16b := bit w.infoEcx 13
  sse41 := bit w.infoEcx 19
  sse42 := bit w.infoEcx 20
  popcnt := bit w.infoEcx 23
  sse2 := bit w.infoEdx 26
  bmi1 := bit w.extEbx 3
  bmi2 := bit w.extEbx 8
  lzcnt := bit w.extInfoEcx 5

/-- The features on wide registers. -/
def Words.avx (w : Words) (f : X86Features) : X86Features :=
  { f with
    fma := bit w.infoEcx 12
    avx := bit w.infoEcx 28
    avx2 := bit w.extEbx 5
    avxVnni := bit w.extEax1 4 }

/-- The features on the widest. -/
def Words.avx512 (w : Words) (f : X86Features) : X86Features :=
  { f with
    avx512f := bit w.extEbx 16
    avx512dq := bit w.extEbx 17
    avx512vl := bit w.extEbx 31
    avx512vbmi := bit w.extEcx 1
    avx512vnni := bit w.extEcx 11
    avx512bitalg := bit w.extEcx 12 }

/-- The state that AVX uses: SSE and AVX. -/
def avxState : BitVec 64 := 0b110

/-- The state that AVX-512 uses besides. -/
def avx512State : BitVec 64 := 0xe0

/-- `detect_x86`; it has no answer if it executes an instruction that is not defined. -/
def detectX86 (m : Machine) : Option X86Features := do
  let first ← m.ask 0#32 0#32
  if first.eax < 1#32 then return {}
  let w ← words m first.eax
  let f := w.plain
  let f16c := bit w.infoEcx 29
  let xsave := bit w.infoEcx 26
  let osxsave := bit w.infoEcx 27
  if !(xsave && osxsave) then return f
  let xcr0 ← m.xgetbv
  let osAvx := xcr0 &&& avxState = avxState
  let osAvx512 := xcr0 &&& avx512State = avx512State
  if ¬ osAvx then return f
  let f := w.avx f
  -- AVX-512F is made to imply FMA and F16C.
  if osAvx512 ∧ f16c ∧ f.fma then return w.avx512 f
  return f

/-! ## What the features stand for -/

inductive Feature where
  | sse2
  | cmpxchg16b
  | sse3
  | ssse3
  | sse41
  | sse42
  | popcnt
  | avx
  | avx2
  | fma
  | avxVnni
  | avx512vnni
  | bmi1
  | bmi2
  | avx512bitalg
  | avx512dq
  | avx512f
  | avx512vl
  | avx512vbmi
  | lzcnt
  deriving DecidableEq

def X86Features.get (f : X86Features) : Feature → Bool
  | .sse2 => f.sse2
  | .cmpxchg16b => f.cmpxchg16b
  | .sse3 => f.sse3
  | .ssse3 => f.ssse3
  | .sse41 => f.sse41
  | .sse42 => f.sse42
  | .popcnt => f.popcnt
  | .avx => f.avx
  | .avx2 => f.avx2
  | .fma => f.fma
  | .avxVnni => f.avxVnni
  | .avx512vnni => f.avx512vnni
  | .bmi1 => f.bmi1
  | .bmi2 => f.bmi2
  | .avx512bitalg => f.avx512bitalg
  | .avx512dq => f.avx512dq
  | .avx512f => f.avx512f
  | .avx512vl => f.avx512vl
  | .avx512vbmi => f.avx512vbmi
  | .lzcnt => f.lzcnt

/-- A flag of leaf 1 in `ecx`, of leaf 7 in `ebx` and in `ecx`. -/
def info (n : ℕ) : Flag := ⟨1#32, 0#32, .ecx, n⟩

def extEbx (n : ℕ) : Flag := ⟨7#32, 0#32, .ebx, n⟩

def extEcx (n : ℕ) : Flag := ⟨7#32, 0#32, .ecx, n⟩

/-- An instruction on the registers that everything keeps. -/
def plain (f : Flag) : Needs := ⟨[f], 0⟩

def onAvx (f : Flag) : Needs := ⟨[f], avxState⟩

/-- No processor has AVX-512 without F16C and FMA. -/
def onAvx512 (f : Flag) : Needs := ⟨[f, info 29, info 12], avxState ||| avx512State⟩

/-- What an instruction of the feature needs. -/
def Feature.needs : Feature → Needs
  | sse2 => plain ⟨1#32, 0#32, .edx, 26⟩
  | cmpxchg16b => plain (info 13)
  | sse3 => plain (info 0)
  | ssse3 => plain (info 9)
  | sse41 => plain (info 19)
  | sse42 => plain (info 20)
  | popcnt => plain (info 23)
  | bmi1 => plain (extEbx 3)
  | bmi2 => plain (extEbx 8)
  | lzcnt => plain ⟨0x80000001#32, 0#32, .ecx, 5⟩
  | avx => onAvx (info 28)
  | avx2 => onAvx (extEbx 5)
  | fma => onAvx (info 12)
  | avxVnni => onAvx ⟨7#32, 1#32, .eax, 4⟩
  | avx512f => onAvx512 (extEbx 16)
  | avx512dq => onAvx512 (extEbx 17)
  | avx512vl => onAvx512 (extEbx 31)
  | avx512vbmi => onAvx512 (extEcx 1)
  | avx512vnni => onAvx512 (extEcx 11)
  | avx512bitalg => onAvx512 (extEcx 12)

/-! ## What the words tell -/

variable {m : Machine} {w : Words} {f : X86Features}

theorem bit_eq (word : BitVec 32) {n : ℕ} (hn : n < 32) : bit word n = word.getLsbD n := by
  have hne : BitVec.twoPow 32 n ≠ 0#32 := by
    intro h
    have hbit := congrArg (fun x => x.getLsbD n) h
    simp [hn] at hbit
  rw [bit, ← BitVec.twoPow_eq, BitVec.and_twoPow]
  cases word.getLsbD n <;> simp [hne]

/-- The bits of the words are the flags of the machine. -/
structure Reads (m : Machine) (w : Words) : Prop where
  infoEcx : ∀ n < 32, bit w.infoEcx n = true ↔ m.Has (info n)
  infoEdx : ∀ n < 32, bit w.infoEdx n = true ↔ m.Has ⟨1#32, 0#32, .edx, n⟩
  extEbx : ∀ n < 32, bit w.extEbx n = true ↔ m.Has (extEbx n)
  extEcx : ∀ n < 32, bit w.extEcx n = true ↔ m.Has (extEcx n)
  extEax1 : ∀ n < 32, bit w.extEax1 n = true ↔ m.Has ⟨7#32, 1#32, .eax, n⟩
  extInfoEcx : ∀ n < 32, bit w.extInfoEcx n = true ↔ m.Has ⟨0x80000001#32, 0#32, .ecx, n⟩

theorem bit_iff_has {f : Flag} {word : BitVec 32} (hn : f.bit < 32)
    (hword : word = if m.HasLeaf f.leaf then (m.cpuid f.leaf f.sub).get f.reg else 0#32) :
    bit word f.bit = true ↔ m.Has f := by
  rw [bit_eq word hn, hword, Machine.Has]
  split_ifs with hleaf <;> simp [hleaf]

/-- **The words** are asked for where there are their leaves. -/
theorem words_reads (h : m.HasLeaf 1#32) :
    ∃ w, words m (m.cpuid 0#32 0#32).eax = some w ∧ Reads m w := by
  have hseven : m.HasLeaf 7#32 ↔ 7#32 ≤ (m.cpuid 0#32 0#32).eax := by
    rw [Machine.HasLeaf, Machine.maxLeaf, if_pos (by decide)]
  have hext : m.HasLeaf 0x80000001#32 ↔ 0x80000001#32 ≤ (m.cpuid 0x80000000#32 0#32).eax := by
    rw [Machine.HasLeaf, Machine.maxLeaf, if_neg (by decide), extended]
  have hask : m.ask 0x80000000#32 0#32 = some (m.cpuid 0x80000000#32 0#32) :=
    if_pos (.inr (.inl rfl))
  refine ⟨⟨(m.cpuid 1#32 0#32).ecx, (m.cpuid 1#32 0#32).edx,
    if m.HasLeaf 7#32 then (m.cpuid 7#32 0#32).ebx else 0#32,
    if m.HasLeaf 7#32 then (m.cpuid 7#32 0#32).ecx else 0#32,
    if m.HasLeaf 7#32 then (m.cpuid 7#32 1#32).eax else 0#32,
    if m.HasLeaf 0x80000001#32 then (m.cpuid 0x80000001#32 0#32).ecx else 0#32⟩, ?_, ?_⟩
  · rw [words, Machine.ask_of_hasLeaf h, hask]
    by_cases h7 : m.HasLeaf 7#32 <;> by_cases hx : m.HasLeaf 0x80000001#32 <;>
      simp [h7, hx, ← hseven, ← hext, Machine.ask_of_hasLeaf]
  · constructor
    · exact fun n hn => bit_iff_has (f := info n) hn (if_pos h).symm
    · exact fun n hn => bit_iff_has (f := ⟨1#32, 0#32, .edx, n⟩) hn (if_pos h).symm
    · exact fun n hn => bit_iff_has (f := extEbx n) hn rfl
    · exact fun n hn => bit_iff_has (f := extEcx n) hn rfl
    · exact fun n hn => bit_iff_has (f := ⟨7#32, 1#32, .eax, n⟩) hn rfl
    · exact fun n hn => bit_iff_has (f := ⟨0x80000001#32, 0#32, .ecx, n⟩) hn rfl

/-! ## What is detected -/

theorem offers_plain {f : Flag} : m.Offers (plain f) ↔ m.Has f := by
  simp [Machine.Offers, plain]

theorem offers_onAvx {f : Flag} : m.Offers (onAvx f) ↔ m.Has f ∧ m.Saves avxState := by
  simp [Machine.Offers, onAvx, avxState]

theorem offers_onAvx512 {f : Flag} : m.Offers (onAvx512 f) ↔
    (m.Has f ∧ m.Has (info 29) ∧ m.Has (info 12)) ∧ m.Saves avxState ∧ m.Saves avx512State := by
  rw [← Machine.saves_or]
  simp [Machine.Offers, onAvx512, avxState, avx512State]

/-- Each feature that is set is one that the machine offers, and the other way round. -/
def Exact (m : Machine) (f : X86Features) : Prop := ∀ x, f.get x = true ↔ m.Offers x.needs

theorem Reads.plain_exact (h : Reads m w) (hstate : ¬ m.Saves avxState) : Exact m w.plain := by
  intro x
  cases x <;> simp [Feature.needs, X86Features.get, Words.plain, offers_plain, offers_onAvx,
    offers_onAvx512, hstate, h.infoEcx, h.infoEdx, h.extEbx, h.extInfoEcx]

theorem Reads.avx_exact (h : Reads m w) (hstate : m.Saves avxState)
    (hwide : ¬(m.Saves avx512State ∧ m.Has (info 29) ∧ m.Has (info 12))) :
    Exact m (w.avx w.plain) := by
  have hno : ∀ f, ¬ m.Offers (onAvx512 f) := fun f hf =>
    have ⟨⟨_, hflags⟩, _, hstate⟩ := offers_onAvx512.1 hf
    hwide ⟨hstate, hflags⟩
  intro x
  cases x <;> simp [Feature.needs, X86Features.get, Words.plain, Words.avx, offers_plain,
    offers_onAvx, hno, hstate, h.infoEcx, h.infoEdx, h.extEbx, h.extEax1, h.extInfoEcx]

theorem Reads.avx512_exact (h : Reads m w) (hstate : m.Saves avxState)
    (hwide : m.Saves avx512State ∧ m.Has (info 29) ∧ m.Has (info 12)) :
    Exact m (w.avx512 (w.avx w.plain)) := by
  intro x
  cases x <;> simp [Feature.needs, X86Features.get, Words.plain, Words.avx, Words.avx512,
    offers_plain, offers_onAvx, offers_onAvx512, hstate, hwide, h.infoEcx, h.infoEdx, h.extEbx,
    h.extEcx, h.extEax1, h.extInfoEcx]

theorem get_default (x : Feature) : X86Features.get {} x = false := by
  cases x <;> rfl

/-- **The reads are all defined**, and the features are those of the machine. -/
theorem detectX86_exact (h : m.HasLeaf 1#32) : ∃ f, detectX86 m = some f ∧ Exact m f := by
  obtain ⟨w, hw, hr⟩ := words_reads h
  have hask : m.ask 0#32 0#32 = some (m.cpuid 0#32 0#32) := if_pos (.inl rfl)
  have hfirst : (m.cpuid 0#32 0#32).eax ≠ 0#32 := by
    intro hzero
    have hone : 1#32 ≤ (m.cpuid 0#32 0#32).eax := h
    rw [hzero] at hone
    exact absurd hone (by decide)
  have hxsave : bit w.infoEcx 26 = true ↔ m.Has xsave := hr.infoEcx 26 (by decide)
  have hosxsave : bit w.infoEcx 27 = true ↔ m.Has osxsave := hr.infoEcx 27 (by decide)
  by_cases hkept : m.Has xsave ∧ m.Has osxsave
  · have hbits : bit w.infoEcx 26 = true ∧ bit w.infoEcx 27 = true :=
      ⟨hxsave.2 hkept.1, hosxsave.2 hkept.2⟩
    have hxgetbv : m.xgetbv = some m.xcr0 := if_pos hkept.2
    have hsaves : ∀ state, m.Saves state ↔ m.xcr0 &&& state = state := fun state =>
      ⟨fun hs => hs.2.2, fun hs => ⟨hkept.1, hkept.2, hs⟩⟩
    by_cases hstate : m.Saves avxState
    · have hos := (hsaves _).1 hstate
      have hiff : m.Saves avx512State ∧ m.Has (info 29) ∧ m.Has (info 12) ↔
          m.xcr0 &&& avx512State = avx512State ∧ bit w.infoEcx 29 = true ∧
            (w.avx w.plain).fma = true := by
        rw [hsaves, ← hr.infoEcx 29 (by decide), ← hr.infoEcx 12 (by decide)]
        rfl
      by_cases hwide : m.Saves avx512State ∧ m.Has (info 29) ∧ m.Has (info 12)
      · refine ⟨w.avx512 (w.avx w.plain), ?_, hr.avx512_exact hstate hwide⟩
        simp [detectX86, hask, hfirst, hw, hbits, hxgetbv, hos, hiff.1 hwide]
      · refine ⟨w.avx w.plain, ?_, hr.avx_exact hstate hwide⟩
        simp [detectX86, hask, hfirst, hw, hbits, hxgetbv, hos, mt hiff.2 hwide]
    · refine ⟨w.plain, ?_, hr.plain_exact hstate⟩
      simp [detectX86, hask, hfirst, hw, hxgetbv, mt (hsaves _).2 hstate]
  · refine ⟨w.plain, ?_, hr.plain_exact fun hstate => hkept ⟨hstate.1, hstate.2.1⟩⟩
    rw [← hxsave, ← hosxsave, ← Bool.and_eq_true, Bool.not_eq_true] at hkept
    rcases Bool.and_eq_false_iff.1 hkept with h26 | h27
    · simp [detectX86, hask, hfirst, hw, h26]
    · simp [detectX86, hask, hfirst, hw, h27]

/-- What the features of `m` are good for.

    * `exact`: a feature is there exactly if the machine offers it; one without leaf 1 has none;
    * `runs`: code that uses no others runs, also on a machine that has more. -/
structure Detected (m : Machine) (f : X86Features) : Prop where
  exact : ∀ x, f.get x = true ↔ m.HasLeaf 1#32 ∧ m.Offers x.needs
  runs : ∀ m', m.Below m' → ∀ code : List Feature, (∀ x ∈ code, f.get x = true) →
    m'.run (code.map Feature.needs) = some ()

/-- **`detect_x86`** is defined on every machine, and what it reports can be used: on no machine
    does the generated code trap, and no feature is left out that has all it `needs`, which for
    those of AVX-512 is also F16C and FMA. -/
theorem detect_x86_exact (m : Machine) : ∃ f, detectX86 m = some f ∧ Detected m f := by
  obtain ⟨f, hf, hexact⟩ : ∃ f, detectX86 m = some f ∧
      ∀ x, f.get x = true ↔ m.HasLeaf 1#32 ∧ m.Offers x.needs := by
    by_cases h : m.HasLeaf 1#32
    · obtain ⟨f, hf, hexact⟩ := detectX86_exact h
      exact ⟨f, hf, fun x => by rw [hexact x, and_iff_right h]⟩
    · have hask : m.ask 0#32 0#32 = some (m.cpuid 0#32 0#32) := if_pos (.inl rfl)
      have hfirst : (m.cpuid 0#32 0#32).eax < 1#32 := BitVec.not_le.1 h
      refine ⟨{}, ?_, fun x => by simp [get_default, h]⟩
      rw [detectX86, hask]
      exact if_pos hfirst
  refine ⟨f, hf, hexact, fun m' hle code hcode => Machine.run_of_offers fun y hy => ?_⟩
  obtain ⟨x, hx, rfl⟩ := List.mem_map.1 hy
  exact ((hexact x).1 (hcode x hx)).2.mono hle

end Ekostd.Cpu
