/-
  `path.rs` — paths as byte strings.

  A `Path` and a `PathBuf` are their bytes.  What the kernel sees of one is
  what `as_c` makes of it, up to the first NUL byte.
-/
import Ekostd.Lib.PosixErase

namespace Ekostd.Path

open PosixFs

/-- `Path::is_absolute`. -/
def isAbsolute (self : Bytes) : Bool := self.head? = some slash

theorem isAbsolute_iff {p : Bytes} : isAbsolute p = true ↔ ∃ rest, p = slash :: rest := by
  simp [isAbsolute, List.head?_eq_some_iff]

/-- `PathBuf::push`. -/
def push (self other : Bytes) : Bytes :=
  if other.head? = some slash then other
  else (if self ≠ [] ∧ self.getLast? ≠ some slash then self ++ [slash] else self) ++ other

/-- `Path::join`. -/
def join (self other : Bytes) : Bytes := push self other

/-- `Path::as_c`. -/
def asC (self : Bytes) : Bytes := self ++ [0]

/-- What a C function reads of a path. -/
def kernel (self : Bytes) : Bytes := cstr (asC self)

/-- **A path without NUL is passed whole.** -/
theorem kernel_of_notMem {p : Bytes} (h : 0 ∉ p) : kernel p = p := (cstr_eq_iff []).2 h

/-- Of a path with NUL only what is before it is passed, whatever is appended. -/
theorem kernel_append {p : Bytes} (h : 0 ∈ p) (q : Bytes) : kernel (p ++ q) = kernel p := by
  simp only [kernel, asC, cstr, List.append_assoc]
  induction p with
  | nil => cases h
  | cons b p ih =>
    by_cases hb : b = 0
    · simp [hb]
    · have hp : 0 ∈ p := by
        rcases List.mem_cons.1 h with h0 | hp
        · exact absurd h0.symm hb
        · exact hp
      simpa [hb] using ih hp

theorem join_extends {p n : Bytes} (hn : ValidName n) (hp : p ≠ []) :
    Fs.Extends p n (join p n) := by
  have hrel : n.head? ≠ some slash := fun h => hn.noSlash (List.mem_of_head? h)
  unfold join push
  rw [if_neg hrel]
  split_ifs with hlast
  · rw [List.append_assoc]
    exact Fs.ValidName.extends hn hp
  · have hslash : p.getLast? = some slash := by
      by_contra hne
      exact hlast ⟨hp, hne⟩
    exact Fs.ValidName.extends_slash hn hslash

theorem join_prefix {p n : Bytes} (hn : ValidName n) : ∃ q, join p n = p ++ q := by
  have hrel : n.head? ≠ some slash := fun h => hn.noSlash (List.mem_of_head? h)
  unfold join push
  rw [if_neg hrel]
  split_ifs
  · exact ⟨[slash] ++ n, by rw [List.append_assoc]⟩
  · exact ⟨n, rfl⟩

theorem join_noNul {p n : Bytes} (hp : 0 ∉ p) (hn : 0 ∉ n) : 0 ∉ join p n := by
  have hslash : (0 : UInt8) ≠ slash := by decide
  unfold join push
  split_ifs <;> simp [hp, hn, hslash]

end Ekostd.Path
