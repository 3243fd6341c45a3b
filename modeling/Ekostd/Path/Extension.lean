/-
  `Path::file_stem`, `Path::with_extension` and `PathBuf::set_extension`.

  The stem goes through the file name of a path, which skips what makes no
  part at its end.  A new extension is put after what follows the last
  separator, whatever that is.

  * `setExtension_append`: what setting an extension does;
  * `ExtensionAgrees`: it replaces the extension of the file name, and nothing
    else;
  * `set_extension_agrees`: it does so exactly for the paths that end with
    their file name.
-/
import Ekostd.Path.Walk

namespace Ekostd.Path

open PosixFs List

/-- The byte before an extension. -/
def period : UInt8 := 46

/-- Where the last dot of a name is. -/
def lastPeriod (name : Bytes) : Option ℕ := rposition (· = period) name

/-- `Path::file_stem`. -/
def fileStem (self : Bytes) : Except OutOfRange (Option Bytes) := do
  let some name ← fileName self | return none
  match lastPeriod name with
  | some 0 | none => return some name
  | some i => return some (← slice name 0 i)

/-- Where the name that `set_extension` looks at starts. -/
def nameStart (self : Bytes) : ℕ := (lastSlash self).elim 0 (· + 1)

/-- `PathBuf::set_extension`. -/
def setExtension (self ext : Bytes) : Except OutOfRange Bytes := do
  let name ← slice self (nameStart self) self.length
  let self :=
    match lastPeriod name with
    | some i => if i ≠ 0 then self.take (nameStart self + i) else self
    | none => self
  return if ext ≠ [] then self ++ period :: ext else self

/-- `Path::with_extension`. -/
def withExtension (self ext : Bytes) : Except OutOfRange Bytes := setExtension self ext

/-- Setting the extension of a path leaves it alone if it has no file name, and otherwise gives
    the file name the new extension after its stem and keeps the components of the parent. -/
def ExtensionAgrees (p ext : Bytes) : Prop :=
  (fileName p = .ok none ∧ withExtension p ext = .ok p) ∨
    ∃ stem r up up', fileStem p = .ok (some stem) ∧ withExtension p ext = .ok r ∧
      fileName r = .ok (some (stem ++ period :: ext)) ∧ parent p = .ok (some up) ∧
      parent r = .ok (some up') ∧ normalised up' = normalised up

/-- What follows the last separator of `p` is a name. -/
def EndsInName (p : Bytes) : Prop :=
  let name := p.drop (nameStart p)
  name ≠ [] ∧ name ≠ dot ∧ name ≠ dotdot

instance (p : Bytes) : Decidable (EndsInName p) := inferInstanceAs (Decidable (_ ∧ _))

variable {p pre n ext : Bytes}

/-! ## The stem of a name -/

/-- A name without its extension. -/
def stem (name : Bytes) : Bytes :=
  match lastPeriod name with
  | some 0 | none => name
  | some i => name.take i

theorem stem_cases (n : Bytes) : stem n = n ∨ ∃ i, stem n = n.take (i + 1) := by
  unfold stem
  split
  · exact .inl rfl
  · exact .inl rfl
  next i hi _ =>
    cases i with
    | zero => exact absurd rfl hi
    | succ i => exact .inr ⟨i, rfl⟩

theorem stem_ne_nil (h : n ≠ []) : stem n ≠ [] := by
  rcases stem_cases n with hs | ⟨i, hs⟩
  · rwa [hs]
  · rw [hs]
    simp [h]

theorem stem_noSlash (h : slash ∉ n) : slash ∉ stem n := by
  rcases stem_cases n with hs | ⟨i, hs⟩
  · rwa [hs]
  · rw [hs]
    exact fun hmem => h (mem_of_mem_take hmem)

theorem isPart_stem_ext (hn : slash ∉ n) (hext : ext ≠ []) (hslash : slash ∉ ext) :
    IsPart (stem n ++ period :: ext) := by
  refine ⟨by simp, ?_, ?_⟩
  · intro hdot
    have hlen := congrArg length hdot
    have hpos := length_pos_iff.2 hext
    rw [length_append, length_cons] at hlen
    simp only [dot, length_singleton] at hlen
    omega
  · have hperiod : slash ≠ period := by decide
    simp [stem_noSlash hn, hslash, hperiod]

theorem fileStem_eq (h : fileName p = .ok (some n)) : fileStem p = .ok (some (stem n)) := by
  unfold fileStem stem
  rw [h]
  simp only [Except.ok_bind]
  split
  · rfl
  · rfl
  next i _ hi =>
    rw [slice_eq (Nat.zero_le i) (rposition_lt hi).le]
    rfl

/-! ## What setting an extension does -/

/-- **A new extension** replaces what follows the last dot after the last separator. -/
theorem setExtension_append (hpre : Boundary pre) (hn : slash ∉ n) (hext : ext ≠ []) :
    setExtension (pre ++ n) ext = .ok (pre ++ (stem n ++ period :: ext)) := by
  have hstart : nameStart (pre ++ n) = pre.length := by
    rw [nameStart, ← Nat.zero_add pre.length, ← lastSlash_boundary hpre hn 0]
    simp
  unfold setExtension
  rw [hstart, slice_append_right]
  simp only [Except.ok_bind, Except.pure_eq, if_pos hext]
  rw [← append_assoc]
  congr 2
  unfold stem
  cases hi : lastPeriod n with
  | none => rfl
  | some i =>
    cases i with
    | zero => rfl
    | succ i =>
      show (if i + 1 ≠ 0 then (pre ++ n).take (pre.length + (i + 1)) else pre ++ n) = _
      rw [if_pos (Nat.succ_ne_zero i), take_length_add_append]
      rfl

theorem fileName_append (hpre : Boundary pre) (hn : IsPart n) (hdd : n ≠ dotdot) :
    fileName (pre ++ n) = .ok (some n) := by
  rw [fileName_eq_some, hpre.normalised_append hn, getLast?_concat, Component.ofPart,
    if_neg hn.ne_dot, if_neg hdd]

theorem parent_append (hpre : Boundary pre) (hn : IsPart n) :
    ∃ q, parent (pre ++ n) = .ok (some q) ∧ normalised q = normalised pre := by
  rcases parent_spec (pre ++ n) with ⟨-, hnorm⟩ | ⟨q, hq, hshort, -⟩
  · rw [hpre.normalised_append hn] at hnorm
    exact absurd hnorm (hn.snoc_ne_root _)
  · refine ⟨q, hq, ?_⟩
    rw [hshort.components, hpre.normalised_append hn, dropLast_concat]

/-! ## Where it agrees with the file name -/

theorem exists_nameStart (p : Bytes) :
    ∃ pre, p = pre ++ p.drop (nameStart p) ∧ Boundary pre ∧ slash ∉ p.drop (nameStart p) := by
  obtain ⟨pre, n, rfl, hpre, hn⟩ := exists_boundary p
  have hstart : nameStart (pre ++ n) = pre.length := by
    rw [nameStart, ← Nat.zero_add pre.length, ← lastSlash_boundary hpre hn 0]
    simp
  rw [hstart, drop_left]
  exact ⟨pre, rfl, hpre, hn⟩

theorem fileStem_append (hpre : Boundary pre) (hn : IsPart n) (hdd : n ≠ dotdot) :
    fileStem (pre ++ n) = .ok (some (stem n)) :=
  fileStem_eq (fileName_append hpre hn hdd)

/-- A path that ends with its file name gets the new extension there. -/
theorem agrees_of_name (hpre : Boundary pre) (hn : IsPart n) (hdd : n ≠ dotdot) (hext : ext ≠ [])
    (hslash : slash ∉ ext) : ExtensionAgrees (pre ++ n) ext := by
  have hpart : IsPart (stem n ++ period :: ext) := isPart_stem_ext hn.noSlash hext hslash
  have hnew : stem n ++ period :: ext ≠ dotdot := by
    intro heq
    have hlen := congrArg length heq
    have hpos := length_pos_iff.2 hext
    have hstem := length_pos_iff.2 (stem_ne_nil hn.ne_nil)
    rw [length_append, length_cons] at hlen
    simp only [dotdot, length_cons, length_nil] at hlen
    omega
  obtain ⟨up, hup, hnorm⟩ := parent_append hpre hn
  obtain ⟨up', hup', hnorm'⟩ := parent_append hpre hpart
  exact .inr ⟨stem n, _, up, up', fileStem_append hpre hn hdd,
    setExtension_append hpre hn.noSlash hext, fileName_append hpre hpart hnew, hup, hup',
    hnorm'.trans hnorm.symm⟩

/-- There is a stem exactly if there is a file name. -/
theorem exists_fileStem_iff :
    (∃ s, fileStem p = .ok (some s)) ↔ ∃ name, fileName p = .ok (some name) := by
  constructor
  · rintro ⟨s, h⟩
    obtain ⟨name, hname, -⟩ := fileName_spec p
    unfold fileStem at h
    rw [hname] at h ⊢
    cases name with
    | none => cases h
    | some name => exact ⟨name, rfl⟩
  · rintro ⟨name, hname⟩
    exact ⟨stem name, fileStem_eq hname⟩

/-- Without a name after the last separator a new part comes after all others, or after a step
    up. -/
theorem parent_skip (hpre : Boundary pre) (hn : n = [] ∨ n = dot ∨ n = dotdot) {name up : Bytes}
    (hname : fileName (pre ++ n) = .ok (some name)) (hup : parent (pre ++ n) = .ok (some up)) :
    normalised up ≠ normalised pre := by
  rw [fileName_eq_some] at hname
  have hlast : normalised up = (normalised (pre ++ n)).dropLast := by
    rcases parent_spec (pre ++ n) with ⟨hnone, -⟩ | ⟨q, hq, hshort, -⟩
    · rw [hnone] at hup
      cases hup
    · rw [hq, Except.ok.injEq, Option.some.injEq] at hup
      rw [← hup, hshort.components]
  intro hsame
  by_cases hdd : n = dotdot
  · have hpart : IsPart dotdot := ⟨by decide, by decide, by decide⟩
    rw [hdd, hpre.normalised_append hpart, getLast?_concat] at hname
    cases hname
  · have hskip : n = [] ∨ n = dot := by tauto
    by_cases hnil : pre = []
    · rcases hskip with rfl | rfl <;> rw [hnil] at hname <;> cases hname
    · have hnames : names n = [] := by
        rcases hskip with rfl | rfl
        · exact names_nil
        · exact names_dot
      rw [hpre.normalised_skip hnil hnames] at hname hlast
      have hlen := congrArg length (hsame.symm.trans hlast)
      have hpos := length_pos_of_mem (mem_of_getLast? hname)
      rw [length_dropLast] at hlen
      omega

/-- A path that does not end with a name gets another component instead. -/
theorem not_agrees (hpre : Boundary pre) (hn : n = [] ∨ n = dot ∨ n = dotdot) (hext : ext ≠ [])
    (hslash : slash ∉ ext) : ¬ ExtensionAgrees (pre ++ n) ext := by
  have hnoslash : slash ∉ n := by rcases hn with rfl | rfl | rfl <;> decide
  have hset : withExtension (pre ++ n) ext = _ := setExtension_append hpre hnoslash hext
  have hpart : IsPart (stem n ++ period :: ext) := isPart_stem_ext hnoslash hext hslash
  obtain ⟨q, hq, hnorm⟩ := parent_append hpre hpart
  rintro (⟨-, hsame⟩ | ⟨s, r, up, up', hstem, hr, -, hup, hup', hcomp⟩)
  · rw [hset, Except.ok.injEq, append_cancel_left_eq] at hsame
    have hlen := congrArg length hsame
    have hpos := length_pos_iff.2 hext
    have hstem : n.length ≤ (stem n).length + 1 := by
      rcases hn with rfl | rfl | rfl <;> decide
    rw [length_append, length_cons] at hlen
    omega
  · obtain ⟨name, hname⟩ := exists_fileStem_iff.1 ⟨_, hstem⟩
    obtain rfl : q = up' := by
      rw [hset, Except.ok.injEq] at hr
      rw [← hr, hq, Except.ok.injEq, Option.some.injEq] at hup'
      exact hup'
    exact parent_skip hpre hn hname hup (hcomp.symm.trans hnorm)

/-- **A new extension against the file name.**  Setting an extension gives the file name the new
    extension and leaves everything else, or leaves the path alone if it has no file name, exactly
    for the paths in which a name follows the last separator. -/
theorem set_extension_agrees (hext : ext ≠ []) (hslash : slash ∉ ext) :
    ExtensionAgrees p ext ↔ EndsInName p := by
  obtain ⟨pre, hp, hpre, hn⟩ := exists_nameStart p
  unfold EndsInName
  constructor
  · intro h
    by_contra hname
    rw [hp] at h
    refine not_agrees hpre ?_ hext hslash h
    by_contra! hne
    exact hname hne
  · rintro ⟨hnil, hdot, hdd⟩
    rw [hp]
    exact agrees_of_name hpre ⟨hnil, hdot, hn⟩ hdd hext hslash

/-- `a.rs` with the extension `txt`. -/
theorem set_extension_file :
    ExtensionAgrees [97, 46, 114, 115] [116, 120, 116] ↔ EndsInName [97, 46, 114, 115] :=
  set_extension_agrees (by decide) (by decide)

/-- `a.rs/` with the extension `txt` becomes `a.rs/.txt`. -/
theorem set_extension_trailing_separator :
    withExtension [97, 46, 114, 115, 47] [116, 120, 116] =
        .ok [97, 46, 114, 115, 47, 46, 116, 120, 116] ∧
      ¬ ExtensionAgrees [97, 46, 114, 115, 47] [116, 120, 116] := by
  have hpre : Boundary [97, 46, 114, 115, 47] := .inr rfl
  have hext : ([116, 120, 116] : Bytes) ≠ [] := by decide
  refine ⟨setExtension_append hpre (n := []) not_mem_nil hext, ?_⟩
  exact not_agrees hpre (n := []) (.inl rfl) hext (by decide)

end Ekostd.Path
