/-
  `Path::extension` and `PathBuf::set_file_name`.

  A new file name is pushed onto the path, from which the old one is popped if
  there is one.

  * `normalised_push`: a part that is pushed is one more component;
  * `Replaces`: the new name takes the place of the old one and of nothing
    else;
  * `set_file_name_replaces`: it does for every path and every name, and the
    name that stem and extension make up leaves the components as they are.
-/
import Ekostd.Path.Ancestors
import Ekostd.Path.Extension

namespace Ekostd.Path

open PosixFs List

/-- `Path::extension`. -/
def extension (self : Bytes) : Except OutOfRange (Option Bytes) := do
  let some name ← fileName self | return none
  match lastPeriod name with
  | none => return none
  | some i => if i = 0 then return none else return some (← slice name (i + 1) name.length)

/-- `PathBuf::set_file_name`. -/
def setFileName (self name : Bytes) : Except OutOfRange Bytes := do
  let left ←
    if (← fileName self).isSome then do
      let (_, left) ← pop self
      pure left
    else pure self
  return push left name

/-- What can be the name of a file. -/
structure IsName (n : Bytes) : Prop extends IsPart n where
  ne_dotdot : n ≠ dotdot

/-- Setting the file name of `p` to `x` gives a path with that file name, and with the components
    of `p`, without the last one if `p` had a file name, before it. -/
def Replaces (p x : Bytes) : Prop :=
  ∃ name r, fileName p = .ok name ∧ setFileName p x = .ok r ∧ fileName r = .ok (some x) ∧
    normalised r =
      (if name.isSome then (normalised p).dropLast else normalised p) ++ [.normal x]

/-- Setting the file name of `p` to its stem with its extension leaves the components; it has a stem
    exactly if it has a file name (`exists_fileStem_iff`). -/
def Rebuilds (p : Bytes) : Prop :=
  ∀ stem, fileStem p = .ok (some stem) → ∃ ext r, extension p = .ok ext ∧
    setFileName p (stem ++ ext.elim [] (period :: ·)) = .ok r ∧ normalised r = normalised p

variable {p x n : Bytes}

/-! ## Pushing a part -/

theorem lead_withSep (p : Bytes) : lead (withSep p) = lead p := by
  unfold withSep
  split_ifs with h
  · have habs := isAbsolute_append h.1 [slash]
    have hdot : p ++ [slash] ≠ dot := by
      intro heq
      have hlast := congrArg getLast? heq
      rw [getLast?_concat] at hlast
      cases hlast
    have hcur : dot ++ [slash] <+: p ++ [slash] ↔ p = dot ∨ dot ++ [slash] <+: p := by
      rw [prefix_concat_iff, append_left_inj, eq_comm]
    simp only [lead, habs, hdot, hcur, false_or]
  · rfl

theorem normalised_withSep (p : Bytes) : normalised (withSep p) = normalised p := by
  have hnames : names (withSep p) = names p := by rw [names, names, pieces_withSep]
  rw [normalised_eq, normalised_eq, lead_withSep, hnames]

theorem boundary_withSep (p : Bytes) : Boundary (withSep p) := by
  by_cases hp : p = []
  · exact .inl ((withSep_eq_nil p).2 hp)
  · exact .inr (withSep_last hp)

/-- **A part that is pushed** is one more component. -/
theorem normalised_push (p : Bytes) (hx : IsPart x) :
    normalised (push p x) = normalised p ++ [.ofPart x] := by
  have hrel : isAbsolute x = false := (components_part hx.ne_nil hx.noSlash).1
  rw [← join, join_of_relative p hrel, (boundary_withSep p).normalised_append hx,
    normalised_withSep]

theorem IsName.ofPart (hx : IsName x) : Component.ofPart x = .normal x := by
  rw [Component.ofPart, if_neg hx.ne_dot, if_neg hx.ne_dotdot]

theorem fileName_push (p : Bytes) (hx : IsName x) : fileName (push p x) = .ok (some x) := by
  rw [fileName_eq_some, normalised_push p hx.toIsPart, getLast?_concat, hx.ofPart]

/-! ## Replacing the name -/

theorem pop_of_fileName (h : fileName p = .ok (some n)) :
    ∃ q, pop p = .ok (true, q) ∧ normalised q = (normalised p).dropLast := by
  rw [fileName_eq_some] at h
  rcases parent_spec p with ⟨-, hnil | hroot⟩ | ⟨q, hup, hq, -⟩
  · rw [hnil] at h
    cases h
  · rw [hroot] at h
    cases h
  · refine ⟨q, ?_, hq.components⟩
    unfold pop
    rw [hup]
    simp only [Except.ok_bind, Except.pure_eq, ( prefix_iff_eq_take.1 hq.isPrefix).symm]

/-- **The new name takes the place of the old one**, or comes after all components. -/
theorem replaces (p : Bytes) (hx : IsName x) : Replaces p x := by
  obtain ⟨name, hname, -⟩ := fileName_spec p
  cases name with
  | none =>
    refine ⟨none, push p x, hname, ?_, fileName_push p hx, ?_⟩
    · unfold setFileName
      simp only [hname, Except.ok_bind, Except.pure_eq, Option.isSome_none, Bool.false_eq_true,
        if_false]
    · rw [normalised_push p hx.toIsPart, hx.ofPart]
      rfl
  | some n =>
    obtain ⟨q, hpop, hq⟩ := pop_of_fileName hname
    refine ⟨some n, push q x, hname, ?_, fileName_push q hx, ?_⟩
    · unfold setFileName
      simp only [hname, hpop, Except.ok_bind, Except.pure_eq, Option.isSome_some, if_true]
    · rw [normalised_push q hx.toIsPart, hx.ofPart, hq]
      rfl

/-! ## The name from its parts -/

theorem isName_of_fileName (h : fileName p = .ok (some n)) : IsName n := by
  have hlast := mem_of_getLast? (fileName_eq_some.1 h)
  rw [normalised_eq, mem_append, mem_map] at hlast
  rcases hlast with hlead | ⟨m, hm, hofPart⟩
  · rcases lead_cases p with h | h | h <;> simp [h] at hlead
  · have hpart := isPart_of_mem hm
    unfold Component.ofPart at hofPart
    rw [if_neg hpart.ne_dot] at hofPart
    split_ifs at hofPart with hdd
    cases hofPart
    exact ⟨hpart, hdd⟩

/-- **Stem and extension make up the file name.** -/
theorem extension_eq (h : fileName p = .ok (some n)) :
    ∃ ext, extension p = .ok ext ∧ stem n ++ ext.elim [] (period :: ·) = n := by
  unfold extension stem
  rw [h]
  simp only [Except.ok_bind]
  cases hi : lastPeriod n with
  | none => exact ⟨none, rfl, append_nil n⟩
  | some i =>
    cases i with
    | zero => exact ⟨none, rfl, append_nil n⟩
    | succ i =>
      obtain ⟨pre, b, post, rfl, hlen, hb, -⟩ := rposition_eq_some hi
      obtain rfl : b = period := of_decide_eq_true hb
      have hcons : i + 1 + 1 = (pre ++ [period]).length := by simp [hlen]
      have hext : slice (pre ++ period :: post) (i + 1 + 1) (pre ++ period :: post).length =
          .ok post := by
        rw [append_cons, hcons, slice_append_right]
      refine ⟨some post, ?_, ?_⟩
      · simp only [if_neg (Nat.succ_ne_zero i), hext, Except.ok_bind, Except.pure_eq]
      · show take (i + 1) (pre ++ period :: post) ++ period :: post = _
        rw [← hlen, take_left]

theorem rebuilds (p : Bytes) : Rebuilds p := by
  intro s hstem
  obtain ⟨n, hname⟩ := exists_fileStem_iff.1 ⟨s, hstem⟩
  rw [fileStem_eq hname, Except.ok.injEq, Option.some.injEq] at hstem
  obtain ⟨ext, hext, hn⟩ := extension_eq hname
  rw [hstem] at hn
  have hisName := isName_of_fileName hname
  obtain ⟨name, r, hname', hset, -, hnorm⟩ := replaces p hisName
  rw [hname, Except.ok.injEq] at hname'
  refine ⟨ext, r, hext, by rw [hn, hset], ?_⟩
  have hlast : (normalised p).getLast? = some (.normal n) := fileName_eq_some.1 hname
  obtain ⟨cs, hcs⟩ := getLast?_eq_some_iff.1 hlast
  rw [hnorm, ← hname', hcs]
  simp

/-- **Setting the file name replaces exactly the name**, and the name that a path's own stem and
    extension make up changes no component. -/
theorem set_file_name_replaces (p : Bytes) (hx : x ≠ []) (hslash : slash ∉ x) (hdot : x ≠ dot)
    (hdotdot : x ≠ dotdot) : Replaces p x ∧ Rebuilds p :=
  ⟨replaces p ⟨⟨hx, hdot, hslash⟩, hdotdot⟩, rebuilds p⟩

/-- The name `b` for `./a.rs/`. -/
theorem set_file_name_replaces_last :
    Replaces [46, 47, 97, 46, 114, 115, 47] [98] ∧ Rebuilds [46, 47, 97, 46, 114, 115, 47] :=
  set_file_name_replaces _ (by decide) (by decide) (by decide) (by decide)

end Ekostd.Path
