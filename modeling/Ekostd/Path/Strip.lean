/-
  `Path::starts_with` and `Path::strip_prefix`, against components and joining.

  * `SpeltAlike`: where the components of a path are the first ones of another,
    so are its bytes;
  * `starts_with_components`: when the test tells whether the components of a
    path are the first ones of another;
  * `StripsBack`: what is left after a prefix is relative, and joins to the
    prefix again;
  * `Rejoins`: a relative path that is joined to a base is what is left after
    the base;
  * `strip_prefix_join`: when they do.  The test is on bytes and takes one
    separator off, so a doubled separator leaves an absolute rest, and no
    relative path starts with the empty one.
-/
import Ekostd.Path.Components

namespace Ekostd.Path

open PosixFs List

/-- `StripPrefixError`. -/
inductive StripPrefixError where
  | mk
  deriving DecidableEq

/-- `Path::starts_with`. -/
def startsWith (self p : Bytes) : Bool :=
  self.length ≥ p.length && self.take p.length = p &&
    (self.length = p.length || self[p.length]? = some slash || p.getLast? = some slash)

/-- If the components of `q` are the first ones of `p`, then `p` begins with the bytes of `q`, and
    `q` is not empty before a relative path. -/
def SpeltAlike (p q : Bytes) : Prop :=
  components q <+: components p → q <+: p ∧ (q = [] → p = [] ∨ isAbsolute p = true)

/-- `Path::strip_prefix`. -/
def stripPrefix (self p : Bytes) : Except StripPrefixError Bytes :=
  if !startsWith self p then .error .mk
  else
    let rest := self.drop p.length
    .ok (stripSlash rest)

/-- What is left after `base` is relative and joins to it again. -/
def StripsBack (p base : Bytes) : Prop :=
  ∀ rest, stripPrefix p base = .ok rest →
    isAbsolute rest = false ∧ components (join base rest) = components p

/-- A relative path joined to `base` is what is left after `base`. -/
def Rejoins (base r : Bytes) : Prop :=
  isAbsolute r = false →
    ∃ rest, stripPrefix (join base r) base = .ok rest ∧ components rest = components r

variable {p q base r s : Bytes}

/-! ## The test -/

/-- **Where the bytes match, the test looks at the cut.** -/
theorem startsWith_append (base s : Bytes) :
    startsWith (base ++ s) base =
      (s = [] || s.head? = some slash || base.getLast? = some slash : Bool) := by
  have hat : (base ++ s)[base.length]? = s.head? := by
    rw [getElem?_append_right (Nat.le_refl _), Nat.sub_self, head?_eq_getElem?]
  unfold startsWith
  rw [take_left, hat]
  simp

theorem startsWith_eq_append (h : startsWith p base = true) : ∃ s, p = base ++ s := by
  simp only [startsWith, Bool.and_eq_true, decide_eq_true_iff] at h
  exact ⟨p.drop base.length, (prefix_iff_eq_append.1 (prefix_iff_eq_take.2 h.1.2.symm)).symm⟩

/-- **What is left**, of a path of which the bytes match. -/
theorem stripPrefix_append (h : startsWith (base ++ s) base = true) :
    stripPrefix (base ++ s) base = .ok (stripSlash s) := by
  simp [stripPrefix, h]

theorem stripPrefix_of_not (h : startsWith p base = false) : stripPrefix p base = .error .mk := by
  simp [stripPrefix, h]

theorem pieces_cut (h : startsWith (base ++ s) base = true) :
    (base ++ s).pieces slash = base.pieces slash ++ s.pieces slash := by
  rw [startsWith_append] at h
  simp only [Bool.or_eq_true, decide_eq_true_iff] at h
  rcases h with (rfl | hs) | hbase
  · simp
  · obtain ⟨t, rfl⟩ := head?_eq_some_iff.1 hs
    rw [pieces_append, pieces_cons_sep]
  · obtain ⟨q, rfl⟩ := getLast?_eq_some_iff.1 hbase
    rw [append_assoc, singleton_append, pieces_append, pieces_snoc_sep]

/-- The components before a cut are the first ones of the path. -/
theorem components_cut (h : startsWith (base ++ s) base = true) :
    components base <+: components (base ++ s) := by
  by_cases hbase : base = []
  · rw [hbase, components_eq, pieces_nil]
    exact nil_prefix
  · have hpieces : (base ++ s).pieces slash = base.pieces slash ++ s.pieces slash := pieces_cut h
    rw [components_eq, components_eq, isAbsolute_append hbase, hpieces, map_append, ← append_assoc]
    exact List.prefix_append _ _

theorem pieces_of_components (hbase : base ≠ [])
    (h : components base <+: components (base ++ s)) :
    base.pieces slash <+: (base ++ s).pieces slash := by
  rw [components_eq, components_eq, isAbsolute_append hbase, prefix_append_right_inj] at h
  have hmap := h.map Component.asRef
  simpa [map_map, Function.comp_def] using hmap

/-- **The test by components and bytes.** -/
theorem startsWith_iff : startsWith p q = true ↔
    components q <+: components p ∧ q <+: p ∧ (q = [] → p = [] ∨ isAbsolute p = true) := by
  constructor
  · intro h
    obtain ⟨s, rfl⟩ := startsWith_eq_append h
    refine ⟨components_cut h, prefix_append q s, ?_⟩
    rintro rfl
    rw [startsWith_append] at h
    simpa [isAbsolute] using h
  · rintro ⟨hcomponents, ⟨s, rfl⟩, hnil⟩
    rw [startsWith_append]
    by_cases hq : q = []
    · subst hq
      simpa [isAbsolute] using hnil rfl
    · have hcut := cut_of_pieces hq (pieces_of_components hq hcomponents)
      simpa [or_assoc] using hcut

/-! ## Stripping, then joining -/

theorem isAbsolute_rest (s : Bytes) :
    isAbsolute (stripSlash s) = false ↔ ¬ [slash, slash] <+: s := by
  unfold stripSlash
  cases s with
  | nil => simp [isAbsolute]
  | cons b s =>
    by_cases hb : b = slash
    · subst hb
      cases s <;> simp [isAbsolute, eq_comm]
    · simp [isAbsolute, hb, Ne.symm hb]

theorem pieces_rest (s : Bytes) :
    (stripSlash s).pieces slash = s.pieces slash := by
  unfold stripSlash
  split_ifs with h
  · obtain ⟨t, rfl⟩ := head?_eq_some_iff.1 h
    rw [tail_cons, pieces_cons_sep]
  · rfl

/-- **What is left joins to the base again**, if it is relative and the base is not empty. -/
theorem components_join_rest (h : startsWith (base ++ s) base = true) (hbase : base ≠ [])
    (hrel : isAbsolute (stripSlash s) = false) :
    components (join base (stripSlash s)) = components (base ++ s) := by
  rw [components_join, if_neg (by simp [hrel]), components_eq base, components_eq (base ++ s),
    components_eq (stripSlash s), hrel, pieces_rest, pieces_cut h,
    isAbsolute_append hbase, map_append, append_assoc]
  rfl

theorem not_stripsBack_nil (hp : p ≠ []) (h : startsWith p [] = true) : ¬ StripsBack p [] := by
  have hstart := startsWith_append [] p
  rw [nil_append, h] at hstart
  obtain ⟨t, rfl⟩ : ∃ t, p = slash :: t := by
    simpa [hp, head?_eq_some_iff] using hstart
  intro hback
  obtain ⟨hrel, heq⟩ := hback t (by simpa [stripSlash] using @stripPrefix_append [] (slash :: t) h)
  have habs : isAbsolute (slash :: t) = true := rfl
  rw [components_join, components_eq [], components_eq t, components_eq (slash :: t), hrel, habs,
    pieces_cons_sep] at heq
  simp [isAbsolute] at heq

theorem stripsBack_iff (p base : Bytes) :
    StripsBack p base ↔
      (startsWith p base = true → ¬ (base ++ [slash, slash]) <+: p ∧ (base = [] → p = [])) := by
  by_cases h : startsWith p base
  · obtain ⟨s, rfl⟩ := startsWith_eq_append h
    have hstrip := stripPrefix_append h
    rw [prefix_append_right_inj, ← isAbsolute_rest]
    constructor
    · intro hback _
      refine ⟨(hback _ hstrip).1, ?_⟩
      rintro rfl
      by_contra hne
      exact not_stripsBack_nil hne h hback
    · intro hcond rest hrest
      obtain ⟨hrel, hnil⟩ := hcond h
      rw [hstrip, Except.ok.injEq] at hrest
      subst hrest
      refine ⟨hrel, ?_⟩
      by_cases hbase : base = []
      · subst hbase
        have hs : s = [] := by simpa using hnil rfl
        subst hs
        rfl
      · exact components_join_rest h hbase hrel
  · have hfalse : startsWith p base = false := eq_false_of_ne_true h
    refine ⟨fun _ hstart => absurd hstart h, ?_⟩
    intro _ rest hrest
    rw [stripPrefix_of_not hfalse] at hrest
    cases hrest

/-! ## Joining, then stripping -/

/-- A relative path is left as it was by a base that is not empty. -/
theorem stripPrefix_join (hbase : base ≠ []) (hr : isAbsolute r = false) :
    stripPrefix (join base r) base = .ok r := by
  have hhead : r.head? ≠ some slash := by simpa [isAbsolute] using hr
  rw [join_of_relative base hr, withSep]
  split_ifs with hlast
  · have hstart : startsWith (base ++ ([slash] ++ r)) base = true := by
      rw [startsWith_append]
      simp
    rw [append_assoc, stripPrefix_append hstart]
    rfl
  · have hslash : base.getLast? = some slash := by
      by_contra hne
      exact hlast ⟨hbase, hne⟩
    have hstart : startsWith (base ++ r) base = true := by
      rw [startsWith_append]
      simp [hslash]
    rw [stripPrefix_append hstart, stripSlash, if_neg hhead]

theorem rejoins_iff (base r : Bytes) :
    Rejoins base r ↔ isAbsolute r = true ∨ base ≠ [] ∨ r = [] := by
  constructor
  · intro h
    by_contra hnot
    rw [not_or, not_or, not_not] at hnot
    obtain ⟨habs, rfl, hr⟩ := hnot
    have hrel : isAbsolute r = false := eq_false_of_ne_true habs
    obtain ⟨rest, hrest, -⟩ := h hrel
    have hstart : startsWith r [] = false := by
      rw [← nil_append r, startsWith_append]
      simpa [isAbsolute, hr] using hrel
    rw [join_of_relative [] hrel, withSep, if_neg (by simp), nil_append,
      stripPrefix_of_not hstart] at hrest
    cases hrest
  · rintro (habs | hbase | rfl) hrel
    · rw [habs] at hrel
      cases hrel
    · exact ⟨r, stripPrefix_join hbase hrel, rfl⟩
    · by_cases hbase : base = []
      · subst hbase
        exact ⟨[], rfl, rfl⟩
      · exact ⟨[], stripPrefix_join hbase hrel, rfl⟩

/-! ## Leading components -/

theorem spelt_alike_iff :
    (startsWith p q = true ↔ components q <+: components p) ↔ SpeltAlike p q := by
  rw [startsWith_iff]
  exact ⟨fun h hcomponents => (h.2 hcomponents).2, fun h => ⟨And.left, fun hc => ⟨hc, h hc⟩⟩⟩

theorem startsWith_refl (p : Bytes) : startsWith p p = true :=
  startsWith_iff.2 ⟨ prefix_rfl, prefix_rfl, .inl⟩

theorem startsWith_trans (hpq : startsWith p q = true) (hqr : startsWith q r = true) :
    startsWith p r = true := by
  rw [startsWith_iff] at *
  obtain ⟨hc, hb, hq⟩ := hpq
  obtain ⟨hc', hb', hr⟩ := hqr
  refine ⟨hc'.trans hc, hb'.trans hb, fun hnil => ?_⟩
  rcases hr hnil with hqnil | habs
  · exact hq hqnil
  · obtain ⟨rest, rfl⟩ := isAbsolute_iff.1 habs
    obtain ⟨t, rfl⟩ := hb
    exact .inr rfl

theorem components_eq_nil : components p = [] ↔ p = [] := by
  constructor
  · intro h
    rw [components_eq, append_eq_nil_iff, map_eq_nil_iff] at h
    rcases p with _ | ⟨b, p⟩
    · rfl
    · have hb : b ≠ slash := by
        rintro rfl
        exact absurd h.1 (by simp [isAbsolute])
      exact absurd h.2 (pieces_ne_nil mem_cons_self hb)
  · rintro rfl
    rw [components_eq, pieces_nil]
    rfl

theorem startsWith_of_components (h : components q = components p) :
    startsWith p q = true ↔ q <+: p := by
  rw [startsWith_iff, h]
  refine ⟨fun h => h.2.1, fun hb => ⟨ prefix_rfl, hb, ?_⟩⟩
  rintro rfl
  exact .inl (components_eq_nil.1 (h.symm.trans (components_eq_nil.2 rfl)))

theorem startsWith_join (hr : isAbsolute r = false) :
    startsWith (join base r) base = true ↔ base ≠ [] ∨ r = [] := by
  have hcomponents : components base <+: components (join base r) := by
    rw [components_join, if_neg (by simp [hr])]
    exact List.prefix_append _ _
  have hbytes : base <+: join base r := by
    rw [join_of_relative base hr, withSep]
    split_ifs
    · rw [append_assoc]
      exact List.prefix_append _ _
    · exact List.prefix_append _ _
  rw [startsWith_iff]
  constructor
  · rintro ⟨-, -, hnil⟩
    by_cases hbase : base = []
    · subst hbase
      rw [join_of_relative [] hr] at hnil
      simpa [withSep, hr] using hnil
    · exact .inl hbase
  · rintro (hbase | rfl)
    · exact ⟨hcomponents, hbytes, fun hnil => absurd hnil hbase⟩
    · refine ⟨hcomponents, hbytes, ?_⟩
      rintro rfl
      exact .inl rfl

/-- **When the test is one of leading components**: exactly where the paths are spelt alike.
    Anyway it is reflexive and transitive; a path with the same components has to be spelt alike,
    and a joined path starts with its base, unless that is empty. -/
theorem starts_with_components (p q base r : Bytes) :
    ((startsWith p q = true ↔ components q <+: components p) ↔ SpeltAlike p q) ∧
    startsWith p p = true ∧
    (startsWith p q = true → startsWith q r = true → startsWith p r = true) ∧
    (components q = components p → (startsWith p q = true ↔ q <+: p)) ∧
    (isAbsolute r = false → (startsWith (join base r) base = true ↔ base ≠ [] ∨ r = [])) :=
  ⟨spelt_alike_iff, startsWith_refl p, startsWith_trans, startsWith_of_components, startsWith_join⟩

/-- `a//b` does not start with `a/b`. -/
theorem doubled_separator_not_leading :
    startsWith [97, slash, slash, 98] [97, slash, 98] = false ∧
    components [97, slash, 98] = components [97, slash, slash, 98] := by
  refine ⟨by decide, ?_⟩
  rw [components_eq, components_eq]
  decide

/-- **When stripping and joining undo each other.** -/
theorem strip_prefix_join (p base r : Bytes) :
    (StripsBack p base ↔
      (startsWith p base = true → ¬ (base ++ [slash, slash]) <+: p ∧ (base = [] → p = []))) ∧
    (Rejoins base r ↔ isAbsolute r = true ∨ base ≠ [] ∨ r = []) :=
  ⟨stripsBack_iff p base, rejoins_iff base r⟩

/-- `a//b` without `a` is `/b`. -/
theorem doubled_separator_strips_to_absolute :
    ¬ ((∀ p base, StripsBack p base) ∧ ∀ base r, Rejoins base r) := by
  rintro ⟨hback, -⟩
  have hstrip : stripPrefix [97, slash, slash, 98] [97] = .ok [slash, 98] := by decide
  have hrel : isAbsolute [slash, 98] = false := (hback _ _ _ hstrip).1
  exact absurd hrel (by decide)

end Ekostd.Path
