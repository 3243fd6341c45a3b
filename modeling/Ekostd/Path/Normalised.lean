/-
  The components of a path in their normal form, read forwards.

  A path has a root or a leading `.`, or neither, and then parts: what is
  between separators and is neither empty nor `.`.

  * `normalised`: the components, of which `names` are the parts;
  * `Ended`: a path that ends where a part ends, and `Ended.eq_of_names`: no
    shorter prefix of it has the same parts;
  * `ShortestPrefix`: the shortest prefix of a path with given components, and
    `shortestPrefix`, which finds it.
-/
import Ekostd.Path.Components

namespace Ekostd.Path

open PosixFs List

/-- The parts of a path. -/
def names (p : Bytes) : List Bytes := (p.pieces slash).filter (· ≠ dot)

/-- What a path has before its parts, and that is a component too. -/
def lead (p : Bytes) : List Component :=
  if isAbsolute p then [.rootDir]
  else if p = dot ∨ dot ++ [slash] <+: p then [.curDir]
  else []

/-- The components of a path, in normal form. -/
def normalised (p : Bytes) : List Component :=
  lead p ++ (names (p.drop (lead p).length)).map .ofPart

/-- What a part is. -/
structure IsPart (n : Bytes) : Prop where
  ne_nil : n ≠ []
  ne_dot : n ≠ dot
  noSlash : slash ∉ n

/-- A path after which a part can start. -/
def Boundary (p : Bytes) : Prop := p = [] ∨ p.getLast? = some slash

/-- A path that ends where a part ends. -/
def Ended (p : Bytes) : Prop := ∃ pre n, p = pre ++ n ∧ Boundary pre ∧ IsPart n

variable {p q x n : Bytes}

/-! ## Parts -/

@[simp] theorem names_nil : names [] = [] := by simp [names]

@[simp] theorem names_dot : names dot = [] := by decide

@[simp] theorem names_cons_slash (p : Bytes) : names (slash :: p) = names p := by simp [names]

theorem names_append (p q : Bytes) : names (p ++ slash :: q) = names p ++ names q := by
  rw [names, pieces_append, filter_append]
  rfl

theorem IsPart.names (h : IsPart n) : names n = [n] := by
  rw [Path.names, pieces_of_notMem h.noSlash h.ne_nil, filter_singleton]
  simp [h.ne_dot]

theorem names_of_noSlash (h : slash ∉ p) : names p = [] ∨ IsPart p := by
  by_cases hnil : p = []
  · exact .inl (by rw [hnil, names_nil])
  · by_cases hdot : p = dot
    · exact .inl (by rw [hdot, names_dot])
    · exact .inr ⟨hnil, hdot, h⟩

theorem isPart_of_mem (h : n ∈ names p) : IsPart n := by
  rw [names, mem_filter] at h
  obtain ⟨hne, hslash⟩ := of_mem_pieces h.1
  exact ⟨hne, by simpa using h.2, hslash⟩

/-- **What is appended at a boundary is read by itself.** -/
theorem Boundary.names_append (h : Boundary p) (q : Bytes) :
    Path.names (p ++ q) = Path.names p ++ Path.names q := by
  rcases h with rfl | h
  · rw [nil_append, names_nil, nil_append]
  · obtain ⟨p, rfl⟩ := getLast?_eq_some_iff.1 h
    rw [append_assoc, singleton_append, Path.names_append, Path.names_append, names_nil, append_nil]

theorem exists_boundary (p : Bytes) : ∃ pre n, p = pre ++ n ∧ Boundary pre ∧ slash ∉ n :=
  exists_ended slash p

theorem names_length_snoc (p : Bytes) (b : UInt8) :
    (names p).length ≤ (names (p ++ [b])).length := by
  by_cases hb : b = slash
  · rw [hb, names_append, names_nil, append_nil]
  · obtain ⟨pre, n, rfl, hpre, hn⟩ := exists_boundary p
    rw [append_assoc, hpre.names_append, hpre.names_append, length_append, length_append]
    rcases names_of_noSlash hn with h | h
    · rw [h, length_nil]
      omega
    · have hpart : IsPart (n ++ [b]) := by
        refine ⟨by simp, ?_, ?_⟩
        · intro hdot
          have hlen := congrArg length hdot
          rw [length_append, length_singleton] at hlen
          exact h.ne_nil (length_eq_zero_iff.1 (by simpa [dot] using hlen))
        · rw [mem_append, mem_singleton]
          rintro (h | h)
          · exact hn h
          · exact hb h.symm
      rw [h.names, hpart.names]
      rfl

theorem names_length_mono (h : q <+: p) : (names q).length ≤ (names p).length := by
  obtain ⟨r, rfl⟩ := h
  induction r using List.reverseRecOn with
  | nil => rw [append_nil]
  | append_singleton r b ih =>
    rw [← append_assoc]
    exact ih.trans (names_length_snoc (q ++ r) b)

/-- **No shorter path has the same parts**, before the end of a part. -/
theorem Ended.eq_of_names (h : Ended p) (hq : q <+: p) (hnames : names q = names p) : q = p := by
  obtain ⟨pre, n, rfl, hpre, hn⟩ := h
  have hparts : names (pre ++ n) = names pre ++ [n] := by rw [hpre.names_append, hn.names]
  rcases prefix_or_prefix_of_prefix hq (prefix_append pre n) with hshort | ⟨m, rfl⟩
  · have hle := names_length_mono hshort
    rw [hnames, hparts, length_append, length_singleton] at hle
    omega
  · have hm : m <+: n := (prefix_append_right_inj pre).1 hq
    have hslash : slash ∉ m := fun h => hn.noSlash (hm.subset h)
    rw [hparts, hpre.names_append, append_cancel_left_eq] at hnames
    rcases names_of_noSlash hslash with hnil | hpart
    · rw [hnil] at hnames
      cases hnames
    · rw [hpart.names] at hnames
      rw [(cons.inj hnames).1]

/-! ## What comes before the parts -/

/-- **The components of a path**: the one before the parts, and the parts. -/
theorem normalised_eq (p : Bytes) : normalised p = lead p ++ (names p).map .ofPart := by
  have hdrop : names (p.drop (lead p).length) = names p := by
    unfold lead
    split_ifs with habs hdot
    · obtain ⟨rest, rfl⟩ := isAbsolute_iff.1 habs
      simp
    · rcases hdot with rfl | ⟨rest, rfl⟩
      · rfl
      · rw [append_assoc, singleton_append, names_append, names_dot]
        simp [dot]
    · rfl
  rw [normalised, hdrop]

theorem lead_eq_root : lead p = [.rootDir] ↔ isAbsolute p = true := by
  unfold lead
  split_ifs with habs hdot <;> simp [habs]

theorem lead_cases (p : Bytes) : lead p = [] ∨ lead p = [.rootDir] ∨ lead p = [.curDir] := by
  unfold lead
  split_ifs <;> simp

theorem lead_length_le (p : Bytes) : (lead p).length ≤ p.length := by
  unfold lead
  split_ifs with habs hdot
  · obtain ⟨rest, rfl⟩ := isAbsolute_iff.1 habs
    simp
  · rcases hdot with rfl | h
    · rfl
    · have hle := h.length_le
      rw [length_append, length_singleton] at hle
      rw [length_singleton]
      omega
  · exact Nat.zero_le _

/-- A component that a path has before its parts. -/
def Component.leads (c : Component) : Bool := c = .rootDir ∨ c = .curDir

theorem IsPart.leads_ofPart (h : IsPart n) : (Component.ofPart n).leads = false := by
  unfold Component.ofPart
  rw [if_neg h.ne_dot]
  split_ifs <;> rfl

theorem IsPart.snoc_ne_root (h : IsPart n) (cs : List Component) :
    ¬ (cs ++ [.ofPart n] = [] ∨ cs ++ [.ofPart n] = [.rootDir]) := by
  rintro (hnil | hroot)
  · exact append_ne_nil_of_right_ne_nil cs (cons_ne_nil _ []) hnil
  · have hlast := congrArg getLast? hroot
    rw [getLast?_concat] at hlast
    have hleads := h.leads_ofPart
    rw [Option.some.inj hlast] at hleads
    cases hleads

theorem ofPart_injective : Function.Injective Component.ofPart := by
  intro m n h
  have href := congrArg Component.asRef h
  rwa [Component.asRef_ofPart, Component.asRef_ofPart] at href

theorem filter_leads (p : Bytes) : (normalised p).filter Component.leads = lead p := by
  have hparts : ((names p).map Component.ofPart).filter Component.leads = [] := by
    rw [filter_eq_nil_iff]
    intro c hc
    obtain ⟨n, hn, rfl⟩ := mem_map.1 hc
    rw [(isPart_of_mem hn).leads_ofPart]
    exact Bool.false_ne_true
  rw [normalised_eq, filter_append, hparts, append_nil]
  rcases lead_cases p with h | h | h <;> rw [h] <;> rfl

/-- **The components determine what is before the parts, and the parts.** -/
theorem normalised_inj :
    normalised p = normalised q ↔ lead p = lead q ∧ names p = names q := by
  constructor
  · intro h
    have hlead : lead p = lead q := by rw [← filter_leads p, h, filter_leads]
    rw [normalised_eq, normalised_eq, hlead, append_cancel_left_eq] at h
    exact ⟨hlead, (map_injective_iff.2 ofPart_injective) h⟩
  · rintro ⟨hlead, hnames⟩
    rw [normalised_eq, normalised_eq, hlead, hnames]

theorem Boundary.lead_append (h : Boundary p) (hne : p ≠ []) (q : Bytes) :
    lead (p ++ q) = lead p := by
  obtain ⟨p, rfl⟩ := getLast?_eq_some_iff.1 (h.resolve_left hne)
  unfold lead
  rw [isAbsolute_append hne]
  rcases p with _ | ⟨a, p⟩
  · rfl
  · have hshort : ∀ t : Bytes, a :: p ++ [slash] ++ t ≠ dot := by simp [dot]
    have hpre : ∀ t : Bytes, dot ++ [slash] <+: a :: p ++ [slash] ++ t ↔
        dot ++ [slash] <+: a :: p ++ [slash] := by
      rcases p with _ | ⟨b, p⟩ <;> simp [dot]
    have hq := hshort q
    have hnil := hshort []
    rw [append_nil] at hnil
    simp only [hq, hnil, hpre q, false_or]

theorem Boundary.normalised_skip (h : Boundary p) (hne : p ≠ []) (hq : names q = []) :
    normalised (p ++ q) = normalised p := by
  rw [normalised_eq, normalised_eq, h.lead_append hne, h.names_append, hq, append_nil]

/-- **A part after a boundary** is the last component. -/
theorem Boundary.normalised_append (h : Boundary p) (hn : IsPart n) :
    normalised (p ++ n) = normalised p ++ [.ofPart n] := by
  have hlead : lead (p ++ n) = lead p := by
    by_cases hnil : p = []
    · subst hnil
      have hfirst : isAbsolute n = false := by
        rw [isAbsolute, decide_eq_false_iff_not]
        exact fun hhead => hn.noSlash (mem_of_head? hhead)
      have hdot : ¬ (n = dot ∨ dot ++ [slash] <+: n) := by
        rintro (hdot | hpre)
        · exact hn.ne_dot hdot
        · exact hn.noSlash (hpre.subset (by simp))
      rw [nil_append, lead, hfirst, if_neg hdot]
      rfl
    · exact h.lead_append hnil n
  rw [normalised_eq, normalised_eq, hlead, h.names_append, hn.names, map_append, append_assoc,
    map_singleton]

/-! ## The shortest prefix with given components -/

theorem Ended.names_ne_nil (h : Ended p) : names p ≠ [] := by
  obtain ⟨pre, n, rfl, hpre, hn⟩ := h
  rw [hpre.names_append, hn.names]
  simp

theorem lead_of_prefix (h : q <+: p) (hlen : (lead p).length ≤ q.length)
    (hend : Ended q ∨ q.length = (lead p).length) : lead q = lead p := by
  obtain ⟨r, rfl⟩ := h
  by_cases hnil : q = []
  · subst hnil
    rw [nil_append] at hlen ⊢
    exact (length_eq_zero_iff.1 (Nat.le_zero.1 hlen)).symm
  · unfold lead at hlen hend ⊢
    rw [isAbsolute_append hnil] at hlen hend ⊢
    split_ifs at hlen hend ⊢ with habs hq hqr hqr
    · rfl
    · rfl
    · exfalso
      rcases hq with rfl | hq
      · rcases hend with hend | hend
        · exact hend.names_ne_nil names_dot
        · cases hend
      · exact hqr (.inr (hq.trans (prefix_append q r)))
    · refine absurd ?_ hq
      have hshort : q <+: dot ∨ dot <+: q := by
        rcases hqr with hqr | hqr
        · exact .inl (hqr ▸ prefix_append q r)
        · exact ( prefix_or_prefix_of_prefix (prefix_append q r)
            ((prefix_append dot [slash]).trans hqr))
      have hdot : dot <+: q := by
        rcases hshort with hshort | hshort
        · rw [hshort.eq_of_length_le hlen]
        · exact hshort
      obtain ⟨t, rfl⟩ := hdot
      cases t with
      | nil => exact .inl (append_nil dot)
      | cons b t =>
        refine .inr ?_
        rcases hqr with hqr | hqr
        · simp [dot] at hqr
        · simpa [dot] using hqr
    · rfl

/-- `q` is the shortest prefix of `p` that has the components `cs`. -/
structure ShortestPrefix (p : Bytes) (cs : List Component) (q : Bytes) : Prop where
  isPrefix : q <+: p
  components : normalised q = cs
  least : ∀ q', q' <+: p → normalised q' = cs → q.length ≤ q'.length

/-- **A prefix that ends with a part, or before the first one, is the shortest.** -/
theorem shortestPrefix (h : q <+: p) (hlen : (lead p).length ≤ q.length)
    (hend : Ended q ∨ q.length = (lead p).length) :
    ShortestPrefix p (lead p ++ (names q).map .ofPart) q := by
  have hlead : lead q = lead p := lead_of_prefix h hlen hend
  refine ⟨h, by rw [normalised_eq, hlead], ?_⟩
  intro q' hq' hcs
  rw [← hlead, ← normalised_eq, normalised_inj] at hcs
  by_contra! hlt
  have hsub : q' <+: q := prefix_of_prefix_length_le hq' h hlt.le
  rcases hend with hend | hend
  · rw [hend.eq_of_names hsub hcs.2] at hlt
    omega
  · have hle := lead_length_le q'
    rw [hcs.1, hlead] at hle
    omega

end Ekostd.Path
