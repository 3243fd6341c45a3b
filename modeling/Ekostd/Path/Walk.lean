/-
  `Path::file_name` and `Path::parent`: a scan from the end of a path.

  Every range that the scan takes of the path is a `slice`, which is refused
  where the code would panic.

  * `trimBack_spec`: what is left by skipping separators and `.` has the same
    parts, and ends with one;
  * `lastBodyComponent_spec`: the last part, and all before it;
  * `walk_follows_components`: the name and the parent of a path, by its
    components.
-/
import Ekostd.Lib.Slices
import Ekostd.Path.Normalised

namespace Ekostd.Path

open PosixFs List

/-- `Path::leading_cur_dir`. -/
def leadingCurDir (self : Bytes) : Bool :=
  self.head? = some 46 && (self[1]? = none || self[1]? = some slash)

/-- `Path::body_start`. -/
def bodyStart (self : Bytes) : ℕ := if isAbsolute self || leadingCurDir self then 1 else 0

/-- The last separator in a range of a path. -/
def lastSlash (body : Bytes) : Option ℕ := rposition (· = slash) body

/-- `Path::trim_back`. -/
def trimBack (self : Bytes) (e : ℕ) : Except OutOfRange ℕ :=
  let floor := bodyStart self
  if e > floor then
    match _hbody : slice self floor e with
    | .error r => .error r
    | .ok body =>
      match _hi : lastSlash body with
      | some i =>
        match slice body (i + 1) body.length with
        | .error r => .error r
        | .ok last => if !last.isEmpty && last != dot then .ok e else trimBack self (floor + i)
      -- the range is one piece: the floor is reached, or the piece is a part
      | none => if body != dot then .ok e else .ok floor
  else .ok e
termination_by e
decreasing_by
  obtain ⟨-, -, rfl⟩ := slice_eq_ok _hbody
  have hlt := rposition_lt _hi
  rw [length_drop, length_take] at hlt
  omega

/-- `Path::last_body_component`. -/
def lastBodyComponent (self : Bytes) : Except OutOfRange (Option (ℕ × ℕ)) := do
  let floor := bodyStart self
  let e ← trimBack self self.length
  if e = floor then return none
  let body ← slice self floor e
  let start := (lastSlash body).elim floor fun i => floor + i + 1
  return some (start, e)

/-- `Path::file_name`. -/
def fileName (self : Bytes) : Except OutOfRange (Option Bytes) := do
  let some (start, e) ← lastBodyComponent self | return none
  let name ← slice self start e
  return if name = dotdot then none else some name

/-- `Path::parent`. -/
def parent (self : Bytes) : Except OutOfRange (Option Bytes) := do
  match ← lastBodyComponent self with
  | some (start, _) => return some (← slice self 0 (← trimBack self start))
  | none => return if leadingCurDir self then some [] else none

variable {p q x n : Bytes} {e start : ℕ}

/-! ## Where the scan stops -/

theorem leadingCurDir_iff (p : Bytes) :
    leadingCurDir p = true ↔ p = dot ∨ dot ++ [slash] <+: p := by
  rcases p with _ | ⟨a, _ | ⟨b, p⟩⟩
  · simp [leadingCurDir, dot]
  · simp [leadingCurDir, dot]
  · have hdot : dot = [46] := rfl
    rw [hdot, singleton_append, cons_prefix_cons, cons_prefix_cons, eq_comm (a := 46),
      eq_comm (a := slash)]
    simp [leadingCurDir]

theorem leadingCurDir_lead : leadingCurDir p = true ↔ lead p = [.curDir] := by
  rw [leadingCurDir_iff, lead]
  split_ifs with habs hdot
  · have hne : ¬ (p = dot ∨ dot ++ [slash] <+: p) := by
      obtain ⟨rest, rfl⟩ := isAbsolute_iff.1 habs
      simp [dot, slash]
    simp [hne]
  · simp [hdot]
  · simp [hdot]

/-- **The scan stops after what comes before the parts.** -/
theorem bodyStart_eq (p : Bytes) : bodyStart p = (lead p).length := by
  unfold bodyStart
  split_ifs with h
  · rw [Bool.or_eq_true] at h
    rcases h with h | h
    · rw [lead_eq_root.2 h, length_singleton]
    · rw [leadingCurDir_lead.1 h, length_singleton]
  · rw [Bool.or_eq_true, not_or, leadingCurDir_lead, ← lead_eq_root] at h
    rcases lead_cases p with hp | hp | hp
    · rw [hp, length_nil]
    · exact absurd hp h.1
    · exact absurd hp h.2

/-! ## The scan -/

theorem lastSlash_append (pre last : Bytes) (h : slash ∉ last) :
    lastSlash (pre ++ slash :: last) = some pre.length := by
  refine rposition_append (by simp) fun b hb => ?_
  rw [decide_eq_false_iff_not]
  rintro rfl
  exact h hb

theorem lastSlash_eq_none : lastSlash p = none ↔ slash ∉ p := by
  rw [lastSlash, rposition_eq_none]
  simp only [decide_eq_false_iff_not]
  exact ⟨fun h hmem => h slash hmem rfl, fun h b hb hbe => h (hbe ▸ hb)⟩

theorem lastSlash_eq_some {i : ℕ} (h : lastSlash p = some i) :
    ∃ pre last, p = pre ++ slash :: last ∧ pre.length = i ∧ slash ∉ last := by
  obtain ⟨pre, b, last, rfl, hlen, hb, hlast⟩ := rposition_eq_some h
  obtain rfl : b = slash := by simpa using hb
  refine ⟨pre, last, rfl, hlen, fun hmem => ?_⟩
  simpa using hlast slash hmem

/-- The range of a path that the scan goes over. -/
def body (p : Bytes) (e : ℕ) : Bytes := (p.take e).drop (bodyStart p)

theorem take_eq_append (he : bodyStart p ≤ e) :
    p.take e = p.take (bodyStart p) ++ body p e := by
  conv_lhs => rw [← take_append_drop (bodyStart p) (p.take e)]
  rw [take_take, Nat.min_eq_left he, body]

theorem length_body (he : e ≤ p.length) : (body p e).length = e - bodyStart p := by
  rw [body, length_drop, length_take, Nat.min_eq_left he]

theorem head_cases (p : Bytes) (e : ℕ) :
    p.take (bodyStart p) = [] ∨ p.take (bodyStart p) = [slash] ∨
      (p.take (bodyStart p) = dot ∧ ∀ b, (body p e).head? = some b → b = slash) := by
  rw [body, bodyStart_eq]
  rcases lead_cases p with h | h | h
  · rw [h]
    exact .inl rfl
  · obtain ⟨rest, rfl⟩ := isAbsolute_iff.1 (lead_eq_root.1 h)
    rw [h]
    exact .inr (.inl rfl)
  · rw [h]
    refine .inr (.inr ?_)
    rcases (leadingCurDir_iff p).1 (leadingCurDir_lead.2 h) with rfl | ⟨rest, rfl⟩
    · exact ⟨rfl, by rcases e with _ | e <;> simp [dot]⟩
    · exact ⟨rfl, by rcases e with _ | _ | e <;> simp [dot]⟩

theorem names_take (he : bodyStart p ≤ e) : names (p.take e) = names (body p e) := by
  rw [take_eq_append he]
  rcases head_cases p e with h | h | ⟨h, hbody⟩
  · rw [h, nil_append]
  · rw [h, singleton_append, names_cons_slash]
  · rw [h]
    cases hb : body p e with
    | nil => rfl
    | cons b t =>
      obtain rfl : b = slash := hbody b (by rw [hb, head?_cons])
      rw [names_append, names_dot, names_cons_slash, nil_append]

theorem Boundary.append (hp : Boundary p) (hq : Boundary q) : Boundary (p ++ q) := by
  rcases hq with rfl | hq
  · rwa [append_nil]
  · refine .inr ?_
    rw [getLast?_append, hq, Option.some_or]

theorem Ended.of_body (he : bodyStart p ≤ e) (h : Ended (body p e)) : Ended (p.take e) := by
  obtain ⟨pre, n, hbody, hpre, hn⟩ := h
  rw [take_eq_append he, hbody, ← append_assoc]
  refine ⟨_, n, rfl, ?_, hn⟩
  rcases head_cases p e with h | h | ⟨h, hhead⟩
  · rw [h, nil_append]
    exact hpre
  · rw [h]
    exact Boundary.append (.inr rfl) hpre
  · rcases hpre with rfl | hpre
    · obtain ⟨b, t, rfl⟩ := exists_cons_of_ne_nil hn.ne_nil
      obtain rfl : b = slash := hhead b (by rw [hbody, nil_append, head?_cons])
      exact absurd mem_cons_self hn.noSlash
    · refine .inr ?_
      rw [getLast?_append, hpre, Option.some_or]

theorem body_add {i : ℕ} (hi : i ≤ (body p e).length) (hhi : e ≤ p.length) :
    body p (bodyStart p + i) = (body p e).take i := by
  rw [length_body hhi] at hi
  rw [body, body, drop_take, drop_take, take_take]
  congr 1
  omega

/-- One turn of the scan, in which the first range is never refused. -/
theorem trimBack_of_lt (hlo : bodyStart p < e) (hhi : e ≤ p.length) :
    trimBack p e = match lastSlash (body p e) with
      | some i =>
        match slice (body p e) (i + 1) (body p e).length with
        | .error r => .error r
        | .ok last => if !last.isEmpty && last != dot then .ok e else trimBack p (bodyStart p + i)
      | none => if body p e != dot then .ok e else .ok (bodyStart p) := by
  have hslice : slice p (bodyStart p) e = .ok (body p e) := slice_eq hlo.le hhi
  rw [trimBack, if_pos hlo]
  split
  next r herr => rw [hslice] at herr; cases herr
  next b hb =>
    obtain rfl : body p e = b := Except.ok.inj (hslice.symm.trans hb)
    split
    next i hi => rw [hi]
    next hnone => rw [hnone]

/-- At a piece after a separator the scan stops if the piece is a part. -/
theorem trimBack_slash (hlo : bodyStart p < e) (hhi : e ≤ p.length) {pre last : Bytes}
    (hbody : body p e = pre ++ slash :: last) (hlast : slash ∉ last) :
    trimBack p e =
      if !last.isEmpty && last != dot then .ok e else trimBack p (bodyStart p + pre.length) := by
  have hindex : lastSlash (body p e) = some pre.length := by
    rw [hbody, lastSlash_append pre last hlast]
  have hrest : slice (body p e) (pre.length + 1) (body p e).length = .ok last := by
    have hlen : pre.length + 1 = (pre ++ [slash]).length := by simp
    rw [hbody, append_cons, hlen, slice_append_right]
  rw [trimBack_of_lt hlo hhi, hindex]
  dsimp only
  rw [hrest]

/-- At the only piece it stops, or goes to the floor. -/
theorem trimBack_piece (hlo : bodyStart p < e) (hhi : e ≤ p.length) (hslash : slash ∉ body p e) :
    trimBack p e = if body p e != dot then .ok e else .ok (bodyStart p) := by
  rw [trimBack_of_lt hlo hhi, lastSlash_eq_none.2 hslash]

/-- **The scan back**: it skips what makes no part, and stops after a part or before all of
    them. -/
theorem trimBack_spec (hlo : bodyStart p ≤ e) (hhi : e ≤ p.length) :
    ∃ e', trimBack p e = .ok e' ∧ bodyStart p ≤ e' ∧ e' ≤ e ∧
      names (p.take e') = names (p.take e) ∧ (e' = bodyStart p ∨ Ended (body p e')) := by
  induction he : e using Nat.strong_induction_on generalizing e with
  | _ n ih =>
    subst he
    by_cases hgt : bodyStart p < e
    · by_cases hslash : slash ∈ body p e
      · obtain ⟨i, hi⟩ := Option.ne_none_iff_exists'.1 (mt lastSlash_eq_none.1 (not_not.2 hslash))
        obtain ⟨pre, last, hbody, rfl, hlast⟩ := lastSlash_eq_some hi
        rw [trimBack_slash hgt hhi hbody hlast]
        split_ifs with hpart
        · simp only [Bool.and_eq_true, Bool.not_eq_true', isEmpty_eq_false_iff, bne_iff_ne] at hpart
          refine ⟨e, rfl, hlo, Nat.le_refl e, rfl, .inr ?_⟩
          exact ⟨pre ++ [slash], last, by rw [hbody, append_cons], .inr (by simp), hpart.1, hpart.2,
            hlast⟩
        · -- the piece makes no part
          have hnone : names last = [] := by
            rcases names_of_noSlash hlast with h | h
            · exact h
            · exact absurd (by simp [h.ne_nil, h.ne_dot]) hpart
          have hlt : pre.length < (body p e).length := by simp [hbody]
          have hpre : body p (bodyStart p + pre.length) = pre := by
            rw [body_add hlt.le hhi, hbody, take_left]
          rw [length_body hhi] at hlt
          obtain ⟨e', heq, hlo', hle, hnames, hend⟩ :=
            ih (bodyStart p + pre.length) (by omega) (by omega) (by omega) rfl
          refine ⟨e', heq, hlo', by omega, ?_, hend⟩
          rw [hnames, names_take (by omega), names_take hlo, hpre, hbody, names_append, hnone,
            append_nil]
      · rw [trimBack_piece hgt hhi hslash]
        have hne : body p e ≠ [] := by
          rw [← length_pos_iff, length_body hhi]
          omega
        split_ifs with hdot
        · rw [bne_iff_ne] at hdot
          refine ⟨e, rfl, hlo, Nat.le_refl e, rfl, .inr ?_⟩
          exact ⟨[], body p e, rfl, .inl rfl, hne, hdot, hslash⟩
        · rw [bne_iff_ne, not_not] at hdot
          refine ⟨bodyStart p, rfl, Nat.le_refl _, hlo, ?_, .inl rfl⟩
          rw [names_take (Nat.le_refl _), names_take hlo, hdot, names_dot, body, drop_take,
            Nat.sub_self, take_zero, names_nil]
    · refine ⟨e, by rw [trimBack, if_neg hgt], hlo, Nat.le_refl e, rfl, .inl ?_⟩
      omega

/-! ## The last part -/

theorem lastSlash_boundary {pre : Bytes} (hpre : Boundary pre) (hn : slash ∉ n) (k : ℕ) :
    ((lastSlash (pre ++ n)).elim k fun i => k + i + 1) = k + pre.length := by
  rcases hpre with rfl | hpre
  · rw [nil_append, lastSlash_eq_none.2 hn]
    rfl
  · obtain ⟨pre, rfl⟩ := getLast?_eq_some_iff.1 hpre
    rw [append_assoc, singleton_append, lastSlash_append pre n hn, length_append, length_singleton]
    rfl

/-- What `lastBodyComponent` finds: the last part `n` of `p`, and where it is. -/
structure LastPart (p : Bytes) (start e : ℕ) (n : Bytes) : Prop where
  found : lastBodyComponent p = .ok (some (start, e))
  low : bodyStart p ≤ start
  high : start ≤ p.length
  range : slice p start e = .ok n
  isPart : IsPart n
  names : names p = names (p.take start) ++ [n]

/-- **The last part is found**, if there is one. -/
theorem lastBodyComponent_spec (p : Bytes) :
    (lastBodyComponent p = .ok none ∧ names p = []) ∨ ∃ start e n, LastPart p start e n := by
  have hlo : bodyStart p ≤ p.length := by
    rw [bodyStart_eq]
    exact lead_length_le p
  obtain ⟨e, htrim, hlo', hle, hnames, hend⟩ := trimBack_spec hlo (Nat.le_refl p.length)
  rw [take_length] at hnames
  by_cases hfloor : e = bodyStart p
  · refine .inl ⟨?_, ?_⟩
    · unfold lastBodyComponent
      simp only [htrim, Except.ok_bind, if_pos hfloor, Except.pure_eq]
    · rw [← hnames, hfloor, names_take (Nat.le_refl _), body, drop_take, Nat.sub_self, take_zero,
        names_nil]
  · obtain ⟨pre, n, hbody, hpre, hn⟩ := hend.resolve_left hfloor
    have hlen : bodyStart p + pre.length ≤ e := by
      have hsum := length_body hle
      rw [hbody, length_append] at hsum
      omega
    refine .inr ⟨bodyStart p + pre.length, e, n, ?_, by omega, by omega, ?_, hn, ?_⟩
    · have hslice : slice p (bodyStart p) e = .ok (body p e) := slice_eq hlo' hle
      unfold lastBodyComponent
      simp only [htrim, Except.ok_bind, if_neg hfloor, hslice, Except.pure_eq]
      rw [hbody, lastSlash_boundary hpre hn.noSlash]
    · rw [slice_eq hlen hle, ← drop_drop]
      show Except.ok ((body p e).drop pre.length) = _
      rw [hbody, drop_left]
    · have hstart : body p (bodyStart p + pre.length) = pre := by
        rw [body_add (by rw [hbody, length_append]; omega) hle, hbody, take_left]
      rw [← hnames, names_take hlo', hbody, hpre.names_append, hn.names, names_take (by omega),
        hstart]

theorem LastPart.normalised {start e : ℕ} (h : LastPart p start e n) :
    normalised p = lead p ++ (Path.names (p.take start)).map .ofPart ++ [.ofPart n] := by
  rw [normalised_eq, h.names, map_append, append_assoc, map_singleton]

/-- **The file name of a path** is its last component, if that is a name. -/
theorem fileName_spec (p : Bytes) :
    ∃ name, fileName p = .ok name ∧
      ∀ n, name = some n ↔ (normalised p).getLast? = some (.normal n) := by
  unfold fileName
  rcases lastBodyComponent_spec p with ⟨hfound, hnames⟩ | ⟨start, e, m, h⟩
  · refine ⟨none, by rw [hfound]; rfl, fun n => ?_⟩
    rw [normalised_eq, hnames, map_nil, append_nil]
    rcases lead_cases p with h | h | h <;> simp [h]
  · refine ⟨if m = dotdot then none else some m, ?_, fun n => ?_⟩
    · simp only [h.found, Except.ok_bind, h.range, Except.pure_eq]
    · rw [h.normalised, getLast?_concat, Component.ofPart, if_neg h.isPart.ne_dot]
      split_ifs <;> simp

theorem fileName_eq_some :
    fileName p = .ok (some n) ↔ (normalised p).getLast? = some (.normal n) := by
  obtain ⟨name, hname, hiff⟩ := fileName_spec p
  rw [hname, Except.ok.injEq]
  exact hiff n

/-- **The parent of a path**, if it has one: the shortest prefix without the last component. -/
theorem parent_spec (p : Bytes) :
    (parent p = .ok none ∧ (normalised p = [] ∨ normalised p = [.rootDir])) ∨
      ∃ q, parent p = .ok (some q) ∧ ShortestPrefix p (normalised p).dropLast q ∧
        ¬ (normalised p = [] ∨ normalised p = [.rootDir]) := by
  rcases lastBodyComponent_spec p with ⟨hfound, hnames⟩ | ⟨start, e, n, h⟩
  · have hnorm : normalised p = lead p := by rw [normalised_eq, hnames, map_nil, append_nil]
    unfold parent
    rw [hfound, hnorm]
    simp only [Except.ok_bind, Except.pure_eq, leadingCurDir_lead]
    split_ifs with hcur
    · refine .inr ⟨[], rfl, ?_, by simp [hcur]⟩
      rw [hcur]
      exact ⟨ nil_prefix, rfl, fun q' _ _ => Nat.zero_le _⟩
    · refine .inl ⟨rfl, ?_⟩
      rcases lead_cases p with h | h | h
      · exact .inl h
      · exact .inr h
      · exact absurd h hcur
  · obtain ⟨e', htrim, hlo, hle, hnames, hend⟩ := trimBack_spec h.low h.high
    have hlen : e' ≤ p.length := hle.trans h.high
    refine .inr ⟨p.take e', ?_, ?_, ?_⟩
    · unfold parent
      simp only [h.found, Except.ok_bind, htrim, slice_eq (Nat.zero_le e') hlen, Except.pure_eq,
        drop_zero]
    · rw [h.normalised, dropLast_concat, ← hnames]
      refine shortestPrefix ( take_prefix e' p) ?_ ?_
      · rwa [length_take, Nat.min_eq_left hlen, ← bodyStart_eq]
      · rw [length_take, Nat.min_eq_left hlen, ← bodyStart_eq]
        exact hend.symm.imp_left (Ended.of_body hlo)
    · rw [h.normalised]
      exact h.isPart.snoc_ne_root _

/-- **File name and parent by the components of the path.**  The file name is the last component,
    if that is a name.  There is no parent without a component past the root, and otherwise it is
    the shortest prefix that has all components but the last.  No range of the path that the two
    scans take is out of range. -/
theorem walk_follows_components (p : Bytes) :
    (∃ name, fileName p = .ok name ∧
      ∀ n, name = some n ↔ (normalised p).getLast? = some (.normal n)) ∧
    (∃ up, parent p = .ok up ∧ (up = none ↔ normalised p = [] ∨ normalised p = [.rootDir]) ∧
      ∀ q, up = some q → ShortestPrefix p (normalised p).dropLast q) := by
  refine ⟨fileName_spec p, ?_⟩
  rcases parent_spec p with ⟨hup, hnorm⟩ | ⟨q, hup, hq, hnorm⟩
  · exact ⟨none, hup, iff_of_true rfl hnorm, fun q hq => by cases hq⟩
  · refine ⟨some q, hup, iff_of_false (Option.some_ne_none q) hnorm, ?_⟩
    rintro _ ⟨⟩
    exact hq

end Ekostd.Path
