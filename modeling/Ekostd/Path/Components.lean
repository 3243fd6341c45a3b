/-
  `Path::components`, and what joining paths does to them.

  * `Components.next`: the iterator; `components`: all that it yields;
  * `components_eq`: a root for a leading separator, then the pieces between
    separators;
  * `as_path_left`: what is left of an iterator, as a path, and when its
    components are those still to come;
  * `components_join`: the components of a joined path;
  * `fromIter`: a path from its parts, and `components_collect`, by which the
    components of a path make up a path with the same components.
-/
import Ekostd.Path.Basic

namespace Ekostd.Path

open PosixFs List

/-- `Component`. -/
inductive Component where
  | rootDir
  | curDir
  | parentDir
  | normal (part : Bytes)
  deriving DecidableEq

/-- `Component::as_ref`. -/
def Component.asRef : Component → Bytes
  | rootDir => [slash]
  | curDir => dot
  | parentDir => dotdot
  | normal part => part

/-- The component that a part is, in `Components::next`. -/
def Component.ofPart (part : Bytes) : Component :=
  if part = dot then .curDir else if part = dotdot then .parentDir else .normal part

/-- `Components`. -/
structure Components where
  rest : Bytes
  root : Bool

/-- `b.strip_prefix(b"/").unwrap_or(b)`. -/
def stripSlash (b : Bytes) : Bytes := if b.head? = some slash then b.tail else b

/-- `Components::next`. -/
def Components.next (self : Components) : Option (Component × Components) :=
  if self.root then
    some (.rootDir, ⟨stripSlash self.rest, false⟩)
  else
    let rest := self.rest.dropWhile (· = slash)
    if rest.isEmpty then none
    else
      let (part, rest) := rest.splitAt (rest.idxOf slash)
      some (.ofPart part, ⟨rest, false⟩)

/-- How much an iterator has still to go through. -/
def Components.size (self : Components) : ℕ := self.rest.length + if self.root then 1 else 0

theorem dropWhile_slash {b : UInt8} {bs p : Bytes} (h : p.dropWhile (· = slash) = b :: bs) :
    b ≠ slash := by
  intro hb
  have hne : p.dropWhile (· = slash) ≠ [] := by simp [h]
  have hhead := head_dropWhile_not (fun b => decide (b = slash)) hne
  simp [h, hb] at hhead

theorem Components.next_size {self rest : Components} {c : Component}
    (h : self.next = some (c, rest)) : rest.size < self.size := by
  dsimp only [Components.next] at h
  split_ifs at h with hroot hrest
  · cases h
    have hle : (stripSlash self.rest).length ≤ self.rest.length := by
      unfold stripSlash
      split_ifs <;> simp
    simp only [size, hroot, if_true, Bool.false_eq_true, if_false]
    omega
  · cases h
    obtain ⟨b, bs, hbs⟩ := exists_cons_of_ne_nil (mt isEmpty_iff.2 hrest)
    have hb : b ≠ slash := dropWhile_slash hbs
    have hle : (self.rest.dropWhile (· = slash)).length ≤ self.rest.length :=
      (dropWhile_sublist _).length_le
    rw [hbs, length_cons] at hle
    simp only [size, hroot, Bool.false_eq_true, if_false, splitAt_eq, hbs, length_drop,
      idxOf_cons_ne _ hb, length_cons]
    omega

/-- All that an iterator yields. -/
def Components.toList (self : Components) : List Component :=
  match _h : self.next with
  | none => []
  | some (c, rest) => c :: rest.toList
termination_by self.size
decreasing_by exact Components.next_size _h

theorem Components.toList_of_none {self : Components} (h : self.next = none) :
    self.toList = [] := by
  rw [Components.toList]
  split <;> simp_all

theorem Components.toList_of_some {self rest : Components} {c : Component}
    (h : self.next = some (c, rest)) : self.toList = c :: rest.toList := by
  rw [Components.toList]
  split <;> simp_all

/-- `Path::components`, collected. -/
def components (self : Bytes) : List Component := (⟨self, isAbsolute self⟩ : Components).toList

/-- `Components::as_path`. -/
def Components.asPath (self : Components) : Bytes := self.rest.dropWhile (· = slash)

/-- The iterator after a call of `next`, which at the end has taken the last separators off. -/
def Components.advance (self : Components) : Components :=
  self.next.elim ⟨self.rest.dropWhile (· = slash), self.root⟩ Prod.snd

/-- `PathBuf`'s `FromIterator`. -/
def fromIter (iter : List Bytes) : Bytes := iter.foldl push []

/-- A path collected from components. -/
def collect (cs : List Component) : Bytes := fromIter (cs.map Component.asRef)

/-! ## What the iterator yields -/

section
variable {p a b c : Bytes}

theorem toList_of_not_root (rest : Bytes) :
    (⟨rest, false⟩ : Components).toList = (rest.pieces slash).map .ofPart := by
  induction hn : rest.length using Nat.strong_induction_on generalizing rest with
  | _ n ih =>
    have hpieces := @pieces_dropWhile _ _ slash rest
    cases hrest : rest.dropWhile (· = slash) with
    | nil =>
      rw [hrest, pieces_nil] at hpieces
      rw [Components.toList_of_none (by simp [Components.next, hrest]), ← hpieces, map_nil]
    | cons b bs =>
      have hb : b ≠ slash := dropWhile_slash hrest
      have hle : (rest.dropWhile (· = slash)).length ≤ rest.length :=
        (dropWhile_sublist _).length_le
      rw [hrest, pieces_split hb] at hpieces
      have hdrop : ((b :: bs).drop ((b :: bs).idxOf slash)).length < n := by
        rw [hrest, length_cons] at hle
        rw [length_drop, length_cons, idxOf_cons_ne _ hb]
        omega
      have hnext : (⟨rest, false⟩ : Components).next =
          some (.ofPart ((b :: bs).take ((b :: bs).idxOf slash)),
            ⟨(b :: bs).drop ((b :: bs).idxOf slash), false⟩) := by
        simp [Components.next, hrest]
      rw [Components.toList_of_some hnext, ih _ hdrop _ rfl, ← hpieces, map_cons]

/-- **The components of a path**: a root for a leading separator, then what is between the
    separators. -/
theorem components_eq (p : Bytes) :
    components p = (if isAbsolute p then [.rootDir] else []) ++ (p.pieces slash).map .ofPart := by
  by_cases h : isAbsolute p
  · obtain ⟨rest, rfl⟩ := isAbsolute_iff.1 h
    have hnext : (⟨slash :: rest, true⟩ : Components).next = some (.rootDir, ⟨rest, false⟩) := by
      simp [Components.next, stripSlash]
    rw [components, h, Components.toList_of_some hnext, toList_of_not_root]
    simp
  · rw [components, eq_false_of_ne_true h, toList_of_not_root]
    simp

/-! ## What is left of the iterator -/

theorem advance_root (self : Components) : self.advance.root = false := by
  unfold Components.advance Components.next
  cases hroot : self.root with
  | true => rfl
  | false => cases h : (self.rest.dropWhile (· = slash)).isEmpty <;> simp [h]

theorem toList_advance (self : Components) : self.advance.toList = self.toList.tail := by
  cases h : self.next with
  | none =>
    have hrest : self.root = false ∧ self.rest.dropWhile (· = slash) = [] := by
      dsimp only [Components.next] at h
      split_ifs at h with hroot hempty
      exact ⟨by simpa using hroot, isEmpty_iff.1 hempty⟩
    rw [Components.toList_of_none h, Components.advance, h, hrest.1, hrest.2]
    exact toList_of_not_root []
  | some c => rw [Components.toList_of_some h, Components.advance, h, tail_cons, Option.elim_some]

/-- Past the root, what is left has the components that are still to come. -/
theorem components_asPath {self : Components} (h : self.root = false) :
    components self.asPath = self.toList := by
  obtain ⟨rest, root⟩ := self
  obtain rfl : root = false := h
  have hrel : isAbsolute (rest.dropWhile (· = slash)) = false := by
    rw [isAbsolute, decide_eq_false_iff_not, head?_eq_some_iff]
    rintro ⟨bs, hbs⟩
    exact dropWhile_slash hbs rfl
  rw [toList_of_not_root, components_eq, Components.asPath, hrel, pieces_dropWhile]
  rfl

theorem rootDir_ne_ofPart (part : Bytes) : Component.ofPart part ≠ .rootDir := by
  unfold Component.ofPart
  split_ifs <;> simp

/-- Before the root it has a component less. -/
theorem components_asPath_root {self : Components} (h : self.root = true) :
    components self.asPath ≠ self.toList := by
  obtain ⟨rest, root⟩ := self
  obtain rfl : root = true := h
  have hnext : (⟨rest, true⟩ : Components).next = some (.rootDir, ⟨stripSlash rest, false⟩) := rfl
  have hpast : components (Components.asPath ⟨rest, false⟩) =
      (⟨rest, false⟩ : Components).toList := components_asPath rfl
  have hroot : Component.rootDir ∉ (⟨rest, false⟩ : Components).toList := by
    rw [toList_of_not_root, mem_map]
    rintro ⟨part, -, hpart⟩
    exact rootDir_ne_ofPart part hpart
  intro heq
  rw [← hpast, show Components.asPath ⟨rest, false⟩ = Components.asPath ⟨rest, true⟩ from rfl, heq,
    Components.toList_of_some hnext] at hroot
  exact hroot mem_cons_self

/-- The iterator of a path after `k` calls of `next`. -/
def componentsAfter (p : Bytes) (k : ℕ) : Components :=
  Components.advance^[k] ⟨p, isAbsolute p⟩

theorem componentsAfter_root (p : Bytes) (k : ℕ) :
    (componentsAfter p k).root = true ↔ isAbsolute p = true ∧ k = 0 := by
  cases k with
  | zero => simp [componentsAfter]
  | succ k => simp [componentsAfter, Function.iterate_succ_apply', advance_root]

theorem toList_componentsAfter (p : Bytes) (k : ℕ) :
    (componentsAfter p k).toList = (components p).drop k := by
  induction k with
  | zero => rfl
  | succ k ih =>
    rw [componentsAfter, Function.iterate_succ_apply', toList_advance, ← componentsAfter, ih,
      tail_drop]

/-- **What is left as a path** has the components that are still to come, except before the root
    is yielded. -/
theorem as_path_left (p : Bytes) (k : ℕ) :
    (componentsAfter p k).toList = (components p).drop k ∧
    (components (componentsAfter p k).asPath = (componentsAfter p k).toList ↔
      ¬ (isAbsolute p = true ∧ k = 0)) := by
  refine ⟨toList_componentsAfter p k, ?_⟩
  rw [← componentsAfter_root]
  constructor
  · exact fun h hroot => components_asPath_root hroot h
  · exact fun h => components_asPath (eq_false_of_ne_true h)

/-- Of `/a`, before the first call, `a` is left. -/
theorem as_path_drops_root :
    (componentsAfter [slash, 97] 0).asPath = [97] ∧
    components (componentsAfter [slash, 97] 0).asPath ≠ (componentsAfter [slash, 97] 0).toList :=
  ⟨rfl, components_asPath_root rfl⟩

/-! ## Joining -/

/-- A path with a separator to append to. -/
def withSep (p : Bytes) : Bytes :=
  if p ≠ [] ∧ p.getLast? ≠ some slash then p ++ [slash] else p

theorem join_of_absolute (a : Bytes) (h : isAbsolute b = true) : join a b = b := by
  rw [isAbsolute, decide_eq_true_iff] at h
  rw [join, push, if_pos h]

theorem join_of_relative (a : Bytes) (h : isAbsolute b = false) : join a b = withSep a ++ b := by
  rw [isAbsolute, decide_eq_false_iff_not] at h
  rw [join, push, if_neg h, withSep]

theorem withSep_eq_nil (p : Bytes) : withSep p = [] ↔ p = [] := by
  unfold withSep
  split_ifs with h
  · simp [h.1]
  · rfl

theorem withSep_last (h : p ≠ []) : (withSep p).getLast? = some slash := by
  unfold withSep
  split_ifs with hlast
  · simp
  · by_contra hne
    exact hlast ⟨h, hne⟩

theorem isAbsolute_withSep (p : Bytes) : isAbsolute (withSep p) = isAbsolute p := by
  unfold withSep
  split_ifs with h
  · obtain ⟨b, bs, rfl⟩ := exists_cons_of_ne_nil h.1
    rfl
  · rfl

theorem pieces_withSep (p : Bytes) : (withSep p).pieces slash = p.pieces slash := by
  unfold withSep
  split_ifs
  · exact pieces_snoc_sep p
  · rfl

theorem pieces_withSep_append (a b : Bytes) :
    (withSep a ++ b).pieces slash = a.pieces slash ++ b.pieces slash := by
  by_cases ha : a = []
  · simp [ha, withSep]
  · obtain ⟨q, hq⟩ := getLast?_eq_some_iff.1 (withSep_last ha)
    rw [← pieces_withSep a, hq, append_assoc, singleton_append, pieces_append, pieces_snoc_sep]

theorem isAbsolute_append (ha : a ≠ []) (b : Bytes) : isAbsolute (a ++ b) = isAbsolute a := by
  obtain ⟨x, xs, rfl⟩ := exists_cons_of_ne_nil ha
  rfl

theorem isAbsolute_join (a : Bytes) (h : isAbsolute b = false) :
    isAbsolute (join a b) = isAbsolute a := by
  rw [join_of_relative a h]
  by_cases ha : a = []
  · subst ha
    exact h
  · rw [isAbsolute_append (mt (withSep_eq_nil a).1 ha), isAbsolute_withSep]

/-- **The components of a joined path** are those of an absolute path, and those of a relative one
    after those of the base. -/
theorem components_join (a b : Bytes) :
    components (join a b) =
      if isAbsolute b then components b else components a ++ components b := by
  by_cases hb : isAbsolute b
  · rw [if_pos hb, join_of_absolute a hb]
  · have hrel : isAbsolute b = false := eq_false_of_ne_true hb
    rw [if_neg hb, components_eq, components_eq a, components_eq b, isAbsolute_join a hrel,
      join_of_relative a hrel, pieces_withSep_append, map_append, if_neg hb, nil_append,
      append_assoc]

theorem withSep_append (a b : Bytes) : withSep (withSep a ++ b) = withSep a ++ withSep b := by
  by_cases hb : b = []
  · subst hb
    by_cases ha : a = []
    · simp [ha, withSep]
    · rw [append_nil, withSep, if_neg fun h => h.2 (withSep_last ha)]
      simp [withSep]
  · have hlast : (withSep a ++ b).getLast? = b.getLast? := getLast?_append_of_ne_nil _ hb
    have hne : withSep a ++ b ≠ [] := append_ne_nil_of_right_ne_nil _ hb
    rw [withSep, withSep.eq_def b, hlast]
    by_cases hslash : b.getLast? = some slash
    · rw [if_neg fun h => h.2 hslash, if_neg fun h => h.2 hslash]
    · rw [if_pos ⟨hne, hslash⟩, if_pos ⟨hb, hslash⟩, append_assoc]

/-- **Joining is associative.** -/
theorem join_assoc (a b c : Bytes) : join (join a b) c = join a (join b c) := by
  by_cases hc : isAbsolute c
  · rw [join_of_absolute _ hc, join_of_absolute b hc, join_of_absolute a hc]
  · have hrel : isAbsolute c = false := eq_false_of_ne_true hc
    by_cases hb : isAbsolute b
    · have habs : isAbsolute (join b c) = true := (isAbsolute_join b hrel).trans hb
      rw [join_of_absolute a hb, join_of_absolute a habs]
    · have hbrel : isAbsolute b = false := eq_false_of_ne_true hb
      have hjoin : isAbsolute (join b c) = false := (isAbsolute_join b hrel).trans hbrel
      rw [join_of_relative a hjoin, join_of_relative b hrel, join_of_relative _ hrel,
        join_of_relative a hbrel, withSep_append, append_assoc]

/-! ## Collecting -/

@[simp] theorem Component.asRef_ofPart (part : Bytes) : (Component.ofPart part).asRef = part := by
  unfold Component.ofPart
  split_ifs with hdot hdotdot
  · exact hdot.symm
  · exact hdotdot.symm
  · rfl

theorem components_part (hne : p ≠ []) (hslash : slash ∉ p) :
    isAbsolute p = false ∧ components p = [.ofPart p] := by
  have hrel : isAbsolute p = false := by
    rw [isAbsolute, decide_eq_false_iff_not]
    exact fun h => hslash (mem_of_head? h)
  refine ⟨hrel, ?_⟩
  rw [components_eq, hrel, pieces_of_notMem hslash hne]
  rfl

theorem components_foldl_push {parts : List Bytes} (h : ∀ q ∈ parts, q ≠ [] ∧ slash ∉ q)
    (acc : Bytes) :
    components (parts.foldl push acc) = components acc ++ parts.map .ofPart := by
  induction parts generalizing acc with
  | nil => simp
  | cons q parts ih =>
    obtain ⟨hne, hslash⟩ := h q mem_cons_self
    obtain ⟨hrel, hcomponents⟩ := components_part hne hslash
    have hpush : components (push acc q) = components acc ++ [.ofPart q] := by
      rw [← join, components_join, hrel, ← hcomponents]
      rfl
    rw [foldl_cons, ih (fun r hr => h r (mem_cons_of_mem q hr)), hpush, append_assoc, map_cons,
      singleton_append]

/-- **Collecting the components of a path** gives a path with the same components. -/
theorem components_collect (p : Bytes) : components (collect (components p)) = components p := by
  have hparts : ∀ q ∈ p.pieces slash, q ≠ [] ∧ slash ∉ q := fun q hq => of_mem_pieces hq
  have hmap : ((p.pieces slash).map Component.ofPart).map Component.asRef = p.pieces slash := by
    simp [map_map, Function.comp_def]
  have hroot : components [slash] = [.rootDir] := by
    rw [components_eq, pieces_cons_sep, pieces_nil]
    rfl
  have hnil : components [] = [] := by
    rw [components_eq, pieces_nil]
    rfl
  rw [collect, fromIter, components_eq p, map_append, hmap, foldl_append,
    components_foldl_push hparts]
  by_cases h : isAbsolute p
  · have hpush : push [] [slash] = [slash] := rfl
    simp [h, Component.asRef, hpush, hroot]
  · simp [h, hnil]

end

/-- **Joining is an algebra over components.** -/
theorem join_algebra (a b c p q : Bytes) :
    join (join a b) c = join a (join b c) ∧
    components (join a b) =
      (if isAbsolute b then components b else components a ++ components b) ∧
    components (collect (components p)) = components p ∧
    (collect (components p) = collect (components q) ↔ components p = components q) := by
  refine ⟨join_assoc a b c, components_join a b, components_collect p, ?_⟩
  constructor
  · intro h
    rw [← components_collect p, h, components_collect q]
  · rintro h
    rw [h]

end Ekostd.Path
