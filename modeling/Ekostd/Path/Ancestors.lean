/-
  `Path::ancestors` and `PathBuf::pop`: the same walk up, taken twice.

  * `Up`: one step up;
  * `WalksUp`: the items of the iterator, in order, and what is left after any
    number of pops;
  * `walks_up`: every path has such items, one for each component it can lose.
-/
import Ekostd.Path.Walk

namespace Ekostd.Path

open PosixFs List

/-- `Ancestors`. -/
structure Ancestors where
  next : Option Bytes

/-- `Ancestors::next`. -/
def Ancestors.nextItem (self : Ancestors) : Except OutOfRange (Option (Bytes × Ancestors)) := do
  let some here := self.next | return none
  return some (here, ⟨← parent here⟩)

/-- `Path::ancestors`. -/
def ancestors (self : Bytes) : Ancestors := ⟨some self⟩

/-- The first `n` items of an iterator, or all if there are no more. -/
def Ancestors.take : ℕ → Ancestors → Except OutOfRange (List Bytes)
  | 0, _ => return []
  | n + 1, self => do
    let some (here, rest) ← self.nextItem | return []
    return here :: (← rest.take n)

/-- `PathBuf::pop`: whether something was dropped, and what is left. -/
def pop (self : Bytes) : Except OutOfRange (Bool × Bytes) := do
  match ← parent self with
  | some p => return (true, self.take p.length)
  | none => return (false, self)

/-- What `n` pops answer, and what is left after them. -/
def pops : ℕ → Bytes → Except OutOfRange (List Bool × Bytes)
  | 0, self => return ([], self)
  | n + 1, self => do
    let (popped, left) ← pop self
    let (rest, left) ← pops n left
    return (popped :: rest, left)

/-- One step up: a shorter prefix, with all components but the last. -/
structure Up (p q : Bytes) : Prop where
  isPrefix : q <+: p
  shorter : q.length < p.length
  components : normalised q = (normalised p).dropLast

/-- `items` are the ancestors of `p`, and `pop` leaves them one after the other and then stays at
    the last. -/
structure WalksUp (p : Bytes) (items : List Bytes) : Prop where
  taken : ∀ n, (ancestors p).take n = .ok (items.take n)
  head : items.head? = some p
  chain : items.IsChain Up
  count : items.length = (normalised p).length + if isAbsolute p then 0 else 1
  popped : ∀ n, ∃ left, items[min n (items.length - 1)]? = some left ∧ pops n p =
    .ok (replicate (min n (items.length - 1)) true ++ replicate (n - (items.length - 1)) false, left)

variable {p q : Bytes} {items : List Bytes}

theorem take_ancestors (n : ℕ) :
    (ancestors p).take (n + 1) = (parent p >>= fun up => (Ancestors.mk up).take n >>= fun rest =>
      return p :: rest) := by
  simp [Ancestors.take, Ancestors.nextItem, ancestors]

/-! ## One step -/

theorem ShortestPrefix.up (h : ShortestPrefix p (normalised p).dropLast q)
    (hp : normalised p ≠ []) : Up p q := by
  refine ⟨h.isPrefix, ?_, h.components⟩
  refine lt_of_le_of_ne h.isPrefix.length_le fun hlen => ?_
  have hlast := congrArg length h.components
  rw [h.isPrefix.eq_of_length hlen, length_dropLast] at hlast
  have hpos := length_pos_iff.2 hp
  omega

theorem isAbsolute_up (h : Up p q) (hp : normalised p ≠ [.rootDir]) :
    isAbsolute q = isAbsolute p := by
  by_cases hnil : q = []
  · subst hnil
    by_contra hne
    have habs : isAbsolute p = true := by
      cases ha : isAbsolute p with
      | true => rfl
      | false => exact absurd ha.symm hne
    have hlast := congrArg length h.components
    rw [normalised_eq p, lead_eq_root.2 habs, singleton_append] at hp hlast
    rw [length_dropLast, length_cons, Nat.add_sub_cancel] at hlast
    have hnames : (names p).map Component.ofPart = [] := length_eq_zero_iff.1 hlast.symm
    rw [hnames] at hp
    exact hp rfl
  · obtain ⟨r, rfl⟩ := h.isPrefix
    exact (isAbsolute_append hnil r).symm

/-! ## The whole walk -/

theorem pops_of_no_parent (h : parent p = .ok none) (n : ℕ) :
    pops n p = .ok (replicate n false, p) := by
  induction n with
  | zero => rfl
  | succ n ih =>
    have hpop : pop p = .ok (false, p) := by
      unfold pop
      rw [h]
      rfl
    simp only [pops, hpop, Except.ok_bind, ih, Except.pure_eq, replicate_succ]

theorem walksUp_singleton (h : parent p = .ok none)
    (hp : normalised p = [] ∨ normalised p = [.rootDir]) : WalksUp p [p] where
  taken n := by
    cases n with
    | zero => rfl
    | succ n =>
      rw [take_ancestors, h, take_succ_cons, take_nil]
      cases n <;> rfl
  head := rfl
  chain := isChain_singleton p
  count := by
    rcases hp with hp | hp
    · have habs : isAbsolute p = false := by
        by_contra hne
        rw [normalised_eq, lead_eq_root.2 (eq_true_of_ne_false hne)] at hp
        cases hp
      rw [hp, habs]
      rfl
    · have habs : isAbsolute p = true := by
        rw [← lead_eq_root, ← filter_leads, hp]
        rfl
      rw [hp, habs]
      rfl
  popped n := by
    refine ⟨p, ?_, ?_⟩
    · rw [length_singleton, Nat.sub_self, Nat.min_zero]
      rfl
    · rw [pops_of_no_parent h, length_singleton, Nat.sub_self, Nat.min_zero, replicate_zero,
        nil_append, Nat.sub_zero]

/-- **One more item**, after one step up. -/
theorem WalksUp.cons (hup : parent p = .ok (some q)) (hq : Up p q) (hp : normalised p ≠ [.rootDir])
    (hne : normalised p ≠ []) (h : WalksUp q items) : WalksUp p (p :: items) where
  taken n := by
    cases n with
    | zero => rfl
    | succ n =>
      have htaken := h.taken n
      rw [ancestors] at htaken
      simp only [take_ancestors, hup, Except.ok_bind, htaken, Except.pure_eq, take_succ_cons]
  head := rfl
  chain := by
    rw [isChain_cons]
    refine ⟨?_, h.chain⟩
    rw [h.head]
    rintro _ ⟨⟩
    exact hq
  count := by
    have hpos := length_pos_iff.2 hne
    rw [length_cons, h.count, hq.components, isAbsolute_up hq hp, length_dropLast]
    omega
  popped n := by
    have hpos : items.length ≠ 0 := by
      intro hlen
      have hhead := h.head
      rw [length_eq_zero_iff.1 hlen] at hhead
      cases hhead
    rw [length_cons, Nat.add_sub_cancel]
    cases n with
    | zero =>
      rw [Nat.zero_min, Nat.zero_sub]
      exact ⟨p, rfl, rfl⟩
    | succ n =>
      have hpop : pop p = .ok (true, q) := by
        unfold pop
        rw [hup]
        simp only [Except.ok_bind, Except.pure_eq, ( prefix_iff_eq_take.1 hq.isPrefix).symm]
      obtain ⟨left, hat, hpops⟩ := h.popped n
      have hmin : min (n + 1) items.length = min n (items.length - 1) + 1 := by omega
      have hsub : n + 1 - items.length = n - (items.length - 1) := by omega
      refine ⟨left, by rw [hmin, getElem?_cons_succ, hat], ?_⟩
      rw [hmin, hsub, replicate_succ]
      simp only [pops, hpop, Except.ok_bind, hpops, Except.pure_eq, cons_append]

/-- **Walking up ends**, at every path.  The ancestors are finitely many: first the path, each
    later one a shorter prefix without the last component of the one before; there is one for each
    component of the path, and one more if it is not absolute.  Popping leaves the same paths, and
    then drops nothing more. -/
theorem walks_up (p : Bytes) : ∃ items, WalksUp p items := by
  induction hn : (normalised p).length using Nat.strong_induction_on generalizing p with
  | _ n ih =>
    rcases parent_spec p with ⟨hup, hnorm⟩ | ⟨q, hup, hq, hnorm⟩
    · exact ⟨[p], walksUp_singleton hup hnorm⟩
    · rw [not_or] at hnorm
      have hstep : Up p q := hq.up hnorm.1
      have hlt : (normalised q).length < n := by
        have hpos := length_pos_iff.2 hnorm.1
        rw [hstep.components, length_dropLast]
        omega
      obtain ⟨items, hitems⟩ := ih _ hlt q rfl
      exact ⟨p :: items, hitems.cons hup hstep hnorm.2 hnorm.1⟩

end Ekostd.Path
