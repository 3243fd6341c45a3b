/-
  The environment of a process (POSIX): a list of entries, of which each is a
  name, a separator and a value; the name ends at the first separator.

  The library is over any alphabet, with `eq` for the separator.

  * `getenv`, `setenv`: the calls;
  * `assign`: what an entry says, and `Means`, by which a list of entries stands
    for a map from names to values;
  * `Means.setenv`, `Means.replace`: what a call does to that map, and what the
    replacement of all entries of one name does.
-/
import Mathlib.Tactic

namespace PosixEnv

open List

variable {α β : Type*} [DecidableEq α] (eq : α)

/-! ## The calls -/

/-- The value in an entry, if it has the name. -/
def valueOf (name entry : List α) : Option (List α) :=
  if name ++ [eq] <+: entry then some (entry.drop (name.length + 1)) else none

/-- `getenv`: the value in the first entry that has the name. -/
def getenv (entries : List (List α)) (name : List α) : Option (List α) :=
  if name = [] then none else entries.findSome? (valueOf eq name)

/-- Replace the first entry of the name, or add one. -/
def put (name value : List α) : List (List α) → List (List α)
  | [] => [name ++ eq :: value]
  | entry :: entries =>
    if name ++ [eq] <+: entry then (name ++ eq :: value) :: entries
    else entry :: put name value entries

/-- `setenv`, where a variable that is there is to be replaced; a name that can be none is an
    error. -/
def setenv (name value : List α) (entries : List (List α)) : List (List α) :=
  if name = [] ∨ eq ∈ name then entries else put eq name value entries

/-! ## What the entries mean -/

/-- What can be the name of a variable. -/
def Name (name : List α) : Prop := name ≠ [] ∧ eq ∉ name

/-- The variables, with what an entry says on top. -/
def assign (vars : List α → Option (List α)) (entry : List α) : List α → Option (List α) :=
  if eq ∈ entry then
    Function.update vars (entry.takeWhile (· ≠ eq)) (some (entry.dropWhile (· ≠ eq)).tail)
  else vars

/-- The entries stand for these variables. -/
def Means (entries : List (List α)) (vars : List α → Option (List α)) : Prop :=
  ∀ name, Name eq name → getenv eq entries name = vars name

variable {eq} {name name' value entry : List α} {entries : List (List α)}
  {vars : List α → Option (List α)}

theorem prefix_entry (hname : eq ∉ name) (hname' : eq ∉ name') :
    name ++ [eq] <+: name' ++ eq :: value ↔ name = name' := by
  constructor
  · rintro ⟨rest, h⟩
    have htake : ∀ {as bs : List α}, eq ∉ as → (as ++ eq :: bs).takeWhile (· ≠ eq) = as := by
      intro as bs has
      rw [takeWhile_append_of_pos, takeWhile_cons_of_neg (by simp), append_nil]
      intro a ha
      simpa using fun hae : a = eq => has (hae ▸ ha)
    have heq := congrArg (takeWhile (· ≠ eq)) h
    rwa [append_assoc, singleton_append, htake hname, htake hname'] at heq
  · rintro rfl
    exact ⟨value, by simp⟩

@[simp] theorem valueOf_self : valueOf eq name (name ++ eq :: value) = some value := by
  have hsplit : name ++ eq :: value = (name ++ [eq]) ++ value := by simp
  rw [hsplit, valueOf, if_pos (prefix_append _ _), drop_left' (by simp)]

theorem valueOf_of_ne (hname : eq ∉ name) (hname' : eq ∉ name') (hne : name ≠ name') :
    valueOf eq name (name' ++ eq :: value) = none :=
  if_neg fun hpre => hne ((prefix_entry hname hname').1 hpre)

theorem valueOf_ne_none : valueOf eq name entry ≠ none ↔ name ++ [eq] <+: entry := by
  simp [valueOf]

/-- **What an entry says** is its value, if it has the name. -/
theorem assign_apply (hname : eq ∉ name) :
    assign eq vars entry name = (valueOf eq name entry).or (vars name) := by
  rw [assign]
  by_cases hmem : eq ∈ entry
  · obtain ⟨as, bs, rfl, has⟩ := eq_append_cons_of_mem hmem
    have hall : ∀ a ∈ as, decide (a ≠ eq) = true := by
      intro a ha
      simpa using fun hae : a = eq => has (hae ▸ ha)
    have htake : (as ++ eq :: bs).takeWhile (· ≠ eq) = as := by
      rw [takeWhile_append_of_pos hall, takeWhile_cons_of_neg (by simp), append_nil]
    have hdrop : ((as ++ eq :: bs).dropWhile (· ≠ eq)).tail = bs := by
      rw [dropWhile_append_of_pos hall, dropWhile_cons_of_neg (by simp), tail_cons]
    rw [if_pos hmem, htake, hdrop]
    by_cases hne : name = as
    · subst hne
      simp
    · rw [Function.update_of_ne hne, valueOf_of_ne hname has hne, Option.none_or]
  · rw [if_neg hmem, valueOf, if_neg fun hpre => hmem (hpre.subset (by simp)), Option.none_or]

theorem findSome?_put (hname : eq ∉ name) (hname' : eq ∉ name') :
    (put eq name value entries).findSome? (valueOf eq name') =
      if name' = name then some value else entries.findSome? (valueOf eq name') := by
  induction entries with
  | nil =>
    rw [put, findSome?_singleton]
    split_ifs with heq
    · rw [heq, valueOf_self]
    · exact valueOf_of_ne hname' hname heq
  | cons entry entries ih =>
    rw [put]
    split_ifs with hpre heq heq
    · rw [heq, findSome?_cons, valueOf_self]
    · -- the entry that is replaced had the other name
      have hnone : valueOf eq name' entry = none := by
        obtain ⟨rest, rfl⟩ := hpre
        rw [append_assoc]
        exact valueOf_of_ne hname' hname heq
      rw [findSome?_cons, findSome?_cons, hnone, valueOf_of_ne hname' hname heq]
    · rw [findSome?_cons, ih, if_pos heq, heq, valueOf, if_neg hpre]
    · rw [findSome?_cons, findSome?_cons, ih, if_neg heq]

/-- **`setenv` sets its variable**, and no other. -/
theorem Means.setenv (h : Means eq entries vars) (hname : Name eq name) :
    Means eq (setenv eq name value entries) (Function.update vars name (some value)) := by
  intro name' hname'
  have hguard : ¬ (name = [] ∨ eq ∈ name) := not_or.2 hname
  rw [PosixEnv.setenv, if_neg hguard, getenv, if_neg hname'.1, findSome?_put hname.2 hname'.2]
  by_cases heq : name' = name
  · rw [if_pos heq, heq, Function.update_self]
  · rw [if_neg heq, Function.update_of_ne heq, ← h name' hname', getenv, if_neg hname'.1]

theorem setenv_of_not (hname : ¬ Name eq name) : setenv eq name value entries = entries :=
  if_pos (by rwa [Name, not_and_or, not_not, not_not] at hname)

/-- **The entries of one name are replaced**: they go, wherever they are, and the new one comes
    last. -/
theorem Means.replace {bs : List β} {g : β → List α} {p : β → Bool} (h : Means eq (bs.map g) vars)
    (hp : ∀ b ∈ bs, ∀ name, Name eq name → valueOf eq name (g b) ≠ none →
      (p b = false ↔ valueOf eq name entry ≠ none)) :
    Means eq ((bs.filter p).map g ++ [entry]) (assign eq vars entry) := by
  intro name hname
  rw [assign_apply hname.2, ← h name hname, getenv, getenv, if_neg hname.1, if_neg hname.1]
  clear h
  induction bs with
  | nil => cases hv : valueOf eq name entry <;> simp [hv]
  | cons b bs ih =>
    have ih := ih fun b hb => hp b (mem_cons_of_mem _ hb)
    have hb := hp b mem_cons_self name hname
    cases hv : valueOf eq name (g b) with
    | none =>
      rw [map_cons, findSome?_cons, hv, ← ih, filter_cons]
      split_ifs
      · rw [map_cons, cons_append, findSome?_cons, hv]
      · rfl
    | some v =>
      have hb := hb (by rw [hv]; simp)
      rw [map_cons, findSome?_cons, hv, filter_cons]
      split_ifs with hpb
      · have hnone : valueOf eq name entry = none := by
          by_contra hne
          rw [hb.2 hne] at hpb
          cases hpb
        rw [map_cons, cons_append, findSome?_cons, hv, hnone, Option.none_or]
      · obtain ⟨v', hv'⟩ := Option.ne_none_iff_exists'.1 (hb.1 (by simpa using hpb))
        rw [ih, hv', Option.some_or, Option.some_or]

end PosixEnv
