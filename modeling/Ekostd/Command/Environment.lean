/-
  `Command` — the environment of the child.

  An entry of an environment is a key, `=` and a value; the key ends at the
  first `=`.  Each override takes away all entries with its key, and comes
  last.

  * `Setting`: the calls that a command is built by;
  * `foldl_override`: what is inherited and not overridden, and then the last
    override of each key;
  * `environment_overrides`: what that means for each key.
-/
import Ekostd.Env

namespace Ekostd.Command

open PosixFs List

/-- The calls that build a command. -/
inductive Setting where
  | arg (arg : Bytes)
  | args (args : List Bytes)
  | env (key value : Bytes)

/-- `Command::args`. -/
def addArgs (self : Command) (args : List Bytes) : Command :=
  args.foldl (fun self a => { self with args := self.args ++ [a] }) self

/-- One call. -/
def Setting.apply (self : Command) : Setting → Command
  | arg a => self.arg a
  | args as => self.addArgs as
  | env key value => self.env key value

/-- `Command::new` and some calls. -/
def build (program : Bytes) (settings : List Setting) : Command :=
  settings.foldl Setting.apply (new program)

/-- The calls of `Command::env`, with their key and value. -/
def sets (settings : List Setting) : List (Bytes × Bytes) :=
  settings.filterMap fun
    | .env key value => some (key, value)
    | _ => none

/-- The entry of a key and a value. -/
def entryOf (kv : Bytes × Bytes) : Bytes := kv.1 ++ equals :: kv.2

/-- The key of an entry. -/
def keyOf (entry : Bytes) : Option Bytes :=
  if equals ∈ entry then some (entry.takeWhile (· ≠ equals)) else none

/-- The keys are among those of `kvs`. -/
def Overridden (kvs : List (Bytes × Bytes)) (entry : Bytes) : Prop :=
  ∃ kv ∈ kvs, keyOf entry = some kv.1

instance (kvs : List (Bytes × Bytes)) (entry : Bytes) : Decidable (Overridden kvs entry) :=
  inferInstanceAs (Decidable (∃ kv ∈ kvs, _))

/-- The entries of the last settings, each where its key was set last. -/
def lastSets : List (Bytes × Bytes) → List Bytes
  | [] => []
  | kv :: kvs => if kv.1 ∈ kvs.map Prod.fst then lastSets kvs else entryOf kv :: lastSets kvs

/-- An environment is an inherited one with the settings `kvs` on top: what is inherited and not
    overridden is there, as it was and in its order; each key that is set is there once, with its
    last value; and there is nothing else. -/
structure Overrides (inherited : List Bytes) (kvs : List (Bytes × Bytes)) (entries : List Bytes) :
    Prop where
  kept : entries.filter (¬ Overridden kvs ·) = inherited.filter (¬ Overridden kvs ·)
  once : ∀ key value, (kvs.reverse.lookup key) = some value →
    entries.filter (keyOf · = some key) = [entryOf (key, value)]

variable {kvs : List (Bytes × Bytes)} {kv : Bytes × Bytes} {entries inherited : List Bytes}
  {entry key : Bytes}

/-! ## Keys -/

theorem keyOf_entryOf (h : equals ∉ kv.1) : keyOf (entryOf kv) = some kv.1 := by
  have hall : ∀ b ∈ kv.1, decide (b ≠ equals) = true := by
    intro b hb
    simpa using fun hbe : b = equals => h (hbe ▸ hb)
  rw [keyOf, if_pos (by simp [entryOf]), entryOf, takeWhile_append_of_pos hall,
    takeWhile_cons_of_neg (by simp), append_nil]

/-- **An entry has a key** exactly if it starts with the key and `=`. -/
theorem keyOf_eq_iff (h : equals ∉ key) : keyOf entry = some key ↔ key ++ [equals] <+: entry := by
  constructor
  · intro hkey
    have hmem : equals ∈ entry := by
      by_contra hmem
      simp [keyOf, hmem] at hkey
    obtain ⟨as, bs, rfl, has⟩ := eq_append_cons_of_mem hmem
    rw [show as ++ equals :: bs = entryOf (as, bs) from rfl, keyOf_entryOf has] at hkey
    obtain rfl := Option.some.inj hkey
    exact ⟨bs, by simp⟩
  · rintro ⟨value, rfl⟩
    rw [append_assoc]
    exact @keyOf_entryOf (key, value) h

/-- **An override** takes away the entries with its key, and comes last. -/
theorem override_entryOf (h : equals ∉ kv.1) (entries : List Bytes) :
    override entries (entryOf kv) = entries.filter (keyOf · ≠ some kv.1) ++ [entryOf kv] := by
  have hidx : (entryOf kv).findIdx? (· = equals) = some kv.1.length := by
    rw [findIdx?_eq_some_iff_getElem]
    refine ⟨by simp [entryOf], by simp [entryOf], fun j hj => ?_⟩
    have hne : kv.1[j] ≠ equals := fun hj' => h (hj' ▸ getElem_mem hj)
    simpa [entryOf, getElem_append_left hj] using hne
  have hkey : (entryOf kv).take (kv.1.length + 1) = kv.1 ++ [equals] := by
    rw [entryOf, take_length_add_append]
    rfl
  have htest : ∀ e : Bytes, (!(kv.1 ++ [equals]).isPrefixOf e) = decide (keyOf e ≠ some kv.1) := by
    intro e
    rw [Bool.eq_iff_iff, Bool.not_eq_true', ← Bool.not_eq_true, isPrefixOf_iff_prefix,
      ← keyOf_eq_iff h, decide_eq_true_eq]
  simp only [override, hidx, Option.elim_some, hkey, htest]

/-! ## Any number of overrides -/

theorem overridden_cons : Overridden (kv :: kvs) entry ↔
    keyOf entry = some kv.1 ∨ Overridden kvs entry := by
  simp [Overridden]

theorem overridden_entryOf (h : equals ∉ kv.1) :
    Overridden kvs (entryOf kv) ↔ kv.1 ∈ kvs.map Prod.fst := by
  simp [Overridden, keyOf_entryOf h, eq_comm]

/-- **After all overrides**: what is inherited and not overridden, and then the last override of
    each key. -/
theorem foldl_override (h : ∀ kv ∈ kvs, equals ∉ kv.1) (inherited : List Bytes) :
    (kvs.map entryOf).foldl override inherited =
      inherited.filter (¬ Overridden kvs ·) ++ lastSets kvs := by
  induction kvs generalizing inherited with
  | nil => simp [Overridden, lastSets]
  | cons kv kvs ih =>
    obtain ⟨hkv, h⟩ := forall_mem_cons.1 h
    have hkept : (inherited.filter (keyOf · ≠ some kv.1)).filter (¬ Overridden kvs ·) =
        inherited.filter (¬ Overridden (kv :: kvs) ·) := by
      rw [filter_filter]
      refine filter_congr fun e _ => ?_
      simp [overridden_cons, and_comm]
    rw [map_cons, foldl_cons, override_entryOf hkv, ih h, filter_append, hkept, append_assoc,
      lastSets]
    congr 1
    by_cases hlater : kv.1 ∈ kvs.map Prod.fst
    · rw [if_pos hlater, filter_cons_of_neg (by simpa [overridden_entryOf hkv] using hlater)]
      rfl
    · rw [if_neg hlater, filter_cons_of_pos (by simpa [overridden_entryOf hkv] using hlater)]
      rfl

theorem overridden_of_mem_lastSets (h : ∀ kv ∈ kvs, equals ∉ kv.1) (he : entry ∈ lastSets kvs) :
    Overridden kvs entry := by
  induction kvs with
  | nil => cases he
  | cons kv kvs ih =>
    obtain ⟨hkv, h⟩ := forall_mem_cons.1 h
    rw [overridden_cons]
    rw [lastSets] at he
    split_ifs at he
    · exact .inr (ih h he)
    · rcases mem_cons.1 he with rfl | he
      · exact .inl (keyOf_entryOf hkv)
      · exact .inr (ih h he)

theorem mem_keys {value : Bytes} (h : kvs.reverse.lookup key = some value) :
    key ∈ kvs.map Prod.fst := by
  by_contra hmem
  have hnone : kvs.reverse.lookup key = none := by
    rw [lookup_eq_none_iff]
    intro kv hkv
    have hne : key ≠ kv.1 := fun hne =>
      hmem (mem_map.2 ⟨kv, mem_reverse.1 hkv, hne.symm⟩)
    simpa using hne
  rw [hnone] at h
  cases h

/-- **Each key is set once**, to its last value. -/
theorem filter_lastSets (h : ∀ kv ∈ kvs, equals ∉ kv.1) {value : Bytes}
    (hlast : kvs.reverse.lookup key = some value) :
    (lastSets kvs).filter (keyOf · = some key) = [entryOf (key, value)] := by
  induction kvs with
  | nil => cases hlast
  | cons kv kvs ih =>
    obtain ⟨hkv, h⟩ := forall_mem_cons.1 h
    rw [reverse_cons, lookup_append] at hlast
    rw [lastSets]
    cases hlater : kvs.reverse.lookup key with
    | some value' =>
      rw [hlater, Option.some_or, Option.some.injEq] at hlast
      subst hlast
      have hmem : key ∈ kvs.map Prod.fst := mem_keys hlater
      split_ifs with hkey
      · exact ih h hlater
      · have hne : key ≠ kv.1 := fun hne => hkey (hne ▸ hmem)
        rw [filter_cons_of_neg (by simpa [keyOf_entryOf hkv] using hne.symm), ih h hlater]
    | none =>
      rw [hlater, Option.none_or] at hlast
      obtain ⟨rfl, rfl⟩ : key = kv.1 ∧ value = kv.2 := by
        rw [lookup_cons] at hlast
        split at hlast
        · next heq => exact ⟨by simpa using heq, (Option.some.inj hlast).symm⟩
        · cases hlast
      have hkey : kv.1 ∉ kvs.map Prod.fst := by
        intro hmem
        obtain ⟨kv', hkv', heq⟩ := mem_map.1 hmem
        have hne := lookup_eq_none_iff.1 hlater kv' (mem_reverse.2 hkv')
        simp [heq] at hne
      rw [if_neg hkey, filter_cons_of_pos (by simp [keyOf_entryOf hkv]), cons.injEq]
      refine ⟨rfl, filter_eq_nil_iff.2 fun e he hkeyOf => hkey ?_⟩
      obtain ⟨kv', hkv', heq⟩ := overridden_of_mem_lastSets h he
      rw [decide_eq_true_eq, heq, Option.some.injEq] at hkeyOf
      exact mem_map.2 ⟨kv', hkv', hkeyOf⟩

/-- **The environment with some settings on top.** -/
theorem overrides_foldl (h : ∀ kv ∈ kvs, equals ∉ kv.1) (inherited : List Bytes) :
    Overrides inherited kvs ((kvs.map entryOf).foldl override inherited) := by
  rw [foldl_override h]
  refine ⟨?_, fun key value hlast => ?_⟩
  · have hnone : (lastSets kvs).filter (¬ Overridden kvs ·) = [] := by
      rw [filter_eq_nil_iff]
      intro e he
      simpa using overridden_of_mem_lastSets h he
    rw [filter_append, hnone, append_nil, filter_filter]
    simp
  · have hnone : (inherited.filter (¬ Overridden kvs ·)).filter (keyOf · = some key) = [] := by
      rw [filter_filter, filter_eq_nil_iff]
      intro e _ he
      rw [Bool.and_eq_true, decide_eq_true_eq, decide_eq_true_eq] at he
      obtain ⟨kv, hkv, rfl⟩ := mem_map.1 (mem_keys hlast)
      exact he.2 ⟨kv, hkv, he.1⟩
    rw [filter_append, hnone, nil_append, filter_lastSets h hlast]

/-! ## Building a command -/

theorem overrides_addArgs (self : Command) (args : List Bytes) :
    (self.addArgs args).overrides = self.overrides := by
  unfold addArgs
  induction args generalizing self with
  | nil => rfl
  | cons a args ih =>
    rw [foldl_cons, ih]

/-- **What a command overrides** are the entries that were set, in their order. -/
theorem overrides_build (program : Bytes) (settings : List Setting) :
    (build program settings).overrides = (sets settings).map entryOf := by
  suffices h : ∀ self : Command, (settings.foldl Setting.apply self).overrides =
      self.overrides ++ (sets settings).map entryOf from h (new program)
  intro self
  induction settings generalizing self with
  | nil => simp [sets]
  | cons c settings ih =>
    rw [foldl_cons, ih]
    cases c with
    | arg a => rfl
    | args as => simp [Setting.apply, overrides_addArgs, sets]
    | env key value => simp [Setting.apply, env, sets, entryOf]

/-- **The environment of the child** is the inherited one, as it is read from the array of the
    process, with the settings on top: each key that is set has its last value. -/
theorem environment_overrides (w : World) (program : Bytes) (settings : List Setting)
    (hkeys : ∀ kv ∈ sets settings, equals ∉ kv.1) :
    ((∀ e ∈ w.environ, 0 ∉ e) → Env.environ (some (Env.pointers w.environ)) = w.environ) ∧
    ∃ entries, environment w (build program settings) = entries.map nulTerminated ∧
      Overrides w.environ (sets settings) entries := by
  refine ⟨Env.environ_pointers, _, rfl, ?_⟩
  rw [overrides_build]
  exact overrides_foldl hkeys w.environ

/-- A process with `A=1`, `AB=2`, `x` and `A=`. -/
def twiceA : World :=
  ⟨true, fun _ => false, fun _ => false, none, none,
    [[65, equals, 49], [65, 66, equals, 50], [120], [65, equals]]⟩

/-- `A` is set twice, and an argument is given in between. -/
theorem environment_overrides_twice :
    ((∀ e ∈ twiceA.environ, 0 ∉ e) →
      Env.environ (some (Env.pointers twiceA.environ)) = twiceA.environ) ∧
    ∃ entries, environment twiceA (build [112] [.env [65] [51], .arg [97], .env [65] [52]]) =
      entries.map nulTerminated ∧
      Overrides twiceA.environ (sets [.env [65] [51], .arg [97], .env [65] [52]]) entries :=
  environment_overrides twiceA [112] _ (by decide)

end Ekostd.Command
